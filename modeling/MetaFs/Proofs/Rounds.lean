import Mathlib
import MetaFs.Proofs.Queries
import MetaFs.Proofs.Replies
import MetaFs.Proofs.Transit
/-! A client that waits for the reply to each request. Between two requests nothing is under way at
the server, so that a round is the next query to the name system and one reply, however the tasks
are scheduled. -/

namespace MetaFs

namespace Server

variable {σ κ : Type} {ns : Namesystem σ} {store : σ} {s t : Connection σ Request}
  {rs : List Request} {r : Request} {callId : UInt32} {frame sent : List UInt8}

/-- Nothing is left to do before further bytes arrive. -/
structure Connection.Settled (s : Connection σ κ) : Prop where
  read : s.inbox.closed = true ∨ next s.inbox.unread = .incomplete
  finished : ∀ task ∈ s.tasks, task.Finished

/-- Nobody is at the writer when all tasks have come to their end. -/
theorem Connection.Settled.holder_eq_none {s : Connection σ κ} {log : List Entry}
    (settled : s.Settled) (h : s.Writes log) : s.holder = none := by
  cases hh : s.holder with
  | none => rfl
  | some j =>
    obtain ⟨m, a, hj⟩ := h.held j hh
    obtain ⟨a', ha'⟩ := settled.finished _ (List.mem_of_getElem? hj)
    cases ha'

theorem messages_nil : messages [] = [] := messages_of_incomplete rfl

/-- What the connection does with a frame of a client that stays and waits. The tasks run in any
order until the client finds a frame in what was sent, or nothing is left to do. -/
structure Reacts (ns : Namesystem σ) (s : Connection σ Request) (frame sent : List UInt8)
    (t : Connection σ Request) : Prop where
  run : Run (.ofNamesystem ns) s t
  received : t.received = s.received ++ frame
  stays : t.ended = s.ended ∧ t.lost = s.lost
  sent_eq : t.sent = s.sent ++ sent
  waits : (∃ body rest, Frame.receive sent = .frame body rest) ∨ t.Settled

/-- The connection between two rounds, after these requests. -/
structure Connection.InStep (s : Connection σ Request) (ns : Namesystem σ) (store : σ)
    (rs : List Request) : Prop where
  run : Run (.ofNamesystem ns) { store } s
  stays : s.ended = false ∧ s.lost = false
  clean : s.buffer = []
  /-- What has arrived is whole messages. -/
  whole : ∃ ms : List Message, ms.length = rs.length ∧
    ∀ more, messages (s.received ++ more) = ms ++ messages more
  asked : ∃ order : List Query, s.Queried ns store order ∧ order.map Query.request = rs ∧
    ∀ i < rs.length, i ∈ order.map Query.index
  replied : ∃ log : List Entry, s.Writes log ∧ ∀ i < rs.length, i ∈ log.map Entry.index

theorem Connection.InStep.idle (ns : Namesystem σ) (store : σ) :
    ({ store } : Connection σ Request).InStep ns store [] where
  run := .refl
  stays := ⟨rfl, rfl⟩
  clean := rfl
  whole := ⟨[], rfl, fun _ => rfl⟩
  asked := ⟨[], .idle store, rfl, by simp⟩
  replied := ⟨[], .idle store, by simp⟩

theorem Connection.InStep.store_eq (h : s.InStep ns store rs) : s.store = ns.after store rs := by
  obtain ⟨order, hq, hrs, -⟩ := h.asked
  rw [hq.store_eq, hrs]

/-- Of what is added to a log, where each index occurs once and all those before `n` are taken, at
most one can have an index up to `n`. -/
theorem added_cases {α : Type} {index : α → ℕ} {old new : List α} {n : ℕ}
    (distinct : ((old ++ new).map index).Nodup) (taken : ∀ i < n, i ∈ old.map index)
    (bound : ∀ a ∈ new, index a < n + 1) : new = [] ∨ ∃ a, new = [a] ∧ index a = n := by
  rw [List.map_append] at distinct
  have hn (a : α) (ha : a ∈ new) : index a = n := by
    by_contra hne
    have hlt : index a < n := Nat.lt_of_le_of_ne (Nat.le_of_lt_succ (bound a ha)) hne
    exact List.disjoint_of_nodup_append distinct (taken _ hlt) (List.mem_map_of_mem ha)
  cases new with
  | nil => exact .inl rfl
  | cons a rest =>
    cases rest with
    | nil => exact .inr ⟨a, rfl, hn a (by simp)⟩
    | cons b rest =>
      have hab : index a = index b := (hn a (by simp)).trans (hn b (by simp)).symm
      have hnew := (List.nodup_append.mp distinct).2.1
      simp [hab] at hnew

/-- The next index is taken by what has it. -/
theorem taken_append {α : Type} {index : α → ℕ} {old : List α} {a : α} {n : ℕ}
    (taken : ∀ i < n, i ∈ old.map index) (ha : index a = n) :
    ∀ i < n + 1, i ∈ (old ++ [a]).map index := by
  intro i hi
  rw [List.map_append, List.mem_append]
  rcases Nat.lt_succ_iff_lt_or_eq.mp hi with hi | rfl
  · exact .inl (taken i hi)
  · exact .inr (by simp [ha])

theorem eq_of_append_singleton {α : Type} {old before later : List α} {a b : α}
    (h : old ++ [b] = before ++ a :: later) (ha : a ∉ old) : before = old ∧ a = b := by
  obtain ⟨c, rfl, hc⟩ | ⟨c, rfl, hc⟩ := List.append_eq_append_iff.mp h
  · cases c with
    | nil => exact ⟨List.append_nil _, (List.cons.inj hc).1.symm⟩
    | cons x c => simp at hc
  · cases c with
    | nil => exact ⟨(List.append_nil _).symm, (List.cons.inj hc).1⟩
    | cons x c =>
      obtain rfl : a = x := (List.cons.inj hc).1
      simp at ha

theorem frame?_eq_some_iff_encoded {m : Message} :
    frame? m = some frame ↔ ∃ bytes, Wire.encoded m = .ok bytes ∧
      Frame.encode? bytes = some frame := by
  cases he : Wire.encoded m <;> simp [frame?, he, Except.toOption]

/-- The reply to a request that the name system is asked in the given state. -/
def reply (ns : Namesystem σ) (store : σ) (callId : UInt32) (r : Request) : Message :=
  ⟨callId, replyBody (settle r ((ns r).run store).1)⟩

theorem replyTo_eq_reply (callId : UInt32) (r : Request) (store : σ) :
    replyTo ⟨callId, .request r⟩ (some ((ns r).run store).1) = reply ns store callId r := rfl

section Round

variable (h : s.InStep ns store rs) (reacts : Reacts ns s frame sent t)
  (carried : next frame = .message ⟨callId, .request r⟩ [])

include h

theorem Connection.InStep.length_tasks_le : s.tasks.length ≤ rs.length := by
  obtain ⟨ms, hlen, hms⟩ := h.whole
  have hreads := (Connection.Reads.idle store).run h.run
  have hall := hms []
  rw [List.append_nil] at hall
  have hpre := hreads.prefix_messages.length_le
  rw [hall, messages_nil, List.length_map, List.length_append] at hpre
  simpa [hlen] using hpre

include reacts

theorem Reacts.reaches : Run (.ofNamesystem ns) { store } t := h.run.trans reacts.run

theorem Reacts.kept : t.lost = false := reacts.stays.2.trans h.stays.2

include carried

/-- The tasks are those of the messages before, and then that of the new one. -/
theorem Reacts.tasks : ∃ ms : List Message, ms.length = rs.length ∧
    (∀ more, messages (t.received ++ more) = (ms ++ [⟨callId, .request r⟩]) ++ messages more) ∧
    t.tasks.map Task.message <+: ms ++ [⟨callId, .request r⟩] ∧
    (t.Settled → t.tasks.map Task.message = ms ++ [⟨callId, .request r⟩]) := by
  obtain ⟨ms, hlen, hms⟩ := h.whole
  have hreads := (Connection.Reads.idle store).run (reacts.reaches h)
  have hmore (more : List UInt8) : messages (t.received ++ more) =
      (ms ++ [⟨callId, .request r⟩]) ++ messages more := by
    rw [reacts.received, List.append_assoc, hms,
      messages_of_message (next_append_of_message more carried), List.nil_append]
    simp
  have hall : messages t.received = ms ++ [⟨callId, .request r⟩] := by
    simpa [messages_nil] using hmore []
  refine ⟨ms, hlen, hmore, hall ▸ hreads.prefix_messages, fun settled => ?_⟩
  have hrest : messages t.inbox.unread = [] := by
    rcases settled.read with hc | hi
    · rcases hreads.closed hc with hr | ⟨-, hi⟩
      · exact messages_of_refused hr
      · exact messages_of_incomplete hi
    · exact messages_of_incomplete hi
  have hfound := hreads.found []
  simp only [List.append_nil, hrest] at hfound
  rw [← hfound, hall]

theorem Reacts.task_cases {j : Nat} {m : Message} {p : Phase Request}
    (here : t.tasks[j]? = some ⟨m, p⟩) :
    j < rs.length + 1 ∧ (j = rs.length → m = ⟨callId, .request r⟩) := by
  obtain ⟨ms, hlen, -, hpre, -⟩ := reacts.tasks h carried
  have hm := getElem?_of_dispatched hpre here
  rw [← hlen]
  constructor
  · have hlt := (List.getElem?_eq_some_iff.mp hm).1
    rwa [List.length_append, List.length_singleton] at hlt
  · rintro rfl
    rw [List.getElem?_concat_length] at hm
    exact (Option.some.inj hm).symm

/-- The name system is asked the new request at the most, and what the new task keeps is the answer
to it. -/
theorem Reacts.order : ∃ order new : List Query,
    order.map Query.request = rs ∧ t.Queried ns store (order ++ new) ∧
    (∀ i < rs.length, i ∈ order.map Query.index) ∧
    ∀ (m : Message) (p : Phase Request) (a : Option (Except Error Body)),
      t.tasks[rs.length]? = some ⟨m, p⟩ → p.answer? = some a →
      new = [⟨rs.length, r⟩] ∧ a = some ((ns r).run s.store).1 := by
  obtain ⟨order, hq, hrs, hasked⟩ := h.asked
  obtain ⟨order', ⟨new, rfl⟩, hq'⟩ := hq.run rfl h.run reacts.run
  refine ⟨order, new, hrs, hq', hasked, fun m p a here ha => ?_⟩
  have hbound (q : Query) (hn : q ∈ new) : q.index < rs.length + 1 := by
    obtain ⟨m', p', -, hj, -⟩ := hq'.placed q (List.mem_append_right _ hn)
    exact (reacts.task_cases h carried hj).1
  have hcases := added_cases hq'.distinct hasked hbound
  obtain rfl := (reacts.task_cases h carried here).2 rfl
  have said := (Asked.run (reacts.reaches h) (.of_tasks_eq_nil rfl)).answered _ _ p a here ha
  cases said with
  | @request r answer returned =>
    obtain ⟨before, later, r', hsplit, hbody, hanswer⟩ := hq'.answered _ _ p answer here ha
    obtain rfl : r = r' := Body.request.inj hbody
    -- The task is new, so that its query is none of those before and hence the only new one.
    have hfresh : (⟨rs.length, r⟩ : Query) ∉ order := by
      intro hmem
      obtain ⟨m', p', -, hj, -⟩ := hq.placed _ hmem
      have hlt := (List.getElem?_eq_some_iff.mp hj).1
      have hle := h.length_tasks_le
      exact absurd hlt (Nat.not_lt.mpr hle)
    rcases hcases with rfl | ⟨q, rfl, -⟩
    · rw [List.append_nil] at hsplit
      exact absurd (by simp [hsplit]) hfresh
    · obtain ⟨rfl, rfl⟩ := eq_of_append_singleton hsplit hfresh
      rw [← hq.store_eq] at hanswer
      exact ⟨rfl, by rw [hanswer]⟩

/-- The writer is given the reply of the new task at the most, and nothing else is sent. -/
theorem Reacts.log : ∃ log new : List Entry, t.Writes (log ++ new) ∧
    (∀ e ∈ log, e.index < rs.length) ∧ (∀ i < rs.length, i ∈ log.map Entry.index) ∧
    sent ++ t.buffer = (new.map Entry.frame).flatten ∧
    (new = [] ∨ ∃ e, new = [e] ∧ e.index = rs.length) := by
  obtain ⟨log, hw, hreplied⟩ := h.replied
  obtain ⟨log', ⟨new, rfl⟩, hw'⟩ := hw.run reacts.run
  refine ⟨log, new, hw', fun e he => ?_, hreplied, ?_,
    added_cases hw'.distinct hreplied fun e he => ?_⟩
  · obtain ⟨p, hp, -⟩ := hw.placed e he
    exact Nat.lt_of_lt_of_le (List.getElem?_eq_some_iff.mp hp).1 h.length_tasks_le
  · have hold : s.sent = (log.map Entry.frame).flatten := by
      simpa [h.clean] using hw.written
    have hall := hw'.written
    rw [reacts.sent_eq, List.map_append, List.flatten_append, hold, List.append_assoc] at hall
    exact List.append_cancel_left hall
  · obtain ⟨p, hp, -⟩ := hw'.placed e (List.mem_append_right _ he)
    exact (reacts.task_cases h carried hp).1

/-- When the client finds a frame, that is the whole reply to its request, and nothing else is
under way. -/
theorem Reacts.of_frame {body rest : List UInt8} (found : Frame.receive sent = .frame body rest) :
    rest = [] ∧ Wire.encoded (reply ns s.store callId r) = .ok body ∧ Frame.Receivable body ∧
      t.InStep ns store (rs ++ [r]) := by
  obtain ⟨log, new, hw, -, hreplied, hout, hnew⟩ := reacts.log h carried
  obtain ⟨order, newq, hrs, hq, hasked, hanswered⟩ := reacts.order h carried
  -- What was sent, with what the writer still holds, is the replies that were given to it.
  have hfound := Frame.receive_append_of_frame t.buffer found
  rw [hout] at hfound
  rcases hnew with rfl | ⟨e, rfl, hindex⟩
  · cases hfound
  · obtain ⟨p, hp, hs⟩ := hw.placed e (by simp)
    rw [hindex] at hp
    have hmessage := (reacts.task_cases h carried hp).2 rfl
    obtain ⟨rfl, hanswer⟩ := hanswered _ _ _ hp (p.answer?_of_settled? hs)
    have hframed := hw.framed e (by simp)
    rw [hmessage, hanswer, replyTo_eq_reply] at hframed
    obtain ⟨bytes, hbytes, hframe⟩ := frame?_eq_some_iff_encoded.mp hframed
    have hsent : ([e].map Entry.frame).flatten = e.frame ++ [] := by simp
    rw [hsent] at hfound
    -- The client would have refused the length of a longer reply.
    have hfits : Frame.Receivable bytes := by
      by_contra hnot
      rw [Frame.receive_eq_bad_of_not_receivable [] hframe hnot] at hfound
      cases hfound
    have hreceive : Frame.receive (e.frame ++ []) = .frame bytes [] := by
      rw [(Frame.encode?_eq_some.mp hframe).2]
      exact Frame.receive_framed hfits []
    obtain ⟨rfl, hrest⟩ := Frame.Received.frame.inj (hreceive.symm.trans hfound)
    obtain ⟨hnil, hbuffer⟩ := List.append_eq_nil_iff.mp hrest.symm
    refine ⟨hnil, hbytes, hfits, ?_⟩
    obtain ⟨ms, hlen, hmore, -⟩ := reacts.tasks h carried
    have hcount : (rs ++ [r]).length = rs.length + 1 := by
      rw [List.length_append, List.length_singleton]
    refine ⟨reacts.reaches h, ⟨reacts.stays.1.trans h.stays.1, reacts.kept h⟩, hbuffer,
      ⟨_, by simp [hlen], hmore⟩, ⟨_, hq, by simp [hrs], ?_⟩, ⟨_, hw, ?_⟩⟩
    · rw [hcount]
      exact taken_append hasked rfl
    · rw [hcount]
      exact taken_append hreplied hindex

/-- A reply that travels gets to the client. -/
theorem Reacts.frame_of_travels (travels : (reply ns s.store callId r).Travels) :
    ∃ body rest, Frame.receive sent = .frame body rest := by
  rcases reacts.waits with found | settled
  · exact found
  obtain ⟨log, new, hw, hold, -, hout, hnew⟩ := reacts.log h carried
  obtain ⟨order, newq, -, -, -, hanswered⟩ := reacts.order h carried
  obtain ⟨ms, hlen, -, -, hall⟩ := reacts.tasks h carried
  have hget : (t.tasks.map Task.message)[rs.length]? = some ⟨callId, .request r⟩ := by
    rw [hall settled, ← hlen, List.getElem?_concat_length]
  rw [List.getElem?_map, Option.map_eq_some_iff] at hget
  obtain ⟨⟨m, p⟩, here, rfl⟩ := hget
  -- The new task has come to its end, and as its reply can be sent, the writer was given it.
  obtain ⟨a, rfl : p = .finished a⟩ := settled.finished _ (List.mem_of_getElem? here)
  obtain ⟨-, rfl⟩ := hanswered _ _ a here rfl
  obtain ⟨bytes, hbytes, hfits⟩ := travels
  have hframe := Frame.encode?_of_receivable hfits
  have hreply := frame?_eq_some_iff_encoded.mpr ⟨bytes, hbytes, hframe⟩
  obtain ⟨e, he, hindex⟩ := hw.complete (reacts.kept h) _ _ _ _ here hreply
  rcases hnew with rfl | ⟨e', rfl, -⟩
  · rw [List.append_nil] at he
    exact absurd hindex (hold e he).ne
  · obtain rfl : e = e' := by
      rcases List.mem_append.mp he with he | he
      · exact absurd hindex (hold e he).ne
      · exact List.mem_singleton.mp he
    obtain ⟨q, hq, hs⟩ := hw.placed e (by simp)
    rw [hindex, here] at hq
    obtain ⟨hmessage, rfl⟩ := Task.mk.inj (Option.some.inj hq)
    have hanswer : some ((ns r).run s.store).1 = e.answer := Option.some.inj hs
    have hframed := hw.framed e (by simp)
    rw [← hmessage, ← hanswer, replyTo_eq_reply, hreply] at hframed
    have hfree : t.holder = none := settled.holder_eq_none hw
    have hbuffer : t.buffer = [] := hw.drained (reacts.kept h) hfree
    have hsent : sent = e.frame := by
      simpa [hbuffer] using hout
    refine ⟨bytes, [], ?_⟩
    rw [hsent, ← Option.some.inj hframed]
    simpa using Frame.receive_framed hfits []

end Round

end Server

end MetaFs
