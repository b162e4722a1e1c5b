import Mathlib
import MetaFs.Tasks
import MetaFs.Proofs.Reading
/-! What every run of a connection keeps: the tasks are those of the messages that were read, the
writer has been given whole replies of distinct tasks, and each task keeps what the name system
said to its own request. -/

namespace MetaFs

namespace Server

variable {σ κ : Type} {service : Service σ κ} {start s t : Connection σ κ} {i : Nat}

/-- Any number of steps, in any order. -/
abbrev Run (service : Service σ κ) : Connection σ κ → Connection σ κ → Prop :=
  Relation.ReflTransGen (Step service)

theorem getElem?_set_cases {tasks : List (Task κ)} {i j : Nat} {new u : Task κ}
    (h : (tasks.set i new)[j]? = some u) : j = i ∧ u = new ∨ j ≠ i ∧ tasks[j]? = some u := by
  rw [List.getElem?_set] at h
  split_ifs at h with hij hlt
  · exact .inl ⟨hij.symm, (Option.some.inj h).symm⟩
  · exact .inr ⟨Ne.symm hij, h⟩

theorem getElem?_append_cases {tasks : List (Task κ)} {j : Nat} {new u : Task κ}
    (h : (tasks ++ [new])[j]? = some u) : tasks[j]? = some u ∨ u = new := by
  rw [List.getElem?_append] at h
  split_ifs at h
  · exact .inl h
  · exact .inr (List.mem_singleton.mp (List.mem_of_getElem? h))

theorem map_message_set {tasks : List (Task κ)} {i : Nat} {m : Message} {p : Phase κ}
    (here : tasks[i]? = some ⟨m, p⟩) (q : Phase κ) :
    (tasks.set i ⟨m, q⟩).map Task.message = tasks.map Task.message := by
  rw [List.map_set]
  apply List.ext_getElem?
  intro j
  rw [List.getElem?_set]
  split_ifs with hij hlt
  · subst hij
    rw [List.getElem?_map, here]
    rfl
  · subst hij
    rw [List.getElem?_eq_none (Nat.le_of_not_lt hlt)]
  · rfl

/-- The tasks are those of the messages that have been read: whatever arrives later, the messages
of the stream are theirs and those that are still unread. -/
structure Connection.Reads (s : Connection σ κ) : Prop where
  found : ∀ more, messages (s.received ++ more) =
    s.tasks.map Task.message ++ messages (s.inbox.unread ++ more)
  closed : s.inbox.closed = true →
    next s.inbox.unread = .refused ∨ s.ended = true ∧ next s.inbox.unread = .incomplete

namespace Connection.Reads

theorem idle (store : σ) : ({ store } : Connection σ κ).Reads where
  found _ := rfl
  closed h := nomatch h

theorem messages_of_closed (h : s.Reads) (hc : s.inbox.closed = true) :
    messages s.received = s.tasks.map Task.message := by
  have hf := h.found []
  have hn : messages s.inbox.unread = [] := by
    rcases h.closed hc with hr | ⟨-, hi⟩
    · exact messages_of_refused hr
    · exact messages_of_incomplete hi
  simpa only [List.append_nil, hn] using hf

theorem prefix_messages (h : s.Reads) : s.tasks.map Task.message <+: messages s.received := by
  have hf := h.found []
  rw [List.append_nil] at hf
  exact ⟨_, hf.symm⟩

theorem peer (h : s.Reads) (step : PeerStep s t) : t.Reads := by
  cases step with
  | finish => exact ⟨h.found, fun hc => (h.closed hc).imp_right fun hi => ⟨rfl, hi.2⟩⟩
  | lose => exact ⟨h.found, h.closed⟩
  | send bytes open_ =>
    cases hc : s.inbox.closed with
    | false =>
      have hput : s.inbox.put bytes = ⟨s.inbox.unread ++ bytes, false⟩ := by
        simp [Inbox.put, hc]
      refine ⟨fun more => ?_, fun h' => ?_⟩
      · simpa only [hput, List.append_assoc] using h.found (bytes ++ more)
      · rw [hput] at h'
        cases h'
    | true =>
      have hput : s.inbox.put bytes = s.inbox := by simp [Inbox.put, hc]
      -- Only a refused message can have closed the inbox, as the stream goes on.
      have hr : next s.inbox.unread = .refused := by
        rcases h.closed hc with hr | ⟨he, -⟩
        · exact hr
        · rw [open_] at he
          cases he
      refine ⟨fun more => ?_, fun _ => .inl (by rw [hput, hr])⟩
      simp only [hput, List.append_assoc, h.found,
        messages_of_refused (next_append_of_refused _ hr)]

theorem reader (h : s.Reads) (step : ReaderStep s t) : t.Reads := by
  cases step with
  | start reads found =>
    refine ⟨fun more => ?_, fun h' => nomatch h'⟩
    rw [h.found more, messages_of_message (next_append_of_message more found)]
    simp
  | refuse reads found => exact ⟨h.found, fun _ => .inl found⟩
  | stop reads ended found => exact ⟨h.found, fun _ => .inr ⟨ended, found⟩⟩

end Connection.Reads

/-- A task neither starts tasks nor touches what is being read. -/
theorem TaskStep.reading (step : TaskStep service i s t) :
    t.received = s.received ∧ t.ended = s.ended ∧ t.inbox = s.inbox ∧
      t.tasks.map Task.message = s.tasks.map Task.message := by
  cases step with
  | flush holds split => exact ⟨rfl, rfl, rfl, rfl⟩
  | call here | reject here | resume here | answer here | unwritable here | oversize here
  | lock here | release here | fail here | giveUp here =>
    exact ⟨rfl, rfl, rfl, map_message_set here _⟩

theorem Connection.Reads.task (h : s.Reads) (step : TaskStep service i s t) : t.Reads := by
  obtain ⟨hr, he, hi, ht⟩ := step.reading
  exact ⟨by rw [hr, hi, ht]; exact h.found, by rw [he, hi]; exact h.closed⟩

theorem Connection.Reads.step (h : s.Reads) (step : Step service s t) : t.Reads := by
  cases step with
  | peer step => exact h.peer step
  | reader step => exact h.reader step
  | task i step => exact h.task step

theorem Connection.Reads.run (h : start.Reads) (run : Run service start s) : s.Reads := by
  induction run with
  | refl => exact h
  | tail _ step ih => exact ih.step step

def Task.Finished (task : Task κ) : Prop :=
  ∃ answer, task.phase = .finished answer

/-- What a task keeps of the name system's answer. -/
def Phase.answer? : Phase κ → Option (Option (Except Error Body))
  | .answered answer | .sending answer | .finished answer => some answer
  | .ready | .calling _ => none

/-- The same, once its reply has been given to the writer or given up. -/
def Phase.settled? : Phase κ → Option (Option (Except Error Body))
  | .sending answer | .finished answer => some answer
  | .ready | .calling _ | .answered _ => none

theorem Phase.answer?_of_settled? {p : Phase κ} {a : Option (Except Error Body)}
    (h : p.settled? = some a) : p.answer? = some a := by
  cases p with
  | sending answer | finished answer => exact h
  | ready | calling call | answered answer => cases h

/-- A reply that the writer was given. -/
structure Entry where
  index : Nat
  message : Message
  answer : Option (Except Error Body)
  frame : List UInt8

/-- The writer was given these replies, in this order. -/
structure Connection.Writes (s : Connection σ κ) (log : List Entry) : Prop where
  distinct : (log.map Entry.index).Nodup
  written : s.sent ++ s.buffer = (log.map Entry.frame).flatten
  framed : ∀ e ∈ log, frame? (replyTo e.message e.answer) = some e.frame
  placed : ∀ e ∈ log, ∃ p : Phase κ, s.tasks[e.index]? = some ⟨e.message, p⟩ ∧
    p.settled? = some e.answer
  holds : ∀ j m a, s.tasks[j]? = some ⟨m, .sending a⟩ → s.holder = some j ∧ ∃ e ∈ log, e.index = j
  held : ∀ j, s.holder = some j → ∃ m a, s.tasks[j]? = some ⟨m, .sending a⟩
  drained : s.lost = false → s.holder = none → s.buffer = []
  complete : s.lost = false → ∀ j m a frame, s.tasks[j]? = some ⟨m, .finished a⟩ →
    frame? (replyTo m a) = some frame → ∃ e ∈ log, e.index = j

theorem getElem?_set_here {tasks : List (Task κ)} {i : Nat} {old : Task κ}
    (here : tasks[i]? = some old) (new : Task κ) : (tasks.set i new)[i]? = some new := by
  obtain ⟨hlt, -⟩ := List.getElem?_eq_some_iff.mp here
  exact List.getElem?_set_self hlt

namespace Connection.Writes

variable {log : List Entry} {m : Message}

theorem idle (store : σ) : ({ store } : Connection σ κ).Writes [] where
  distinct := .nil
  written := rfl
  framed _ h := nomatch h
  placed _ h := nomatch h
  holds _ _ _ h := nomatch h
  held _ h := nomatch h
  drained _ _ := rfl
  complete _ _ _ _ _ h := nomatch h

theorem peer (h : s.Writes log) (step : PeerStep s t) : t.Writes log := by
  cases step with
  | send | finish =>
    exact ⟨h.distinct, h.written, h.framed, h.placed, h.holds, h.held, h.drained, h.complete⟩
  | lose =>
    exact ⟨h.distinct, h.written, h.framed, h.placed, h.holds, h.held, (fun hl => nomatch hl),
      (fun hl => nomatch hl)⟩

theorem reader (h : s.Writes log) (step : ReaderStep s t) : t.Writes log := by
  cases step with
  | refuse | stop =>
    exact ⟨h.distinct, h.written, h.framed, h.placed, h.holds, h.held, h.drained, h.complete⟩
  | @start m rest reads found =>
    have hnew {j : Nat} {u : Task κ} (hj : s.tasks[j]? = some u) :
        (s.tasks ++ [⟨m, .ready⟩])[j]? = some u := by
      obtain ⟨hlt, -⟩ := List.getElem?_eq_some_iff.mp hj
      rw [List.getElem?_append_left hlt, hj]
    refine ⟨h.distinct, h.written, h.framed, fun e he => ?_, fun j m' a hj => ?_, fun j hj => ?_,
      h.drained, fun hl j m' a frame hj hf => ?_⟩
    · obtain ⟨p, hp, hs⟩ := h.placed e he
      exact ⟨p, hnew hp, hs⟩
    · rcases getElem?_append_cases hj with hj | hj
      · exact h.holds j m' a hj
      · cases hj
    · obtain ⟨m', a, hj⟩ := h.held j hj
      exact ⟨m', a, hnew hj⟩
    · rcases getElem?_append_cases hj with hj | hj
      · exact h.complete hl j m' a frame hj hf
      · cases hj

/-- A task has no entry before it has been given the writer. -/
theorem index_ne (h : s.Writes log) {p : Phase κ} (here : s.tasks[i]? = some ⟨m, p⟩)
    (unsettled : p.settled? = none) : ∀ e ∈ log, e.index ≠ i := by
  rintro e he rfl
  obtain ⟨q, hq, hs⟩ := h.placed e he
  obtain rfl : q = p := by
    have := hq.symm.trans here
    simp only [Option.some.injEq, Task.mk.injEq] at this
    exact this.2
  rw [unsettled] at hs
  cases hs

/-- A task that goes on without the writer, or ends because there is nothing to send or nobody to
send it to. -/
theorem set (h : s.Writes log) {p q : Phase κ} (here : s.tasks[i]? = some ⟨m, p⟩)
    (unsettled : p.settled? = none) (unsent : ∀ a, q ≠ .sending a)
    (gone : ∀ a, q = .finished a → s.lost = true ∨ frame? (replyTo m a) = none) (store : σ) :
    ({ s with tasks := s.tasks.set i ⟨m, q⟩, store } : Connection σ κ).Writes log := by
  refine ⟨h.distinct, h.written, h.framed, fun e he => ?_, fun j m' a hj => ?_, fun j hj => ?_,
    h.drained, fun hl j m' a frame hj hf => ?_⟩
  · obtain ⟨r, hr, hs⟩ := h.placed e he
    have hne := h.index_ne here unsettled e he
    exact ⟨r, by rw [List.getElem?_set_ne hne.symm, hr], hs⟩
  · rcases getElem?_set_cases hj with ⟨-, hu⟩ | ⟨-, hj⟩
    · cases hu
      exact absurd rfl (unsent a)
    · exact h.holds j m' a hj
  · obtain ⟨m', a, hj⟩ := h.held j hj
    have hne : i ≠ j := by
      rintro rfl
      cases here.symm.trans hj
      cases unsettled
    exact ⟨m', a, by rw [List.getElem?_set_ne hne, hj]⟩
  · rcases getElem?_set_cases hj with ⟨-, hu⟩ | ⟨-, hj⟩
    · cases hu
      rcases gone a rfl with hg | hg
      · rw [hl] at hg
        cases hg
      · rw [hf] at hg
        cases hg
    · exact h.complete hl j m' a frame hj hf

theorem lock (h : s.Writes log) {answer : Option (Except Error Body)} {frame : List UInt8}
    (here : s.tasks[i]? = some ⟨m, .answered answer⟩) (free : s.holder = none)
    (framed : frame? (replyTo m answer) = some frame) :
    ({ s with
        tasks := s.tasks.set i ⟨m, .sending answer⟩
        holder := some i
        buffer := s.buffer ++ frame } : Connection σ κ).Writes
      (log ++ [⟨i, m, answer, frame⟩]) := by
  have hne := h.index_ne here rfl
  refine ⟨?_, ?_, fun e he => ?_, fun e he => ?_, fun j m' a hj => ?_, fun j hj => ?_,
    (fun _ hn => nomatch hn), fun hl j m' a f hj hf => ?_⟩
  · rw [List.map_append, List.map_singleton]
    refine h.distinct.append (List.nodup_singleton i) ?_
    rw [List.disjoint_singleton]
    intro hi
    obtain ⟨e, he, hei⟩ := List.mem_map.mp hi
    exact hne e he hei
  · rw [List.map_append, List.flatten_append, ← h.written]
    simp
  · rcases List.mem_append.mp he with he | he
    · exact h.framed e he
    · cases List.mem_singleton.mp he
      exact framed
  · rcases List.mem_append.mp he with he | he
    · obtain ⟨r, hr, hs⟩ := h.placed e he
      exact ⟨r, by rw [List.getElem?_set_ne (hne e he).symm, hr], hs⟩
    · cases List.mem_singleton.mp he
      exact ⟨.sending answer, getElem?_set_here here _, rfl⟩
  · rcases getElem?_set_cases hj with ⟨rfl, -⟩ | ⟨-, hj⟩
    · exact ⟨rfl, _, List.mem_append_right _ (List.mem_singleton_self _), rfl⟩
    -- Nobody else is sending, as the writer was free.
    · have hs := (h.holds j m' a hj).1
      rw [free] at hs
      cases hs
  · cases hj
    exact ⟨m, answer, getElem?_set_here here _⟩
  · rcases getElem?_set_cases hj with ⟨-, hu⟩ | ⟨-, hj⟩
    · cases hu
    · obtain ⟨e, he, hej⟩ := h.complete hl j m' a f hj hf
      exact ⟨e, List.mem_append_left _ he, hej⟩

theorem flush (h : s.Writes log) {now later : List UInt8} (holds : s.holder = some i)
    (split : s.buffer = now ++ later) :
    ({ s with sent := s.sent ++ now, buffer := later } : Connection σ κ).Writes log := by
  refine ⟨h.distinct, ?_, h.framed, h.placed, h.holds, h.held, fun _ hn => ?_, h.complete⟩
  · rw [← h.written, split, List.append_assoc]
  · rw [holds] at hn
    cases hn

/-- A task gives the writer back when its reply has left, or cannot leave any more. -/
theorem release (h : s.Writes log) {answer : Option (Except Error Body)}
    (here : s.tasks[i]? = some ⟨m, .sending answer⟩) (done : s.lost = false → s.buffer = []) :
    ({ s with tasks := s.tasks.set i ⟨m, .finished answer⟩, holder := none } :
      Connection σ κ).Writes log := by
  obtain ⟨hold, hentry⟩ := h.holds i m answer here
  refine ⟨h.distinct, h.written, h.framed, fun e he => ?_, fun j m' a hj => ?_,
    (fun _ hn => nomatch hn), fun hl _ => done hl, fun hl j m' a frame hj hf => ?_⟩
  · obtain ⟨r, hr, hs⟩ := h.placed e he
    by_cases hei : e.index = i
    · rw [hei, here] at hr
      cases hr
      exact ⟨.finished answer, by rw [hei]; exact getElem?_set_here here _, hs⟩
    · exact ⟨r, by rw [List.getElem?_set_ne (Ne.symm hei), hr], hs⟩
  · rcases getElem?_set_cases hj with ⟨-, hu⟩ | ⟨hji, hj⟩
    · cases hu
    -- The task itself is the only one that is sending.
    · have hs := (h.holds j m' a hj).1
      exact absurd (Option.some.inj (hs.symm.trans hold)) hji
  · rcases getElem?_set_cases hj with ⟨rfl, -⟩ | ⟨-, hj⟩
    · exact hentry
    · exact h.complete hl j m' a frame hj hf

theorem task (h : s.Writes log) (step : TaskStep service i s t) :
    ∃ log', log <+: log' ∧ t.Writes log' := by
  have kept {t : Connection σ κ} (ht : t.Writes log) : ∃ log', log <+: log' ∧ t.Writes log' :=
    ⟨log, List.prefix_rfl, ht⟩
  cases step with
  | call here | reject here | resume here | answer here =>
    exact kept (h.set here rfl (by simp) (by simp) _)
  | @unwritable m answer e here fails =>
    refine kept (h.set here rfl (by simp) (fun a ha => .inr ?_) _)
    cases ha
    simp [frame?, fails, Except.toOption]
  | @oversize m answer body here free written fails =>
    refine kept (h.set here rfl (by simp) (fun a ha => .inr ?_) _)
    cases ha
    simp [frame?, written, fails, Except.toOption]
  | giveUp here free lost => exact kept (h.set here rfl (by simp) (fun _ _ => .inl lost) _)
  | lock here free framed => exact ⟨_, List.prefix_append _ _, h.lock here free framed⟩
  | flush holds split => exact kept (h.flush holds split)
  | release here done => exact kept (h.release here fun _ => done)
  | fail here lost =>
    refine kept (h.release here fun hl => ?_)
    rw [lost] at hl
    cases hl

theorem step (h : s.Writes log) (step : Step service s t) :
    ∃ log', log <+: log' ∧ t.Writes log' := by
  cases step with
  | peer step => exact ⟨log, List.prefix_rfl, h.peer step⟩
  | reader step => exact ⟨log, List.prefix_rfl, h.reader step⟩
  | task i step => exact h.task step

/-- What the writer was given is never taken back. -/
theorem run (h : start.Writes log) (run : Run service start s) :
    ∃ log', log <+: log' ∧ s.Writes log' := by
  induction run with
  | refl => exact ⟨log, List.prefix_rfl, h⟩
  | tail _ step ih =>
    obtain ⟨log', hpre, ih⟩ := ih
    obtain ⟨log'', hpre', ih'⟩ := ih.step step
    exact ⟨log'', hpre.trans hpre', ih'⟩

end Connection.Writes

end Server

end MetaFs
