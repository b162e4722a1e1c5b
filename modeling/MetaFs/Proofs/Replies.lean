import Mathlib
import MetaFs.Proofs.Answers
import MetaFs.Proofs.Serve
/-! What a peer gets from the server, in whatever order the tasks run: nothing but whole replies to
its own messages, one each at the most. A message is left without a reply only if the reply does not
fit the wire. -/

namespace MetaFs

namespace Server

variable {σ κ : Type} {service : Service σ κ} {start s : Connection σ κ}

/-- The state of a connection, where `ms` are the messages of the longest front of valid frames and
`log` tells what the writer was given. -/
structure Safe (service : Service σ κ) (start s : Connection σ κ) (ms : List Message)
    (log : List Entry) : Prop where
  delivered : Delivers s.received ms
  longest : ∀ ms', Delivers s.received ms' → ms' <+: ms
  /-- Nothing is dispatched at or behind a frame that is refused. -/
  dispatched : s.tasks.map Task.message <+: ms
  exhausted : s.inbox.closed = true → s.tasks.map Task.message = ms
  written : s.sent ++ s.buffer = (log.map Entry.frame).flatten
  whole : s.lost = false → s.holder = none → s.buffer = []
  distinct : (log.map Entry.index).Nodup
  replies : ∀ e ∈ log, ms[e.index]? = some e.message ∧
    ∃ body, Answers service start s e.index e.message.body body ∧
      frame? ⟨e.message.callId, body⟩ = some e.frame
  /-- A reader that has stopped takes no task with it. -/
  unharmed : ∀ (t : Connection σ κ) (inbox : Inbox), TaskRun service s t →
    TaskRun service { s with inbox } { t with inbox }
  settles : s.lost = false → ∀ (i : Nat) (m : Message) (p : Phase κ)
    (a : Option (Except Error Body)), s.tasks[i]? = some ⟨m, p⟩ → p.answer? = some a →
    ∃ t, TaskRun service s t ∧ t.lost = false ∧ t.tasks[i]? = some ⟨m, .finished a⟩
  complete : s.lost = false → ∀ (i : Nat) (m : Message) (a : Option (Except Error Body))
    (frame : List UInt8), s.tasks[i]? = some ⟨m, .finished a⟩ →
    frame? (replyTo m a) = some frame → ∃ e ∈ log, e.index = i

theorem getElem?_of_dispatched {ms : List Message} {i : Nat} {task : Task κ}
    (h : s.tasks.map Task.message <+: ms) (here : s.tasks[i]? = some task) :
    ms[i]? = some task.message := by
  have hm : (s.tasks.map Task.message)[i]? = some task.message := by
    rw [List.getElem?_map, here, Option.map_some]
  obtain ⟨hlt, hget⟩ := List.getElem?_eq_some_iff.mp hm
  rw [List.prefix_iff_getElem?.mp h i hlt, hget]

theorem safe_of_invariants {log : List Entry} (reads : s.Reads) (writes : s.Writes log)
    (asked : Asked service start s) : Safe service start s (messages s.received) log where
  delivered := delivers_messages s.received
  longest _ := prefix_messages_of_delivers
  dispatched := reads.prefix_messages
  exhausted hc := (reads.messages_of_closed hc).symm
  written := writes.written
  whole := writes.drained
  distinct := writes.distinct
  replies e he := by
    obtain ⟨p, hp, ha⟩ := writes.placed e he
    have said := asked.answered e.index e.message p e.answer hp (p.answer?_of_settled? ha)
    exact ⟨getElem?_of_dispatched reads.prefix_messages hp, _, said.answers, writes.framed e he⟩
  unharmed _ inbox run := taskRun_with_inbox run inbox
  settles hl i m p a hi ha := by
    obtain ⟨t, run, lost, -, done⟩ := exists_taskRun_finished writes hl hi ha
    exact ⟨t, run, lost, done⟩
  complete := writes.complete

/-- At every moment of every run, the bytes written are whole replies, each to another message that
was read before the first error, and nothing that was started is given up. -/
theorem safe_of_run {store : σ} {s : Connection σ κ} (run : Run service { store } s) :
    ∃ ms log, Safe service { store } s ms log := by
  have reads := (Connection.Reads.idle store).run run
  obtain ⟨log, -, writes⟩ := (Connection.Writes.idle store).run run
  have asked := Asked.run run (.of_tasks_eq_nil rfl)
  exact ⟨_, log, safe_of_invariants reads writes asked⟩

/-- A name system that knows nothing. -/
def refusing : Namesystem Unit := fun _ => return .error ⟨.noent, "gone", none⟩

/-- A request, a reply and a length that is too short. -/
def mixedStream : List UInt8 := [
  9, 0, 0, 0, 32, 7, 0, 0, 0,
  9, 0, 0, 0, 3, 8, 0, 0, 0,
  3, 0, 0, 0, 32]

theorem safe_of_run_refusing : ∃ s : Connection Unit Request,
    Run (.ofNamesystem refusing) { store := () } s ∧ s.inbox.closed = true ∧
    s.sent = [
      19, 0, 0, 0, 1, 7, 0, 0, 0, 2, 0, 0, 0, 4, 0, 103, 111, 110, 101,
      28, 0, 0, 0, 1, 8, 0, 0, 0, 71, 0, 0, 0, 13, 0, 110, 111, 116, 32, 97, 32, 114, 101, 113,
      117, 101, 115, 116] ∧
    ∃ ms log, Safe (.ofNamesystem refusing) { store := () } s ms log := by
  obtain ⟨tasks, -, -, run⟩ := run_serve refusing mixedStream { store := () } rfl rfl rfl
  exact ⟨_, run, by cbv, by cbv, safe_of_run run⟩

/-- Once all tasks have ended and the peer is still there, exactly the replies that fit the wire
have been sent. -/
theorem replied_iff_sendable {store : σ} {s : Connection σ κ} (run : Run service { store } s)
    (ended : ∀ task ∈ s.tasks, task.Finished) (reading : s.lost = false) :
    ∃ log : List Entry, s.sent = (log.map Entry.frame).flatten ∧ (log.map Entry.index).Nodup ∧
      (∀ e ∈ log, e.index < s.tasks.length) ∧
      ∀ (i : Nat) (task : Task κ), s.tasks[i]? = some task → ∃ body,
        Answers service { store } s i task.message.body body ∧
        (∀ e ∈ log, e.index = i → frame? ⟨task.message.callId, body⟩ = some e.frame) ∧
        ((∃ e ∈ log, e.index = i) ↔ Sendable ⟨task.message.callId, body⟩) := by
  obtain ⟨log, -, writes⟩ := (Connection.Writes.idle store).run run
  have asked := Asked.run run (.of_tasks_eq_nil rfl)
  have free : s.holder = none := by
    cases hh : s.holder with
    | none => rfl
    | some j =>
      obtain ⟨m, a, hj⟩ := writes.held j hh
      obtain ⟨a', ha'⟩ := ended _ (List.mem_of_getElem? hj)
      cases ha'
  refine ⟨log, ?_, writes.distinct, fun e he => ?_, fun i task hi => ?_⟩
  · rw [← writes.written, writes.drained reading free, List.append_nil]
  · obtain ⟨p, hp, -⟩ := writes.placed e he
    exact (List.getElem?_eq_some_iff.mp hp).1
  -- The reply of the task is in the log, or it has none that could be there.
  obtain ⟨m, p⟩ := task
  obtain ⟨a, rfl⟩ : ∃ a, p = .finished a := ended _ (List.mem_of_getElem? hi)
  have hframe : ∀ e ∈ log, e.index = i → frame? (replyTo m a) = some e.frame := by
    rintro e he rfl
    obtain ⟨q, hq, ha⟩ := writes.placed e he
    cases hq.symm.trans hi
    cases ha
    exact writes.framed e he
  refine ⟨_, (asked.answered i m _ a hi rfl).answers, hframe, ?_, fun hs => ?_⟩
  · rintro ⟨e, he, hei⟩
    exact (frame?_eq_some.mp (hframe e he hei)).1
  · exact writes.complete reading i m a _ hi (frame?_eq_some.mpr ⟨hs, rfl⟩)

theorem replied_iff_sendable_refusing : ∃ s : Connection Unit Request,
    Run (.ofNamesystem refusing) { store := () } s ∧ (∀ task ∈ s.tasks, task.Finished) ∧
    s.lost = false ∧ s.tasks.length = 2 ∧
    ∃ log : List Entry, s.sent = (log.map Entry.frame).flatten ∧ (log.map Entry.index).Nodup ∧
      (∀ e ∈ log, e.index < s.tasks.length) ∧
      ∀ (i : Nat) (task : Task Request), s.tasks[i]? = some task → ∃ body,
        Answers (.ofNamesystem refusing) { store := () } s i task.message.body body ∧
        (∀ e ∈ log, e.index = i → frame? ⟨task.message.callId, body⟩ = some e.frame) ∧
        ((∃ e ∈ log, e.index = i) ↔ Sendable ⟨task.message.callId, body⟩) := by
  obtain ⟨tasks, hm, ended, run⟩ := run_serve refusing mixedStream { store := () } rfl rfl rfl
  have hlength : tasks.length = 2 := by
    rw [← List.length_map Task.message, hm]
    cbv
  exact ⟨_, run, ended, rfl, hlength, replied_iff_sendable run ended rfl⟩

/-- The message of an error is among what is written for it. -/
theorem text_mem_pieces_error (callId : UInt32) (e : Error) :
    .text e.message ∈ Wire.pieces (α := Message) ⟨callId, replyBody (.error e)⟩ := by
  simp [replyBody, Wire.pieces, Body.fields, Reply.fields]

theorem frame?_error_eq_none (callId : UInt32) {e : Error}
    (h : Wire.textLimit < e.message.utf8ByteSize) :
    frame? ⟨callId, replyBody (.error e)⟩ = none := by
  refine Option.eq_none_iff_forall_ne_some.mpr fun frame hf => ?_
  have hw : e.message.utf8ByteSize ≤ Wire.textLimit :=
    (frame?_eq_some.mp hf).1.1 _ (text_mem_pieces_error callId e)
  omega

def overlong : Error := ⟨.io, String.ofList (List.replicate 65536 'a'), none⟩

/-- A name system whose errors are longer than a text on the wire can be. -/
def verbose : Namesystem Unit := fun _ => return .error overlong

def statsRequest : List UInt8 := [9, 0, 0, 0, 32, 7, 0, 0, 0]

/-- The peer waits for a reply that nobody sends. -/
theorem unreplied_verbose : ∃ s : Connection Unit Request,
    Run (.ofNamesystem verbose) { store := () } s ∧ s.received = statsRequest ∧
    s.tasks.map Task.message = [⟨7, .request .getFsStats⟩] ∧
    (∀ task ∈ s.tasks, task.Finished) ∧ s.lost = false ∧ s.sent = [] := by
  obtain ⟨tasks, hm, ended, run⟩ := run_serve verbose statsRequest { store := () } rfl rfl rfl
  have hfeed : (({} : Inbox).feed statsRequest).1 = [⟨7, .request .getFsStats⟩] := by cbv
  have hsize : Wire.textLimit < overlong.message.utf8ByteSize := by
    rw [overlong, Utf8.utf8ByteSize_replicate 65536 (by decide)]
    decide
  have hserve : ((serve verbose {} statsRequest).run ()).1.1 =
      ((answerAll verbose (({} : Inbox).feed statsRequest).1).run ()).1 := rfl
  have hanswer : ((answerAll verbose [⟨7, .request .getFsStats⟩]).run ()).1 =
      (frame? ⟨7, replyBody (.error overlong)⟩).toList ++ [] := rfl
  refine ⟨_, run, rfl, hm.trans hfeed, ended, rfl, ?_⟩
  show [] ++ ((serve verbose {} statsRequest).run ()).1.1.flatten = []
  rw [hserve, hfeed, hanswer, frame?_error_eq_none 7 hsize]
  rfl

end Server

end MetaFs
