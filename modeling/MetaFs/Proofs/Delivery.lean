import Mathlib
import MetaFs.Proofs.Connections
/-! How a reply gets out. A task that has its answer reaches its end by steps of tasks alone, and
what the reader has met, a refused frame among it, is of no effect on them. -/

namespace MetaFs

namespace Server

variable {σ κ : Type} {service : Service σ κ} {s t : Connection σ κ} {i : Nat} {m : Message}

/-- Whether a message fits the wire: all its texts can be written, and all of it fits a frame. -/
def Sendable (m : Message) : Prop :=
  (∀ p ∈ Wire.pieces m, p.Writable) ∧ ((Wire.pieces m).map Wire.Piece.size).sum ≤ Frame.limit

theorem frame?_eq_some {frame : List UInt8} :
    frame? m = some frame ↔ Sendable m ∧
      frame = Wire.littleEndian 4 ((Wire.bytesOf (Wire.pieces m)).length + 4) ++
        Wire.bytesOf (Wire.pieces m) := by
  rw [Sendable, ← Wire.length_bytesOf]
  cases he : Wire.encoded m with
  | error e =>
    have hw : ¬∀ p ∈ Wire.pieces m, p.Writable := fun hw => by
      rw [Wire.encoded_eq_ok.mpr ⟨hw, rfl⟩] at he
      cases he
    simp [frame?, he, Except.toOption, hw]
  | ok body =>
    obtain ⟨hw, rfl⟩ := Wire.encoded_eq_ok.mp he
    have hf : frame? m = Frame.encode? (Wire.bytesOf (Wire.pieces m)) := by
      simp [frame?, he, Except.toOption]
    rw [hf, Frame.encode?, Option.ite_none_right_eq_some, Option.some.injEq, and_iff_right hw,
      eq_comm]

/-- Any number of steps of tasks. -/
abbrev TaskRun (service : Service σ κ) : Connection σ κ → Connection σ κ → Prop :=
  Relation.ReflTransGen fun s t => ∃ i, TaskStep service i s t

theorem run_of_taskRun (h : TaskRun service s t) : Run service s t := by
  induction h with
  | refl => exact .refl
  | tail _ step ih =>
    obtain ⟨i, step⟩ := step
    exact ih.tail (.task i step)

theorem TaskStep.with_inbox (step : TaskStep service i s t) (inbox : Inbox) :
    TaskStep service i { s with inbox } { t with inbox } := by
  cases step with
  | call here asks => exact .call here asks
  | reject here foreign => exact .reject here foreign
  | resume here resumes => exact .resume here resumes
  | answer here resumes => exact .answer here resumes
  | unwritable here fails => exact .unwritable here fails
  | oversize here free written fails => exact .oversize here free written fails
  | lock here free framed => exact .lock here free framed
  | flush holds split => exact .flush holds split
  | release here done => exact .release here done
  | fail here lost => exact .fail here lost
  | giveUp here free lost => exact .giveUp here free lost

/-- The tasks go on in the same way whatever becomes of the reader. -/
theorem taskRun_with_inbox (run : TaskRun service s t) (inbox : Inbox) :
    TaskRun service { s with inbox } { t with inbox } := by
  induction run with
  | refl => exact .refl
  | tail _ step ih =>
    obtain ⟨i, step⟩ := step
    exact ih.tail ⟨i, step.with_inbox inbox⟩

/-- What the writer is given for a message: the frame of its reply, if there is one. -/
def output (m : Message) (answer : Option (Except Error Body)) : List UInt8 :=
  (frame? (replyTo m answer)).toList.flatten

/-- A task that has its answer gets through as soon as the writer is free. -/
theorem taskRun_finish {answer : Option (Except Error Body)}
    (here : s.tasks[i]? = some ⟨m, .answered answer⟩) (free : s.holder = none)
    (clean : s.buffer = []) :
    TaskRun service s { s with
      tasks := s.tasks.set i ⟨m, .finished answer⟩
      sent := s.sent ++ output m answer } := by
  obtain ⟨store, received, ended, inbox, tasks, holder, buffer, sent, lost⟩ := s
  dsimp only at here free clean ⊢
  subst free clean
  cases hf : frame? (replyTo m answer) with
  | some frame =>
    have ho : output m answer = frame := by simp [output, hf]
    have locked : TaskStep service i ⟨store, received, ended, inbox, tasks, none, [], sent, lost⟩
        ⟨store, received, ended, inbox, tasks.set i ⟨m, .sending answer⟩, some i, [] ++ frame,
          sent, lost⟩ :=
      .lock here rfl hf
    have flushed : TaskStep service i ⟨store, received, ended, inbox,
        tasks.set i ⟨m, .sending answer⟩, some i, [] ++ frame, sent, lost⟩
        ⟨store, received, ended, inbox, tasks.set i ⟨m, .sending answer⟩, some i, [],
          sent ++ frame, lost⟩ :=
      .flush rfl (List.append_nil frame).symm
    have released : TaskStep service i ⟨store, received, ended, inbox,
        tasks.set i ⟨m, .sending answer⟩, some i, [], sent ++ frame, lost⟩
        ⟨store, received, ended, inbox, (tasks.set i ⟨m, .sending answer⟩).set i
          ⟨m, .finished answer⟩, none, [], sent ++ frame, lost⟩ :=
      .release (getElem?_set_here here _) rfl
    rw [List.set_set] at released
    rw [ho]
    exact .tail (.tail (.single ⟨i, locked⟩) ⟨i, flushed⟩) ⟨i, released⟩
  | none =>
    have ho : output m answer = [] := by simp [output, hf]
    rw [ho, List.append_nil]
    cases he : Wire.encoded (replyTo m answer) with
    | error e => exact .single ⟨i, .unwritable here he⟩
    | ok body =>
      have hb : Frame.encode? body = none := by
        simpa [frame?, he, Except.toOption] using hf
      exact .single ⟨i, .oversize here rfl he hb⟩

/-- The writer comes free when the task that has it goes on. -/
theorem exists_taskRun_free {log : List Entry} (h : s.Writes log) (reading : s.lost = false) :
    ∃ t, TaskRun service s t ∧ t.holder = none ∧ t.lost = false ∧ t.inbox = s.inbox ∧
      ∀ (j : Nat) (m : Message) (p : Phase κ) (a : Option (Except Error Body)),
        s.tasks[j]? = some ⟨m, p⟩ → p.answer? = some a →
        ∃ q : Phase κ, t.tasks[j]? = some ⟨m, q⟩ ∧ q.answer? = some a := by
  cases hh : s.holder with
  | none => exact ⟨s, .refl, hh, reading, rfl, fun j m p a hj hp => ⟨p, hj, hp⟩⟩
  | some i =>
    obtain ⟨m', a', here⟩ := h.held i hh
    have flushed : TaskStep service i s { s with sent := s.sent ++ s.buffer, buffer := [] } :=
      .flush hh (List.append_nil _).symm
    have released : TaskStep service i { s with sent := s.sent ++ s.buffer, buffer := [] }
        { s with
          sent := s.sent ++ s.buffer
          buffer := []
          tasks := s.tasks.set i ⟨m', .finished a'⟩
          holder := none } :=
      .release here rfl
    refine ⟨_, .tail (.single ⟨i, flushed⟩) ⟨i, released⟩, rfl, reading, rfl, ?_⟩
    intro j m p a hj hp
    by_cases hji : j = i
    · subst hji
      cases here.symm.trans hj
      exact ⟨.finished a', getElem?_set_here here _, hp⟩
    · exact ⟨p, by rw [List.getElem?_set_ne (Ne.symm hji), hj], hp⟩

/-- From any state of a connection that is not lost, a task with an answer reaches its end. -/
theorem exists_taskRun_finished {log : List Entry} {p : Phase κ}
    {answer : Option (Except Error Body)} (h : s.Writes log) (reading : s.lost = false)
    (here : s.tasks[i]? = some ⟨m, p⟩) (answered : p.answer? = some answer) :
    ∃ t, TaskRun service s t ∧ t.lost = false ∧ t.inbox = s.inbox ∧
      t.tasks[i]? = some ⟨m, .finished answer⟩ := by
  obtain ⟨t, run, free, lost, inbox, kept⟩ := exists_taskRun_free h reading
  obtain ⟨q, hq, ha⟩ := kept i m p answer here answered
  obtain ⟨log', -, ht⟩ := h.run (run_of_taskRun run)
  cases q with
  | ready | calling call => cases ha
  | finished a =>
    cases ha
    exact ⟨t, run, lost, inbox, hq⟩
  -- Only the holder of the writer sends, and nobody has it.
  | sending a =>
    have hold := (ht.holds i m a hq).1
    rw [free] at hold
    cases hold
  | answered a =>
    cases ha
    exact ⟨_, run.trans (taskRun_finish hq free (ht.drained lost free)), lost, inbox,
      getElem?_set_here hq _⟩

end Server

end MetaFs
