import Mathlib
import MetaFs.Proofs.Delivery
/-! Serving bytes in one go is one of the runs of a connection, so that what holds of every run
holds of it. -/

namespace MetaFs

namespace Server

variable {σ κ : Type} {service : Service σ κ} {s : Connection σ κ} {i : Nat} {m : Message}

theorem set_last (tasks : List (Task κ)) (m : Message) (p q : Phase κ) :
    (tasks ++ [(⟨m, p⟩ : Task κ)]).set tasks.length ⟨m, q⟩ = tasks ++ [⟨m, q⟩] := by
  rw [List.set_append_right _ _ (Nat.le_refl _), Nat.sub_self, List.set_cons_zero]

theorem run_finish_last (tasks : List (Task κ)) (a : Option (Except Error Body))
    (free : s.holder = none) (clean : s.buffer = []) :
    Run service { s with tasks := tasks ++ [⟨m, .answered a⟩] } { s with
      tasks := tasks ++ [⟨m, .finished a⟩]
      sent := s.sent ++ output m a } := by
  rw [← set_last tasks m (.answered a) (.finished a)]
  exact run_of_taskRun (taskRun_finish (s := { s with tasks := tasks ++ [⟨m, .answered a⟩] })
    List.getElem?_concat_length free clean)

/-- A task that is alone with the name system does what `answer` does. -/
theorem run_answer (ns : Namesystem σ) (s : Connection σ Request) (tasks : List (Task Request))
    (m : Message) (free : s.holder = none) (clean : s.buffer = []) :
    ∃ a, Run (.ofNamesystem ns) { s with tasks := tasks ++ [⟨m, .ready⟩] } { s with
      store := ((answer ns m).run s.store).2
      tasks := tasks ++ [⟨m, .finished a⟩]
      sent := s.sent ++ ((answer ns m).run s.store).1.toList.flatten } := by
  obtain ⟨callId, body⟩ := m
  cases body with
  | reply r =>
    have rejected : Step (.ofNamesystem ns)
        { s with tasks := tasks ++ [⟨⟨callId, .reply r⟩, .ready⟩] }
        { s with tasks := tasks ++ [⟨⟨callId, .reply r⟩, .answered none⟩] } := by
      rw [← set_last tasks _ .ready (.answered none)]
      exact .task _ (.reject List.getElem?_concat_length rfl)
    exact ⟨none, .head rejected (run_finish_last tasks none free clean)⟩
  | request r =>
    let said := ((ns r).run s.store).1
    let store := ((ns r).run s.store).2
    have resumes : (Service.ofNamesystem ns).Resumes r s.store (.inr said) store := ⟨said, rfl, rfl⟩
    have called : Step (.ofNamesystem ns)
        { s with tasks := tasks ++ [⟨⟨callId, .request r⟩, .ready⟩] }
        { s with tasks := tasks ++ [⟨⟨callId, .request r⟩, .calling r⟩] } := by
      rw [← set_last tasks _ .ready (.calling r)]
      exact .task _ (.call List.getElem?_concat_length rfl)
    have answered : Step (.ofNamesystem ns)
        { s with tasks := tasks ++ [⟨⟨callId, .request r⟩, .calling r⟩] }
        { s with tasks := tasks ++ [⟨⟨callId, .request r⟩, .answered (some said)⟩], store } := by
      rw [← set_last tasks _ (.calling r) (.answered (some said))]
      exact .task _ (.answer List.getElem?_concat_length resumes)
    have ha : (answer ns ⟨callId, .request r⟩).run s.store =
        (frame? (replyTo ⟨callId, .request r⟩ (some said)), store) := rfl
    rw [ha]
    exact ⟨some said, .head called (.head answered
      (run_finish_last (s := { s with store }) tasks (some said) free clean))⟩

theorem run_readAll (ns : Namesystem σ) (unread : List UInt8) (s : Connection σ Request)
    (reads : s.inbox = ⟨unread, false⟩) (free : s.holder = none) (clean : s.buffer = []) :
    ∃ tasks : List (Task Request), tasks.map Task.message = (readAll unread).1 ∧
      (∀ task ∈ tasks, task.Finished) ∧
      Run (.ofNamesystem ns) s { s with
        store := ((answerAll ns (readAll unread).1).run s.store).2
        inbox := (readAll unread).2
        tasks := s.tasks ++ tasks
        sent := s.sent ++ ((answerAll ns (readAll unread).1).run s.store).1.flatten } := by
  have hclosed : s.inbox.closed = false := by rw [reads]
  have hnone : (answerAll ns []).run s.store = ([], s.store) := rfl
  -- Each message in front is answered before the reader looks at the next one.
  cases h : next unread with
  | message m rest =>
    have hlt := length_lt_of_next h
    have started : Step (.ofNamesystem ns) s
        { s with inbox := ⟨rest, false⟩, tasks := s.tasks ++ [⟨m, .ready⟩] } :=
      .reader (.start hclosed (by rw [reads]; exact h))
    obtain ⟨a, answered⟩ :=
      run_answer ns { s with inbox := ⟨rest, false⟩ } s.tasks m free clean
    obtain ⟨tasks, hm, hf, others⟩ := run_readAll ns rest { s with
      store := ((answer ns m).run s.store).2
      inbox := ⟨rest, false⟩
      tasks := s.tasks ++ [⟨m, .finished a⟩]
      sent := s.sent ++ ((answer ns m).run s.store).1.toList.flatten } rfl free clean
    have hr : (answerAll ns (m :: (readAll rest).1)).run s.store =
        (((answer ns m).run s.store).1.toList ++
          ((answerAll ns (readAll rest).1).run ((answer ns m).run s.store).2).1,
        ((answerAll ns (readAll rest).1).run ((answer ns m).run s.store).2).2) := rfl
    rw [readAll_of_message h, hr]
    refine ⟨⟨m, .finished a⟩ :: tasks, by rw [List.map_cons, hm], ?_, ?_⟩
    · rintro task htask
      rcases List.mem_cons.mp htask with rfl | htask
      · exact ⟨a, rfl⟩
      · exact hf task htask
    · rw [List.append_cons, List.flatten_append, ← List.append_assoc]
      exact .head started (answered.trans others)
  | incomplete =>
    refine ⟨[], by rw [readAll_of_incomplete h, List.map_nil], by simp, ?_⟩
    rw [readAll_of_incomplete h, ← reads, hnone, List.append_nil, List.flatten_nil,
      List.append_nil]
  | refused =>
    have refused : Step (.ofNamesystem ns) s { s with inbox := ⟨unread, true⟩ } := by
      have := ReaderStep.refuse hclosed (by rw [reads]; exact h)
      rw [reads] at this
      exact .reader this
    refine ⟨[], by rw [readAll_of_refused h, List.map_nil], by simp, ?_⟩
    rw [readAll_of_refused h, hnone, List.append_nil, List.flatten_nil, List.append_nil]
    exact .single refused
termination_by unread.length

/-- `serve` sends what the connection sends when each task runs as soon as it is started. -/
theorem run_serve (ns : Namesystem σ) (bytes : List UInt8) (s : Connection σ Request)
    (open_ : s.ended = false) (free : s.holder = none) (clean : s.buffer = []) :
    ∃ tasks : List (Task Request), tasks.map Task.message = (s.inbox.feed bytes).1 ∧
      (∀ task ∈ tasks, task.Finished) ∧
      Run (.ofNamesystem ns) s { s with
        store := ((serve ns s.inbox bytes).run s.store).2
        received := s.received ++ bytes
        inbox := ((serve ns s.inbox bytes).run s.store).1.2
        tasks := s.tasks ++ tasks
        sent := s.sent ++ ((serve ns s.inbox bytes).run s.store).1.1.flatten } := by
  have hserve : (serve ns s.inbox bytes).run s.store =
      ((((answerAll ns (s.inbox.feed bytes).1).run s.store).1, (s.inbox.feed bytes).2),
        ((answerAll ns (s.inbox.feed bytes).1).run s.store).2) := rfl
  have sent : Step (.ofNamesystem ns) s
      { s with received := s.received ++ bytes, inbox := s.inbox.put bytes } :=
    .peer (.send bytes open_)
  rw [hserve]
  cases hc : s.inbox.closed with
  | true =>
    have hfeed : s.inbox.feed bytes = ([], s.inbox) := by simp [Inbox.feed, hc]
    have hput : s.inbox.put bytes = s.inbox := by simp [Inbox.put, hc]
    have hnone : (answerAll ns []).run s.store = ([], s.store) := rfl
    refine ⟨[], by rw [hfeed, List.map_nil], by simp, ?_⟩
    rw [hput] at sent
    rw [hfeed, hnone, List.append_nil, List.flatten_nil, List.append_nil]
    exact .single sent
  | false =>
    have hfeed : s.inbox.feed bytes = readAll (s.inbox.unread ++ bytes) := by
      simp [Inbox.feed, hc]
    have hput : s.inbox.put bytes = ⟨s.inbox.unread ++ bytes, false⟩ := by simp [Inbox.put, hc]
    obtain ⟨tasks, hm, hf, answered⟩ := run_readAll ns (s.inbox.unread ++ bytes)
      { s with received := s.received ++ bytes, inbox := s.inbox.put bytes } hput free clean
    rw [hfeed]
    exact ⟨tasks, hm, hf, .head sent answered⟩

end Server

end MetaFs
