import Mathlib
import MetaFs.Proofs.Connections
/-! Where the reply to a message comes from: the name system was asked for this very task and gave
the answer that is sent, unless the answer is of the wrong type or the message is no request. -/

namespace MetaFs

namespace Server

variable {σ κ : Type} {service : Service σ κ} {start s t : Connection σ κ} {i : Nat}
  {m : Message}

/-- The calls that a request leads to. -/
inductive Service.Reaches (service : Service σ κ) (r : Request) : κ → Prop where
  | call : Reaches service r (service.call r)
  | resume {k k' : κ} {store store' : σ} (reaches : Reaches service r k)
      (resumes : service.Resumes k store (.inl k') store') : Reaches service r k'

/-- In a run from `start` to `s`, the name system was asked this request by the task with this
index and gave it this answer. -/
inductive Returned (service : Service σ κ) (start s : Connection σ κ) (i : Nat) (r : Request)
    (answer : Except Error Body) : Prop where
  | intro {m : Message} {k : κ} {before : Connection σ κ} {store : σ}
      (asks : m.body = .request r) (reaches : service.Reaches r k)
      (earlier : Run service start before) (here : before.tasks[i]? = some ⟨m, .calling k⟩)
      (resumes : service.Resumes k before.store (.inr answer) store)
      (later : Run service
        { before with tasks := before.tasks.set i ⟨m, .answered (some answer)⟩, store } s)

/-- What a task keeps of the name system's answer to its message. -/
inductive Said (service : Service σ κ) (start s : Connection σ κ) (i : Nat) :
    Body → Option (Except Error Body) → Prop where
  | request {r : Request} {answer : Except Error Body}
      (returned : Returned service start s i r answer) :
      Said service start s i (.request r) (some answer)
  | reply {r : Reply} : Said service start s i (.reply r) none

theorem Said.tail {body : Body} {a : Option (Except Error Body)}
    (h : Said service start s i body a) (step : Step service s t) :
    Said service start t i body a := by
  cases h with
  | request returned =>
    obtain ⟨asks, reaches, earlier, here, resumes, later⟩ := returned
    exact .request (.intro asks reaches earlier here resumes (later.tail step))
  | reply => exact .reply

/-- Each call under way is one of the task's own request, and each answer is of such a call. -/
structure Asked (service : Service σ κ) (start s : Connection σ κ) : Prop where
  calling : ∀ (i : Nat) (m : Message) (k : κ), s.tasks[i]? = some ⟨m, .calling k⟩ →
    ∃ r, m.body = .request r ∧ service.Reaches r k
  answered : ∀ (i : Nat) (m : Message) (p : Phase κ) (a : Option (Except Error Body)),
    s.tasks[i]? = some ⟨m, p⟩ → p.answer? = some a → Said service start s i m.body a

namespace Asked

theorem of_tasks_eq_nil (h : s.tasks = []) : Asked service start s where
  calling i m k hi := by simp [h] at hi
  answered i m p a hi := by simp [h] at hi

theorem tail (h : Asked service start s) (step : Step service s t) (ht : t.tasks = s.tasks) :
    Asked service start t where
  calling j m k hj := h.calling j m k (ht ▸ hj)
  answered j m p a hj hp := (h.answered j m p a (ht ▸ hj) hp).tail step

theorem append (h : Asked service start s) (step : Step service s t)
    (ht : t.tasks = s.tasks ++ [⟨m, .ready⟩]) : Asked service start t := by
  refine ⟨fun j m' k hj => ?_, fun j m' p a hj hp => ?_⟩
  · rcases getElem?_append_cases (ht ▸ hj) with hj | hj
    · exact h.calling j m' k hj
    · cases hj
  · rcases getElem?_append_cases (ht ▸ hj) with hj | hj
    · exact (h.answered j m' p a hj hp).tail step
    · cases hj
      cases hp

theorem set (h : Asked service start s) (step : Step service s t) {q : Phase κ}
    (ht : t.tasks = s.tasks.set i ⟨m, q⟩)
    (calls : ∀ k, q = .calling k → ∃ r, m.body = .request r ∧ service.Reaches r k)
    (given : ∀ a, q.answer? = some a → Said service start t i m.body a) :
    Asked service start t := by
  refine ⟨fun j m' k hj => ?_, fun j m' p a hj hp => ?_⟩
  · rcases getElem?_set_cases (ht ▸ hj) with ⟨-, hu⟩ | ⟨-, hj⟩
    · cases hu
      exact calls k rfl
    · exact h.calling j m' k hj
  · rcases getElem?_set_cases (ht ▸ hj) with ⟨rfl, hu⟩ | ⟨-, hj⟩
    · cases hu
      exact given a hp
    · exact (h.answered j m' p a hj hp).tail step

/-- A task keeps its answer on the way to the writer and behind it. -/
theorem keep (h : Asked service start s) (step : Step service s t) {p q : Phase κ}
    (here : s.tasks[i]? = some ⟨m, p⟩) (ht : t.tasks = s.tasks.set i ⟨m, q⟩)
    {answer : Option (Except Error Body)} (hp : p.answer? = some answer)
    (hq : q.answer? = some answer) : Asked service start t := by
  refine h.set step ht (fun k hk => ?_) (fun a ha => ?_)
  · rw [hk] at hq
    cases hq
  · obtain rfl : answer = a := Option.some.inj (hq.symm.trans ha)
    exact (h.answered i m p answer here hp).tail step

theorem task (h : Asked service start s) (run : Run service start s)
    (task : TaskStep service i s t) : Asked service start t := by
  have step : Step service s t := .task i task
  cases task with
  | call here asks =>
    refine h.set step rfl (fun k hk => ?_) (fun a ha => nomatch ha)
    cases hk
    exact ⟨_, asks, .call⟩
  | reject here foreign =>
    refine h.set step rfl (fun k hk => nomatch hk) (fun a ha => ?_)
    cases ha
    rw [foreign]
    exact .reply
  | resume here resumes =>
    refine h.set step rfl (fun k hk => ?_) (fun a ha => nomatch ha)
    cases hk
    obtain ⟨r, asks, reaches⟩ := h.calling i _ _ here
    exact ⟨r, asks, reaches.resume resumes⟩
  | answer here resumes =>
    refine h.set step rfl (fun k hk => nomatch hk) (fun a ha => ?_)
    cases ha
    obtain ⟨r, asks, reaches⟩ := h.calling i _ _ here
    rw [asks]
    exact .request (.intro asks reaches run here resumes .refl)
  | flush holds split => exact h.tail step rfl
  | unwritable here | oversize here | lock here | release here | fail here | giveUp here =>
    exact h.keep step here rfl rfl rfl

theorem run (run : Run service start s) (h : Asked service start start) :
    Asked service start s := by
  -- The induction keeps the run so far, which is where a new answer is found.
  induction run with
  | refl => exact h
  | @tail s t run step ih =>
    cases step with
    | peer peer => cases peer <;> exact ih.tail (.peer (by constructor <;> assumption)) rfl
    | reader reader =>
      have step : Step service s t := .reader reader
      cases reader with
      | start reads found => exact ih.append step rfl
      | refuse | stop => exact ih.tail step rfl
    | task i task => exact ih.task run task

end Asked

/-- The reply that a message should get. -/
inductive Answers (service : Service σ κ) (start s : Connection σ κ) (i : Nat) :
    Body → Body → Prop where
  | paired {r : Request} {answer : Body} (given : Returned service start s i r (.ok answer))
      (pairs : (Body.request r).kind.response? = some answer.kind) :
      Answers service start s i (.request r) answer
  | failed {r : Request} {e : Error} (given : Returned service start s i r (.error e)) :
      Answers service start s i (.request r)
        (.reply (.error (UInt32.ofNat e.errno.number) e.message))
  | unpaired {r : Request} {answer : Body} (given : Returned service start s i r (.ok answer))
      (differs : (Body.request r).kind.response? ≠ some answer.kind) :
      Answers service start s i (.request r) (.reply (.error (UInt32.ofNat Errno.proto.number)
        s!"namesystem answered {(Body.request r).kind.name} with {answer.kind.name}"))
  | foreign {r : Reply} :
      Answers service start s i (.reply r)
        (.reply (.error (UInt32.ofNat Errno.proto.number) "not a request"))

theorem Said.answers {body : Body} {a : Option (Except Error Body)}
    (h : Said service start s i body a) :
    Answers service start s i body (replyBody (result body a)) := by
  cases h with
  | reply => exact .foreign
  | @request r answer returned =>
    cases answer with
    | error e => exact .failed returned
    | ok answer =>
      by_cases hp : (Body.request r).kind.response? = some answer.kind
      · have hr : result (.request r) (some (.ok answer)) = .ok answer := by
          simp only [result, settle, checked, hp, if_true]
        rw [hr]
        exact .paired returned hp
      · have hr : result (.request r) (some (.ok answer)) = .error ⟨.proto,
            s!"namesystem answered {(Body.request r).kind.name} with {answer.kind.name}",
            none⟩ := by
          simp only [result, settle, checked, hp, if_false]
        rw [hr]
        exact .unpaired returned hp

end Server

end MetaFs
