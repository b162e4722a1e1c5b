import Mathlib
import MetaFs.Proofs.Answers
/-! The order in which a name system is asked. Its calls are each done in one step, so that every
run of a connection asks it one request after the other: each task gets the answer that belongs to
its place in this order. -/

namespace MetaFs

namespace Namesystem

variable {σ : Type}

/-- The state of a name system after these requests in turn. -/
def after (ns : Namesystem σ) (store : σ) (requests : List Request) : σ :=
  requests.foldl (fun store r => ((ns r).run store).2) store

theorem after_append (ns : Namesystem σ) (store : σ) (requests more : List Request) :
    ns.after store (requests ++ more) = ns.after (ns.after store requests) more :=
  List.foldl_append

end Namesystem

namespace Server

variable {σ : Type} {ns : Namesystem σ} {store : σ} {s t : Connection σ Request} {i : Nat}

theorem reaches_ofNamesystem {r k : Request} (h : (Service.ofNamesystem ns).Reaches r k) :
    k = r := by
  cases h with
  | call => rfl
  | resume _ resumes =>
    obtain ⟨answer, -, houtcome⟩ := resumes
    cases houtcome

/-- The name system was asked this request by the task with this index. -/
structure Query where
  index : Nat
  request : Request

/-- The name system has been asked these queries in turn since it was in the given state. -/
structure Connection.Queried (s : Connection σ Request) (ns : Namesystem σ) (store : σ)
    (order : List Query) : Prop where
  distinct : (order.map Query.index).Nodup
  store_eq : s.store = ns.after store (order.map Query.request)
  /-- A task that asked has an answer, and it keeps it. -/
  placed : ∀ q ∈ order, ∃ (m : Message) (p : Phase Request) (a : Except Error Body),
    s.tasks[q.index]? = some ⟨m, p⟩ ∧ m.body = .request q.request ∧ p.answer? = some (some a)
  answered : ∀ (i : Nat) (m : Message) (p : Phase Request) (a : Except Error Body),
    s.tasks[i]? = some ⟨m, p⟩ → p.answer? = some (some a) →
    ∃ (before later : List Query) (r : Request), order = before ++ ⟨i, r⟩ :: later ∧
      m.body = .request r ∧ a = ((ns r).run (ns.after store (before.map Query.request))).1

namespace Connection.Queried

variable {order : List Query} {m : Message}

theorem idle (store : σ) : ({ store } : Connection σ Request).Queried ns store [] where
  distinct := List.nodup_nil
  store_eq := rfl
  placed _ h := nomatch h
  answered _ _ _ _ h := nomatch h

/-- What neither starts a task nor moves one on is of no effect. -/
theorem of_eq (h : s.Queried ns store order) (hs : t.store = s.store) (ht : t.tasks = s.tasks) :
    t.Queried ns store order where
  distinct := h.distinct
  store_eq := hs.trans h.store_eq
  placed := by rw [ht]; exact h.placed
  answered := by rw [ht]; exact h.answered

theorem start (h : s.Queried ns store order) (hs : t.store = s.store)
    (ht : t.tasks = s.tasks ++ [⟨m, .ready⟩]) : t.Queried ns store order := by
  refine ⟨h.distinct, hs.trans h.store_eq, fun q hq => ?_, fun j m' p a hj hp => ?_⟩
  · obtain ⟨m', p, a, hj, hbody, ha⟩ := h.placed q hq
    refine ⟨m', p, a, ?_, hbody, ha⟩
    have hlt := (List.getElem?_eq_some_iff.mp hj).1
    rw [ht, List.getElem?_append_left hlt, hj]
  · rcases getElem?_append_cases (ht ▸ hj) with hj | hj
    · exact h.answered j m' p a hj hp
    · cases hj
      cases hp

/-- A task that goes on without asking. -/
theorem set (h : s.Queried ns store order) {p q : Phase Request}
    (here : s.tasks[i]? = some ⟨m, p⟩) (hs : t.store = s.store)
    (ht : t.tasks = s.tasks.set i ⟨m, q⟩)
    (kept : ∀ a, p.answer? = some (some a) ↔ q.answer? = some (some a)) :
    t.Queried ns store order := by
  refine ⟨h.distinct, hs.trans h.store_eq, fun e he => ?_, fun j m' p' a hj hp => ?_⟩
  · obtain ⟨m', p', a, hj, hbody, ha⟩ := h.placed e he
    by_cases hei : e.index = i
    · rw [hei, here] at hj
      cases hj
      exact ⟨m, q, a, by rw [ht, hei]; exact getElem?_set_here here _, hbody, (kept a).mp ha⟩
    · exact ⟨m', p', a, by rw [ht, List.getElem?_set_ne (Ne.symm hei), hj], hbody, ha⟩
  · rcases getElem?_set_cases (ht ▸ hj) with ⟨rfl, hu⟩ | ⟨-, hj⟩
    · cases hu
      exact h.answered j m p a here ((kept a).mpr hp)
    · exact h.answered j m' p' a hj hp

/-- A call that returns is the last query so far. -/
theorem ask (h : s.Queried ns store order) {r : Request} (hbody : m.body = .request r)
    (here : s.tasks[i]? = some ⟨m, .calling r⟩) :
    ({ s with
        tasks := s.tasks.set i ⟨m, .answered (some ((ns r).run s.store).1)⟩
        store := ((ns r).run s.store).2 } : Connection σ Request).Queried ns store
      (order ++ [⟨i, r⟩]) := by
  -- A task that asked before has its answer and is not calling any more.
  have hnew : ∀ q ∈ order, q.index ≠ i := by
    rintro q hq rfl
    obtain ⟨m', p, a, hj, -, ha⟩ := h.placed q hq
    cases here.symm.trans hj
    cases ha
  refine ⟨?_, ?_, fun q hq => ?_, fun j m' p a hj hp => ?_⟩
  · rw [List.map_append, List.map_singleton]
    refine h.distinct.append (List.nodup_singleton i) ?_
    rw [List.disjoint_singleton]
    intro hi
    obtain ⟨q, hq, hqi⟩ := List.mem_map.mp hi
    exact hnew q hq hqi
  · show ((ns r).run s.store).2 = _
    rw [List.map_append, Namesystem.after_append, ← h.store_eq]
    rfl
  · rcases List.mem_append.mp hq with hq | hq
    · obtain ⟨m', p, a, hj, hb, ha⟩ := h.placed q hq
      exact ⟨m', p, a, by rw [List.getElem?_set_ne (hnew q hq).symm, hj], hb, ha⟩
    · cases List.mem_singleton.mp hq
      exact ⟨m, _, _, getElem?_set_here here _, hbody, rfl⟩
  · rcases getElem?_set_cases hj with ⟨rfl, hu⟩ | ⟨-, hj⟩
    · cases hu
      cases hp
      exact ⟨order, [], r, rfl, hbody, by rw [← h.store_eq]⟩
    · obtain ⟨before, later, r', rfl, hb, ha⟩ := h.answered j m' p a hj hp
      exact ⟨before, later ++ [⟨i, r⟩], r', by simp, hb, ha⟩

theorem task (h : s.Queried ns store order) {start : Connection σ Request}
    (asked : Asked (.ofNamesystem ns) start s) (step : TaskStep (.ofNamesystem ns) i s t) :
    ∃ order', order <+: order' ∧ t.Queried ns store order' := by
  have kept (ht : t.Queried ns store order) : ∃ order', order <+: order' ∧
      t.Queried ns store order' := ⟨order, List.prefix_rfl, ht⟩
  cases step with
  | @answer m k a next here resumes =>
    obtain ⟨r, hbody, hreaches⟩ := asked.calling i m k here
    obtain rfl : k = r := reaches_ofNamesystem hreaches
    obtain ⟨a', hrun, houtcome⟩ := resumes
    obtain rfl : a = a' := Sum.inr.inj houtcome
    have hnext := h.ask hbody here
    rw [hrun] at hnext
    exact ⟨_, List.prefix_append _ _, hnext⟩
  | resume here resumes =>
    obtain ⟨answer, -, houtcome⟩ := resumes
    cases houtcome
  | flush => exact kept (h.of_eq rfl rfl)
  | call here | reject here => exact kept (h.set here rfl rfl (by simp [Phase.answer?]))
  | unwritable here | oversize here | lock here | release here | fail here | giveUp here =>
    exact kept (h.set here rfl rfl fun _ => Iff.rfl)

theorem step (h : s.Queried ns store order) {start : Connection σ Request}
    (asked : Asked (.ofNamesystem ns) start s) (step : Step (.ofNamesystem ns) s t) :
    ∃ order', order <+: order' ∧ t.Queried ns store order' := by
  cases step with
  | task i step => exact h.task asked step
  | peer step =>
    refine ⟨order, List.prefix_rfl, ?_⟩
    cases step <;> exact h.of_eq rfl rfl
  | reader step =>
    refine ⟨order, List.prefix_rfl, ?_⟩
    cases step with
    | start => exact h.start rfl rfl
    | refuse | stop => exact h.of_eq rfl rfl

/-- A run only adds to what the name system has been asked. -/
theorem run {start : Connection σ Request} (h : s.Queried ns store order)
    (none : start.tasks = []) (earlier : Run (.ofNamesystem ns) start s)
    (run : Run (.ofNamesystem ns) s t) :
    ∃ order', order <+: order' ∧ t.Queried ns store order' := by
  induction run with
  | refl => exact ⟨order, List.prefix_rfl, h⟩
  | tail run step ih =>
    obtain ⟨order', hpre, ih⟩ := ih
    have asked := Asked.run (earlier.trans run) (.of_tasks_eq_nil none)
    obtain ⟨order'', hpre', ih'⟩ := ih.step asked step
    exact ⟨order'', hpre.trans hpre', ih'⟩

end Connection.Queried

end Server

end MetaFs
