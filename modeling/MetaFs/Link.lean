import MetaFs.Address
import MetaFs.Message
/-!
The way to the authority. Whatever stands behind it, scripted answers or a served tree, is a state
that each request reads and changes.
-/

namespace MetaFs

/-- What runs over a link in some state and may fail; the state stays as the failure left it. -/
abbrev Over (σ : Type) := ExceptT Error (StateM σ)

structure Link (σ : Type) where
  /-- Reaches the authority as a user. -/
  start : Address → String → Over σ Unit
  /-- Sends a request and waits for what comes back. -/
  call : Request → Over σ Body
  /-- Lets go of the authority. -/
  finish : StateM σ Unit

namespace Over

/-- Puts the context in front of the message of a failure. -/
def within {σ α : Type} (context : String) (x : Over σ α) : Over σ α :=
  ExceptT.adapt (Error.prepend context) x

variable {σ α β : Type} {x : Over σ α} {f : α → Over σ β} {a : α} {e : Error} {s t : σ}

theorem run_bind_of_ok (h : x.run.run s = (.ok a, t)) :
    (x >>= f).run.run s = (f a).run.run t := by
  rw [ExceptT.run_bind, StateT.run_bind, h]
  rfl

theorem run_bind_of_error (h : x.run.run s = (.error e, t)) :
    (x >>= f).run.run s = (.error e, t) := by
  rw [ExceptT.run_bind, StateT.run_bind, h]
  rfl

/-- What succeeds in two steps has succeeded in the first one. -/
theorem run_bind_eq_ok {b : β} (h : (x >>= f).run.run s = (.ok b, t)) :
    ∃ (a : α) (u : σ), x.run.run s = (.ok a, u) ∧ (f a).run.run u = (.ok b, t) := by
  obtain ⟨result, u, hx⟩ : ∃ result u, x.run.run s = (result, u) := ⟨_, _, rfl⟩
  cases result with
  | error e =>
    rw [run_bind_of_error hx] at h
    cases h
  | ok a =>
    rw [run_bind_of_ok hx] at h
    exact ⟨a, u, hx, h⟩

theorem run_tryCatch (x : Over σ α) (handle : Error → Over σ α) (s : σ) :
    (tryCatch x handle).run.run s =
      match x.run.run s with
      | (.ok a, t) => (.ok a, t)
      | (.error e, t) => (handle e).run.run t := by
  obtain ⟨outcome, t, hx⟩ : ∃ outcome t, x.run.run s = (outcome, t) := ⟨_, _, rfl⟩
  rw [hx]
  show (ExceptT.tryCatch x handle).run.run s = _
  rw [ExceptT.tryCatch, ExceptT.run_mk, StateT.run_bind]
  replace hx : StateT.run x s = (outcome, t) := hx
  rw [hx]
  cases outcome <;> rfl

theorem run_within (context : String) (x : Over σ α) (s : σ) :
    (x.within context).run.run s =
      ((x.run.run s).1.mapError (Error.prepend context), (x.run.run s).2) := rfl

end Over

end MetaFs
