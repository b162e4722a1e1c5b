import Mathlib
import MetaFs.Proofs.TreeCalls
/-! The removal of a directory with all that is in it, which may stop on the way and then leaves a
file tree as well. -/

namespace MetaFs

namespace Tree

variable {t u : Tree} {who : Caller} {base place path : TreePath} {edits : List Edit}

/-- Two programs on two trees have the same outcome and make the same edits. -/
def Together {ε α : Type} (Q : Edit → Prop) (R : Except ε α → List Edit → Prop)
    (x y : ExceptT ε (StateM Tree) α) (t u : Tree) : Prop :=
  ∃ outcome edits, x.run.run t = (outcome, Edit.applyAll edits t) ∧
    y.run.run u = (outcome, Edit.applyAll edits u) ∧
    Edit.AllFit t edits ∧ (∀ edit ∈ edits, Q edit) ∧ R outcome edits

namespace Together

variable {ε α β : Type} {Q P : Edit → Prop} {R : Except ε α → List Edit → Prop}
  {S : Except ε β → List Edit → Prop} {x y : ExceptT ε (StateM Tree) α}
  {f g : α → ExceptT ε (StateM Tree) β}

theorem pure {a : α} (h : R (.ok a) []) : Together Q R (Pure.pure a) (Pure.pure a) t u :=
  ⟨.ok a, [], rfl, rfl, .nil, by simp, h⟩

theorem throw {e : ε} (h : R (.error e) []) :
    Together Q R (MonadExcept.throw e) (MonadExcept.throw e) t u :=
  ⟨.error e, [], rfl, rfl, .nil, by simp, h⟩

theorem edit {edit : Edit} (fits : edit.Fits t) (h : Q edit) {S : Except ε Unit → List Edit → Prop}
    (hS : S (.ok ()) [edit]) :
    Together Q S (modify edit.apply : ExceptT ε (StateM Tree) Unit) (modify edit.apply) t u := by
  refine ⟨.ok (), [edit], rfl, rfl, .cons fits .nil, ?_, hS⟩
  intro other hother
  rwa [List.mem_singleton.mp hother]

/-- What comes second starts where the edits of what comes first have led. -/
theorem bind (h : Together Q R x y t u)
    (error : ∀ e edits, R (.error e) edits → S (.error e) edits)
    (ok : ∀ a edits, Edit.AllFit t edits → (∀ edit ∈ edits, Q edit) → R (.ok a) edits →
      Together Q (fun outcome more => S outcome (edits ++ more)) (f a) (g a)
        (Edit.applyAll edits t) (Edit.applyAll edits u)) :
    Together Q S (x >>= f) (y >>= g) t u := by
  obtain ⟨outcome, edits, hx, hy, hfit, hall, hpost⟩ := h
  rw [Together, ExceptT.run_bind, ExceptT.run_bind, StateT.run_bind, StateT.run_bind, hx, hy]
  cases outcome with
  | error e => exact ⟨.error e, edits, rfl, rfl, hfit, hall, error e edits hpost⟩
  | ok a =>
    obtain ⟨outcome, more, hf, hg, hfit', hall', hpost'⟩ := ok a edits hfit hall hpost
    refine ⟨outcome, edits ++ more, ?_, ?_, hfit.append hfit', ?_, hpost'⟩
    · rw [Edit.applyAll_append]
      exact hf
    · rw [Edit.applyAll_append]
      exact hg
    · intro edit hedit
      rcases List.mem_append.mp hedit with hmem | hmem
      · exact hall edit hmem
      · exact hall' edit hmem

theorem get {f g : Tree → ExceptT ε (StateM Tree) β} (h : Together Q S (f t) (g u) t u) :
    Together Q S (liftM (MonadState.get : StateM Tree Tree) >>= f)
      (liftM (MonadState.get : StateM Tree Tree) >>= g) t u := h

end Together

namespace Edit

/-- The edit takes away what is at such a place. -/
def Removes (P : TreePath → Prop) (edit : Edit) : Prop :=
  ∃ place, edit = .remove place ∧ P place

variable {P P' : TreePath → Prop} {edit : Edit}

theorem Removes.within (h : edit.Removes (place <+: ·)) (below : Below base place) :
    edit.Within base := by
  obtain ⟨path, rfl, hpath⟩ := h
  exact below.trans_isPrefix hpath

end Edit

end Tree

namespace FileSystem

open MetaFs.Tree

variable {t u : Tree} {who : Caller} {base place path : TreePath} {name : Name} {depth depth' : ℕ}
  {edits : List Edit} {remove remove' : TreePath → Change Unit}

/-- How a removal of what is at a place ends: if it succeeds, then with such a tree, and a
privileged caller succeeds. A removal that fails has come no further than to what is in there. -/
structure Ends (who : Caller) (place : TreePath) (P : Tree → Prop) (t : Tree)
    (outcome : Except Fault Unit) (edits : List Edit) : Prop where
  leaves : outcome = .ok () → P (Edit.applyAll edits t)
  succeeds : who.privileged = true → outcome = .ok ()
  stops : outcome ≠ .ok () → ∀ edit ∈ edits, edit.Removes (Below place)

end FileSystem

end MetaFs
