import Mathlib
import MetaFs.Posix
/-! What a C program is told. A call returns the value that stands for a failure exactly if
something failed, and the last error is that of the last call that failed. -/

namespace MetaFs

namespace Posix

/-- What comes out of a call: a return code, a number, or a pointer to one of four things. -/
inductive Shape where
  | code
  | value
  | session
  | text
  | entries
  | info

namespace Shape

/-- What an operation of this shape gives when it succeeds. -/
abbrev Answer : Shape → Type
  | code => Unit
  | value => UInt64
  | session => Session
  | text => String
  | entries => Option (List FileInfo)
  | info => FileInfo

/-- What the call returns. -/
abbrev Returned : Shape → Type
  | code | value => Int
  | session => Option Session
  | text => Option String
  | entries => Option (Option (List FileInfo))
  | info => Option FileInfo

/-- What is returned for a failure. -/
def sentinel : (shape : Shape) → shape.Returned
  | code | value => (-1 : Int)
  | session | text | entries | info => none

def returned : (shape : Shape) → shape.Answer → shape.Returned
  | code, _ => (0 : Int)
  | value, n => (n.toNat : Int)
  | session, a | text, a | entries, a | info, a => some a

/-- The call that runs an operation of this shape. -/
def call {σ : Type} : (shape : Shape) → Over σ shape.Answer → Call σ shape.Returned
  | code, x => Posix.code x
  | value, x => Posix.value x
  | session, x | text, x | entries, x | info, x => pointer x

/-- The returned number, if it is one. -/
def number? : (shape : Shape) → shape.Returned → Option Int
  | code, n | value, n => some n
  | session, _ | text, _ | entries, _ | info, _ => none

/-- An answer that cannot be returned, and the error that takes its place. -/
inductive Exceeds : (shape : Shape) → shape.Answer → Error → Prop where
  | value {n : UInt64} (h : Numeral.signedBound ≤ n.toNat) :
      Exceeds value n ⟨.overflow, s!"value {n} does not fit in 64 bits", none⟩

end Shape

/-- A function of the boundary with its arguments. A listing has a bound on its pages. -/
inductive Operation where
  | connect (settings : Settings) (processUser : String)
  | disconnect
  | exists? (path : String)
  | delete (path : String) (recursive : Int)
  | rename (source destination : String)
  | workingDirectory (size : ℕ)
  | setWorkingDirectory (path : String)
  | createDirectory (path : String)
  | setReplication (path : String) (replication : Int16)
  | listDirectory (pages : ℕ) (path : String)
  | pathInfo (path : String)
  | defaultBlockSize
  | defaultBlockSizeAt (path : String)
  | capacity
  | used
  | chown (path : String) (owner group : Option String)
  | chmod (path : String) (mode : Int16)
  | utime (path : String) (mtime atime : Int64)

namespace Operation

variable {σ : Type}

abbrev shape : Operation → Shape
  | connect .. => .session
  | workingDirectory _ => .text
  | listDirectory .. => .entries
  | pathInfo _ => .info
  | defaultBlockSize | defaultBlockSizeAt _ | capacity | used => .value
  | disconnect | exists? _ | delete .. | rename .. | setWorkingDirectory _ | createDirectory _
  | setReplication .. | chown .. | chmod .. | utime .. => .code

/-- The call as a C program makes it. -/
def call (s : Session) (link : Link σ) : (op : Operation) → Call σ op.shape.Returned
  | connect settings processUser => Posix.connect settings processUser link
  | disconnect => Posix.disconnect link
  | exists? path => Posix.exists? s link path
  | delete path recursive => Posix.delete s link path recursive
  | rename source destination => Posix.rename s link source destination
  | workingDirectory size => Posix.workingDirectory s size
  | setWorkingDirectory path => do return (← Posix.setWorkingDirectory s path).1
  | createDirectory path => Posix.createDirectory s link path
  | setReplication path replication => Posix.setReplication s link path replication
  | listDirectory pages path => Posix.listDirectory s link pages path
  | pathInfo path => Posix.pathInfo s link path
  | defaultBlockSize => Posix.defaultBlockSize s
  | defaultBlockSizeAt path => Posix.defaultBlockSizeAt s link path
  | capacity => Posix.capacity link
  | used => Posix.used link
  | chown path owner group => Posix.chown s link path owner group
  | chmod path mode => Posix.chmod s link path mode
  | utime path mtime atime => Posix.utime s link path mtime atime

/-- A result that was known without the authority. -/
def settled {α : Type} : Except Error α → Over σ α
  | .ok a => return a
  | .error e => throw e

/-- The operation of the session that stands behind the call. -/
def plain (s : Session) (link : Link σ) : (op : Operation) → Over σ op.shape.Answer
  | connect settings processUser => settings.connect processUser link
  | disconnect => Session.disconnect link
  | exists? path => do let _ ← s.stat link path
  | delete path recursive => s.delete link path (recursive != 0)
  | rename source destination => s.rename link source destination
  | workingDirectory size =>
    settled ((s.workingDirectory.terminated size).map fun _ => s.workingDirectory.text)
  | setWorkingDirectory path => settled ((s.setWorkingDirectory path).map fun _ => ())
  | createDirectory path => s.mkdir link path
  | setReplication path replication => s.setReplication link path replication.toUInt16
  | listDirectory pages path => s.listDirectory link pages path
  | pathInfo path => s.stat link path
  | defaultBlockSize => return s.blockSize
  | defaultBlockSizeAt path => s.blockSizeAt link path
  | capacity => Session.capacity link
  | used => Session.used link
  | chown path owner group => s.chown link path owner group
  | chmod path mode => s.chmod link path mode.toUInt16.toUInt32
  | utime path mtime atime => s.setTimes link path (utime.given mtime) (utime.given atime)

end Operation

/-! One call. -/

section Calls

variable {σ α : Type} {last : Option LastError} {state next : σ}

/-- The error as it is kept. -/
def kept (e : Error) : LastError :=
  ⟨e.errno, e.message⟩

theorem run_pointer (x : Over σ α) (last : Option LastError) (state : σ) :
    ((pointer x).run last).run state =
      match x.run.run state with
      | (.ok a, next) => ((some a, last), next)
      | (.error e, next) => ((none, some (kept e)), next) := by
  obtain ⟨outcome, next, hx⟩ : ∃ outcome next, x.run.run state = (outcome, next) := ⟨_, _, rfl⟩
  -- The operation itself knows nothing of the last error.
  have hlift : StateT.run (StateT.run (liftM x.run : Call σ (Except Error α)) last) state =
      ((outcome, last), next) := by
    show (((x.run.run state).1, last), (x.run.run state).2) = _
    rw [hx]
  rw [hx, pointer, StateT.run_bind, StateT.run_bind, hlift]
  cases outcome <;> rfl

theorem run_pointer_of_ok {x : Over σ α} {a : α} (h : x.run.run state = (.ok a, next)) :
    ((pointer x).run last).run state = ((some a, last), next) := by
  rw [run_pointer, h]

theorem run_pointer_of_error {x : Over σ α} {e : Error}
    (h : x.run.run state = (.error e, next)) :
    ((pointer x).run last).run state = ((none, some (kept e)), next) := by
  rw [run_pointer, h]

/-- The number of an operation, if it fits in 63 bits. -/
def checked (x : Over σ UInt64) : Over σ UInt64 := do
  let n ← x
  if n.toNat < Numeral.signedBound then return n
  else throw ⟨.overflow, s!"value {n} does not fit in 64 bits", none⟩

theorem run_checked_of_lt {x : Over σ UInt64} {n : UInt64} (h : x.run.run state = (.ok n, next))
    (hlt : n.toNat < Numeral.signedBound) : (checked x).run.run state = (.ok n, next) := by
  refine (Over.run_bind_of_ok h).trans ?_
  rw [if_pos hlt]
  rfl

theorem run_checked_of_ge {x : Over σ UInt64} {n : UInt64} (h : x.run.run state = (.ok n, next))
    (hge : Numeral.signedBound ≤ n.toNat) : (checked x).run.run state =
      (.error ⟨.overflow, s!"value {n} does not fit in 64 bits", none⟩, next) := by
  refine (Over.run_bind_of_ok h).trans ?_
  rw [if_neg (Nat.not_lt.mpr hge)]
  rfl

theorem value_eq (x : Over σ UInt64) :
    value x = do
      match ← pointer (checked x) with
      | some n => return (n.toNat : Int)
      | none => return -1 := rfl

/-! The shapes: a failure is told by a value that no success returns. -/

namespace Shape

variable {shape : Shape} {x : Over σ shape.Answer} {a : shape.Answer} {e : Error}

theorem returned_ne_sentinel (a : shape.Answer) : shape.returned a ≠ shape.sentinel := by
  cases shape with
  | code => exact (by decide : (0 : Int) ≠ -1)
  | value =>
    intro h
    have hneg : (a.toNat : Int) = -1 := h
    omega
  | session | text | entries | info => exact Option.some_ne_none a

theorem number_nonneg {n : Int} (h : shape.number? (shape.returned a) = some n) : 0 ≤ n := by
  cases shape with
  | code =>
    cases h
    exact le_rfl
  | value =>
    cases h
    exact Int.natCast_nonneg _
  | session | text | entries | info => cases h

theorem run_call_of_error (h : x.run.run state = (.error e, next)) :
    ((shape.call x).run last).run state = ((shape.sentinel, some (kept e)), next) := by
  cases shape with
  | code =>
    rw [call, Posix.code, StateT.run_bind, StateT.run_bind, run_pointer_of_error h]
    rfl
  | value =>
    have hchecked : (checked x).run.run state = (.error e, next) := Over.run_bind_of_error h
    rw [call, value_eq, StateT.run_bind, StateT.run_bind, run_pointer_of_error hchecked]
    rfl
  | session | text | entries | info => exact run_pointer_of_error h

/-- A number that does not fit is a failure of the call, though not of the operation. -/
theorem run_call_of_exceeds (h : x.run.run state = (.ok a, next)) (exceeds : shape.Exceeds a e) :
    ((shape.call x).run last).run state = ((shape.sentinel, some (kept e)), next) := by
  cases exceeds with
  | value hge =>
    rw [call, value_eq, StateT.run_bind, StateT.run_bind,
      run_pointer_of_error (run_checked_of_ge h hge)]
    rfl

theorem run_call_of_fits (h : x.run.run state = (.ok a, next)) (fits : ∀ e, ¬shape.Exceeds a e) :
    ((shape.call x).run last).run state = ((shape.returned a, last), next) := by
  cases shape with
  | code =>
    rw [call, Posix.code, StateT.run_bind, StateT.run_bind, run_pointer_of_ok h]
    rfl
  | value =>
    have hlt : a.toNat < Numeral.signedBound := by
      by_contra hge
      exact fits _ (.value (Nat.not_lt.mp hge))
    rw [call, value_eq, StateT.run_bind, StateT.run_bind,
      run_pointer_of_ok (run_checked_of_lt h hlt)]
    rfl
  | session | text | entries | info => exact run_pointer_of_ok h

theorem Exceeds.unique {e' : Error} (h : shape.Exceeds a e) (h' : shape.Exceeds a e') : e = e' := by
  cases h
  cases h'
  rfl

end Shape

namespace Operation

variable (s : Session) (link : Link σ) (op : Operation)

/-- The session is asked, which a negative replication never reaches. -/
def Asked : Operation → Prop
  | setReplication _ replication => 0 ≤ replication.toInt
  | _ => True

theorem call_eq (h : op.Asked) : op.call s link = op.shape.call (op.plain s link) := by
  cases op with
  | workingDirectory size =>
    rw [call, Posix.workingDirectory, plain]
    cases s.workingDirectory.terminated size <;> rfl
  | setWorkingDirectory path =>
    rw [call, Posix.setWorkingDirectory, plain]
    cases s.setWorkingDirectory path <;> rfl
  | setReplication path replication =>
    rw [call, Posix.setReplication, if_neg (not_lt.mpr h)]
    rfl
  | _ => rfl

/-- Why the call fails, and with which error: it is not asked for, the operation fails, or its
answer cannot be returned. -/
inductive Fails (s : Session) (link : Link σ) (state : σ) : Operation → Error → Prop where
  | negative {path : String} {replication : Int16} (h : replication.toInt < 0) :
      Fails s link state (.setReplication path replication)
        ⟨.inval, s!"invalid replication factor {replication}", none⟩
  | failed {op : Operation} {e : Error} (asked : op.Asked)
      (h : ((op.plain s link).run.run state).1 = .error e) : Fails s link state op e
  | exceeds {op : Operation} {a : op.shape.Answer} {e : Error} (asked : op.Asked)
      (h : ((op.plain s link).run.run state).1 = .ok a) (exceeds : op.shape.Exceeds a e) :
      Fails s link state op e

/-- What the call returns and what it leaves as the last error. -/
inductive Reports (s : Session) (link : Link σ) (state : σ) (last : Option LastError)
    (op : Operation) : op.shape.Returned → Option LastError → Prop where
  | failure {e : Error} (fails : Fails s link state op e) :
      Reports s link state last op op.shape.sentinel (some (kept e))
  | success {a : op.shape.Answer} (h : ((op.plain s link).run.run state).1 = .ok a)
      (fits : ∀ e, ¬Fails s link state op e) :
      Reports s link state last op (op.shape.returned a) last

/-- The state behind the call: what the operation leaves, or what was there if it is not asked. -/
def Leaves (s : Session) (link : Link σ) (state : σ) (op : Operation) (next : σ) : Prop :=
  (op.Asked → next = ((op.plain s link).run.run state).2) ∧ (¬op.Asked → next = state)

variable {s link op}

theorem Fails.unique {e e' : Error} (h : Fails s link state op e) (h' : Fails s link state op e') :
    e = e' := by
  cases h with
  | negative hneg =>
    cases h' with
    | negative => rfl
    | failed asked => exact absurd asked (not_le.mpr hneg)
    | exceeds asked => exact absurd asked (not_le.mpr hneg)
  | failed asked h =>
    cases h' with
    | negative hneg => exact absurd asked (not_le.mpr hneg)
    | failed _ h' => exact Except.error.inj (h.symm.trans h')
    | exceeds _ h' => cases h.symm.trans h'
  | exceeds asked h exceeds =>
    cases h' with
    | negative hneg => exact absurd asked (not_le.mpr hneg)
    | failed _ h' => cases h.symm.trans h'
    | exceeds _ h' exceeds' =>
      obtain rfl := Except.ok.inj (h.symm.trans h')
      exact exceeds.unique exceeds'

/-- One call: either something failed, or the answer is returned and the last error stays. -/
theorem exists_run_call (s : Session) (link : Link σ) (op : Operation) (last : Option LastError)
    (state : σ) : ∃ returned last' next,
      ((op.call s link).run last).run state = ((returned, last'), next) ∧
      Reports s link state last op returned last' ∧ Leaves s link state op next := by
  by_cases hasked : op.Asked
  · obtain ⟨outcome, next, hrun⟩ :
        ∃ outcome next, (op.plain s link).run.run state = (outcome, next) := ⟨_, _, rfl⟩
    have hleaves : Leaves s link state op next :=
      ⟨fun _ => (congrArg Prod.snd hrun).symm, fun h => absurd hasked h⟩
    have houtcome := congrArg Prod.fst hrun
    rw [call_eq s link op hasked]
    cases outcome with
    | error e =>
      exact ⟨_, _, next, Shape.run_call_of_error hrun, .failure (.failed hasked houtcome), hleaves⟩
    | ok a =>
      by_cases hexceeds : ∃ e, op.shape.Exceeds a e
      · obtain ⟨e, he⟩ := hexceeds
        exact ⟨_, _, next, Shape.run_call_of_exceeds hrun he,
          .failure (.exceeds hasked houtcome he), hleaves⟩
      · refine ⟨_, _, next, Shape.run_call_of_fits hrun (not_exists.mp hexceeds),
          .success houtcome ?_, hleaves⟩
        intro e hfails
        cases hfails with
        | negative hneg => exact absurd hasked (not_le.mpr hneg)
        | failed _ h => cases houtcome.symm.trans h
        | exceeds _ h he =>
          obtain rfl := Except.ok.inj (houtcome.symm.trans h)
          exact hexceeds ⟨e, he⟩
  -- Only a negative replication is not asked for, and then the session is left alone.
  · cases op with
    | setReplication path replication =>
      have hneg : replication.toInt < 0 := not_le.mp hasked
      refine ⟨_, _, state, ?_, .failure (.negative hneg), fun h => absurd h hasked, fun _ => rfl⟩
      rw [call, Posix.setReplication, if_pos hneg]
      show ((Shape.code.call _).run last).run state = _
      exact Shape.run_call_of_error rfl
    | _ => exact absurd trivial hasked

theorem Reports.eq_sentinel_iff {returned : op.shape.Returned} {last last' : Option LastError}
    (h : Reports s link state last op returned last') :
    returned = op.shape.sentinel ↔ ∃ e, Fails s link state op e := by
  cases h with
  | failure fails => exact ⟨fun _ => ⟨_, fails⟩, fun _ => rfl⟩
  | success h fits =>
    constructor
    · intro hsentinel
      exact absurd hsentinel (Shape.returned_ne_sentinel _)
    · intro hfails
      obtain ⟨e, he⟩ := hfails
      exact absurd he (fits e)

theorem Reports.last_eq {returned : op.shape.Returned} {last last' : Option LastError} {e : Error}
    (h : Reports s link state last op returned last') (fails : Fails s link state op e) :
    last' = some (kept e) := by
  cases h with
  | failure fails' => rw [fails.unique fails']
  | success h fits => exact absurd fails (fits e)

end Operation

/-- A call on some session, as the call finds it. -/
structure Invocation (σ : Type) where
  session : Session
  link : Link σ
  operation : Operation

/-- The calls of a thread one after the other. -/
def callAll : List (Invocation σ) → Call σ Unit
  | [] => return
  | c :: rest => do
    let _ ← c.operation.call c.session c.link
    callAll rest

/-- How the calls of a thread go: for each of them its failure, if it fails. -/
inductive Happens : List (Invocation σ) → σ → List (Option Error) → σ → Prop where
  | nil {state : σ} : Happens [] state [] state
  | fails {c : Invocation σ} {rest : List (Invocation σ)} {state next final : σ} {e : Error}
      {failures : List (Option Error)} (fails : c.operation.Fails c.session c.link state e)
      (leaves : c.operation.Leaves c.session c.link state next)
      (more : Happens rest next failures final) :
      Happens (c :: rest) state (some e :: failures) final
  | succeeds {c : Invocation σ} {rest : List (Invocation σ)} {state next final : σ}
      {failures : List (Option Error)} (fits : ∀ e, ¬c.operation.Fails c.session c.link state e)
      (leaves : c.operation.Leaves c.session c.link state next)
      (more : Happens rest next failures final) :
      Happens (c :: rest) state (none :: failures) final

/-- The last of the failures, or what was the last error before them. -/
def latest (last : Option LastError) (failures : List (Option Error)) : Option LastError :=
  (failures.reduceOption.getLast?.map kept).or last

theorem latest_cons_some (last : Option LastError) (e : Error) (failures : List (Option Error)) :
    latest last (some e :: failures) = latest (some (kept e)) failures := by
  rw [latest, latest, List.reduceOption_cons_of_some, List.getLast?_cons]
  cases failures.reduceOption.getLast? <;> rfl

theorem latest_cons_none (last : Option LastError) (failures : List (Option Error)) :
    latest last (none :: failures) = latest last failures := by
  rw [latest, latest, List.reduceOption_cons_of_none]

/-- After any calls the last error is that of the last one that failed. -/
theorem exists_run_callAll (calls : List (Invocation σ)) (last : Option LastError) (state : σ) :
    ∃ failures final, Happens calls state failures final ∧
      ((callAll calls).run last).run state = (((), latest last failures), final) := by
  induction calls generalizing last state with
  | nil => exact ⟨[], state, .nil, rfl⟩
  | cons c rest ih =>
    obtain ⟨returned, last', next, hrun, hreports, hleaves⟩ :=
      Operation.exists_run_call c.session c.link c.operation last state
    obtain ⟨failures, final, hhappens, hrest⟩ := ih last' next
    have hcalls : ((callAll (c :: rest)).run last).run state =
        (((), latest last' failures), final) := by
      rw [callAll, StateT.run_bind, StateT.run_bind, hrun]
      exact hrest
    cases hreports with
    | failure fails =>
      refine ⟨_, final, .fails fails hleaves hhappens, ?_⟩
      rw [hcalls, latest_cons_some]
    | success h fits =>
      refine ⟨_, final, .succeeds fits hleaves hhappens, ?_⟩
      rw [hcalls, latest_cons_none]

/-! Asking whether there is something. -/

theorem kind_eq_notFound_iff {e : Error} :
    e.kind = .notFound ↔ e.errno = .noent ∨ e.errno = .notdir := by
  rw [Error.kind, ErrorKind.ofErrno]
  constructor
  · intro h
    split_ifs at h with _ _ hfound
    exact hfound
  · intro h
    rcases h with h | h <;> rw [h] <;> decide

theorem run_exists (s : Session) (link : Link σ) (path : String) (state : σ) :
    ((s.exists? link path).run.run state).1 =
      match ((s.stat link path).run.run state).1 with
      | .ok _ => .ok true
      | .error e => if e.kind = .notFound then .ok false else .error e := by
  obtain ⟨outcome, next, hstat⟩ :
      ∃ outcome next, (s.stat link path).run.run state = (outcome, next) := ⟨_, _, rfl⟩
  rw [Session.exists?, Over.run_tryCatch, hstat]
  cases outcome with
  | ok info =>
    rw [Over.run_bind_of_ok hstat]
    rfl
  | error e =>
    rw [Over.run_bind_of_error hstat]
    dsimp only
    split_ifs <;> rfl

theorem run_exists_eq_false_iff (s : Session) (link : Link σ) (path : String) (state : σ) :
    ((s.exists? link path).run.run state).1 = .ok false ↔
      ∃ e, ((s.stat link path).run.run state).1 = .error e ∧
        (e.errno = .noent ∨ e.errno = .notdir) := by
  rw [run_exists]
  cases ((s.stat link path).run.run state).1 with
  | ok info =>
    constructor
    · intro h
      cases h
    · intro h
      obtain ⟨e, he, -⟩ := h
      cases he
  | error e =>
    dsimp only
    constructor
    · intro h
      refine ⟨e, rfl, kind_eq_notFound_iff.mp ?_⟩
      by_contra hkind
      rw [if_neg hkind] at h
      cases h
    · intro h
      obtain ⟨e', he', herrno⟩ := h
      cases he'
      exact if_pos (kind_eq_notFound_iff.mpr herrno)

/-- A return code of zero says that there is something; why there is nothing it does not say. -/
theorem exists_eq_zero_iff (s : Session) (link : Link σ) (path : String) (last : Option LastError)
    (state : σ) : (((exists? s link path).run last).run state).1.1 = 0 ↔
      ((s.exists? link path).run.run state).1 = .ok true := by
  obtain ⟨outcome, next, hstat⟩ :
      ∃ outcome next, (s.stat link path).run.run state = (outcome, next) := ⟨_, _, rfl⟩
  have hcall : exists? s link path = Shape.call .code (Operation.plain s link (.exists? path)) :=
    rfl
  rw [hcall, run_exists, hstat]
  cases outcome with
  | ok info =>
    have hplain : (Operation.plain s link (.exists? path)).run.run state = (.ok (), next) :=
      Over.run_bind_of_ok hstat
    have hfits : ∀ e, ¬Shape.code.Exceeds () e := by
      intro e he
      cases he
    rw [Shape.run_call_of_fits hplain hfits]
    exact ⟨fun _ => rfl, fun _ => rfl⟩
  | error e =>
    have hplain : (Operation.plain s link (.exists? path)).run.run state = (.error e, next) :=
      Over.run_bind_of_error hstat
    rw [Shape.run_call_of_error hplain]
    constructor
    · intro h
      have hzero : (-1 : Int) = 0 := h
      omega
    · intro h
      dsimp only at h
      split_ifs at h
      cases h

end Calls

/-- A call returns the value for a failure exactly if something fails: the operation itself, a
number that does not fit in 63 bits, or a negative replication, for which nothing is sent. Each
failure is the last error then, and other calls leave the last error as it was. -/
theorem tells_failures {σ : Type} :
    (∀ (s : Session) (link : Link σ) (op : Operation) (last : Option LastError) (state : σ),
      ∃ returned last' next, ((op.call s link).run last).run state = ((returned, last'), next) ∧
        (returned = op.shape.sentinel ↔ ∃ e, op.Fails s link state e) ∧
        (∀ e, op.Fails s link state e → last' = some (kept e)) ∧
        ((∀ e, ¬op.Fails s link state e) → last' = last ∧
          ∃ a, ((op.plain s link).run.run state).1 = .ok a ∧ returned = op.shape.returned a) ∧
        (∀ n, op.shape.number? returned = some n → returned ≠ op.shape.sentinel → 0 ≤ n) ∧
        op.Leaves s link state next) ∧
    (∀ (s : Session) (link : Link σ) (path : String) (last : Option LastError) (state : σ),
      ((((exists? s link path).run last).run state).1.1 = 0 ↔
        ((s.exists? link path).run.run state).1 = .ok true) ∧
      (((s.exists? link path).run.run state).1 = .ok false ↔
        ∃ e, ((s.stat link path).run.run state).1 = .error e ∧
          (e.errno = .noent ∨ e.errno = .notdir))) ∧
    ∀ (calls : List (Invocation σ)) (last : Option LastError) (state : σ),
      ∃ failures final, Happens calls state failures final ∧
        ((callAll calls).run last).run state = (((), latest last failures), final) := by
  refine ⟨fun s link op last state => ?_, fun s link path last state => ?_, exists_run_callAll⟩
  · obtain ⟨returned, last', next, hrun, hreports, hleaves⟩ :=
      Operation.exists_run_call s link op last state
    refine ⟨returned, last', next, hrun, hreports.eq_sentinel_iff, fun e => hreports.last_eq, ?_,
      ?_, hleaves⟩
    · intro hnone
      cases hreports with
      | failure fails => exact absurd fails (hnone _)
      | success h fits => exact ⟨rfl, _, h, rfl⟩
    · intro n hn hreturned
      cases hreports with
      | failure fails => exact absurd rfl hreturned
      | success h fits => exact Shape.number_nonneg hn
  · exact ⟨exists_eq_zero_iff s link path last state, run_exists_eq_false_iff s link path state⟩

end Posix

end MetaFs
