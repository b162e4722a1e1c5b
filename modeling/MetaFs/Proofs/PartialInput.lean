import Mathlib
import MetaFs.Proofs.WireFormat
/-! Reading input of which only the front is there yet. What was read stays as it is when more
bytes come, and so does every complaint but the one that bytes are missing. -/

namespace MetaFs

namespace Wire

theorem ReadError.kind_of_truncation {e : ReadError} (h : e.isTruncation = true) :
    e.kind = .unexpectedEnd :=
  if_pos h

theorem ReadError.kind_of_complaint {e : ReadError} (h : e.isTruncation = false) :
    e.kind = .invalidData :=
  if_neg (Bool.eq_false_iff.mp h)

section Readers

variable {α β : Type} {b : List UInt8}

/-- The outcome may change with the bytes to come. -/
def Waits : Except ReadError (α × List UInt8) → Prop
  | .ok _ => False
  | .error e => e.isTruncation = true

/-- The same outcome, with more bytes left over where a value was read. -/
def followedBy (more : List UInt8) :
    Except ReadError (α × List UInt8) → Except ReadError (α × List UInt8) :=
  Except.map fun found => (found.1, found.2 ++ more)

/-- Nothing but the front of the input counts, and where bytes are missing there are some that
would do. -/
structure Incremental (x : Reader α) : Prop where
  run_append : ∀ {b : List UInt8} (more : List UInt8), ¬Waits (x.run b) →
    x.run (b ++ more) = followedBy more (x.run b)
  exists_append : ∀ b : List UInt8, ∃ more, ¬Waits (x.run (b ++ more))

theorem Incremental.run_append_of_ok {x : Reader α} (hx : Incremental x) {a : α} {t : List UInt8}
    (h : x.run b = .ok (a, t)) (more : List UInt8) : x.run (b ++ more) = .ok (a, t ++ more) := by
  have hw : ¬Waits (x.run b) := by
    rw [h]
    exact not_false
  rw [hx.run_append more hw, h]
  rfl

theorem Incremental.run_append_of_error {x : Reader α} (hx : Incremental x) {e : ReadError}
    (h : x.run b = .error e) (he : e.isTruncation = false) (more : List UInt8) :
    x.run (b ++ more) = .error e := by
  have hw : ¬Waits (x.run b) := by
    rw [h]
    exact ne_true_of_eq_false he
  rw [hx.run_append more hw, h]
  rfl

theorem incremental_pure (a : α) : Incremental (pure a : Reader α) where
  run_append _ _ := rfl
  exists_append _ := ⟨[], not_false⟩

theorem incremental_fail {e : ReadError} (he : e.isTruncation = false) :
    Incremental (fail e : Reader α) where
  run_append _ _ := rfl
  exists_append _ := ⟨[], ne_true_of_eq_false he⟩

/-- One part is read where the other stopped: the second sees the same bytes and more of them. -/
theorem Incremental.bind {x : Reader α} {f : α → Reader β} (hx : Incremental x)
    (hf : ∀ a, Incremental (f a)) : Incremental (x >>= f) where
  run_append := by
    intro b more hw
    cases h : x.run b with
    | error e =>
      rw [run_bind_of_error h] at hw ⊢
      exact run_bind_of_error (hx.run_append_of_error h (Bool.eq_false_of_not_eq_true hw) more)
    | ok found =>
      rw [run_bind_of_ok h] at hw ⊢
      rw [run_bind_of_ok (hx.run_append_of_ok h more)]
      exact (hf _).run_append more hw
  exists_append := by
    intro b
    obtain ⟨first, hfirst⟩ := hx.exists_append b
    cases h : x.run (b ++ first) with
    | error e =>
      refine ⟨first, ?_⟩
      rw [run_bind_of_error h]
      rwa [h] at hfirst
    | ok found =>
      obtain ⟨second, hsecond⟩ := (hf found.1).exists_append found.2
      refine ⟨first ++ second, ?_⟩
      rwa [← List.append_assoc, run_bind_of_ok (hx.run_append_of_ok h second)]

/-- Bytes taken by number need so many bytes, whichever error tells that there are fewer. -/
theorem incremental_of_split {x : Reader (List UInt8)} {n : ℕ}
    (henough : ∀ b : List UInt8, n ≤ b.length → x.run b = .ok (b.take n, b.drop n))
    (hshort : ∀ b : List UInt8, b.length < n → Waits (x.run b)) : Incremental x where
  run_append := by
    intro b more hw
    have hn : n ≤ b.length := Nat.not_lt.mp fun h => hw (hshort b h)
    have hlonger : n ≤ (b ++ more).length := by
      rw [List.length_append]
      omega
    rw [henough b hn, henough _ hlonger, List.take_append_of_le_length hn,
      List.drop_append_of_le_length hn]
    rfl
  exists_append := by
    intro b
    refine ⟨List.replicate n 0, ?_⟩
    have hn : n ≤ (b ++ List.replicate n 0).length := by
      rw [List.length_append, List.length_replicate]
      omega
    rw [henough _ hn]
    exact not_false

theorem incremental_take (n : ℕ) : Incremental (take n) := by
  apply incremental_of_split (n := n)
  · intro b hn
    exact if_pos (List.length_take_of_le hn)
  · intro b hn
    have h : (take n).run b = .error .endOfInput := by
      apply if_neg
      rw [List.length_take]
      omega
    rw [h]
    rfl

theorem incremental_takeDeclared (n : ℕ) : Incremental (takeDeclared n) := by
  apply incremental_of_split (n := n)
  · intro b hn
    exact if_pos (List.length_take_of_le hn)
  · intro b hn
    rw [run_takeDeclared_of_lt hn]
    rfl

theorem incremental_number (width : ℕ) : Incremental (number width) :=
  (incremental_take width).bind fun _ => incremental_pure _

end Readers

/-- Types whose reader looks at the front of its input only. -/
class IncrementalWire (α : Type) [Wire α] : Prop where
  incremental_read : Incremental (read : Reader α)

export IncrementalWire (incremental_read)

instance : IncrementalWire UInt8 := ⟨(incremental_number 1).bind fun _ => incremental_pure _⟩

instance : IncrementalWire UInt16 := ⟨(incremental_number 2).bind fun _ => incremental_pure _⟩

instance : IncrementalWire UInt32 := ⟨(incremental_number 4).bind fun _ => incremental_pure _⟩

instance : IncrementalWire UInt64 := ⟨(incremental_number 8).bind fun _ => incremental_pure _⟩

instance : IncrementalWire Bool where
  incremental_read := by
    apply (incremental_number 1).bind
    intro n
    split
    · exact incremental_pure false
    · exact incremental_pure true
    · exact incremental_fail rfl

/-- A text is judged when all of its bytes are there, so that a character of which some bytes are
missing is not taken for a wrong one. -/
instance : IncrementalWire String where
  incremental_read := by
    apply (incremental_number 2).bind
    intro length
    apply (incremental_takeDeclared length).bind
    intro bytes
    split
    · exact incremental_pure _
    · exact incremental_fail rfl

instance {α : Type} [Wire α] [IncrementalWire α] : IncrementalWire (Option α) where
  incremental_read := by
    apply (incremental_read (α := Bool)).bind
    intro present
    split
    · exact incremental_read.bind fun _ => incremental_pure _
    · exact incremental_pure none

theorem incremental_readMany {α : Type} [Wire α] [IncrementalWire α] (n : ℕ) (done : List α) :
    Incremental (readMany n done) := by
  induction n generalizing done with
  | zero => exact incremental_pure _
  | succ n ih => exact incremental_read.bind fun a => ih (a :: done)

instance {α : Type} [Wire α] [IncrementalWire α] : IncrementalWire (List α) where
  incremental_read := (incremental_number 4).bind fun n => incremental_readMany n []

end Wire

open Wire

instance : IncrementalWire Data where
  incremental_read := (incremental_number 4).bind fun length =>
    (incremental_takeDeclared length).bind fun _ => incremental_pure _

instance : IncrementalWire FileType where
  incremental_read := by
    apply (incremental_read (α := UInt8)).bind
    intro n
    split
    · exact incremental_pure _
    · exact incremental_fail rfl

section Fields

variable {α β γ δ : Type} [Wire α] [IncrementalWire α] [Wire β] [IncrementalWire β]
variable [Wire γ] [IncrementalWire γ]

theorem Wire.incremental_read_bind {f : α → Reader δ} (hf : ∀ a, Incremental (f a)) :
    Incremental (Wire.read >>= f) :=
  incremental_read.bind hf

theorem Wire.incremental_one_field (f : α → δ) :
    Incremental (do return f (← Wire.read) : Reader δ) :=
  incremental_read_bind fun _ => incremental_pure _

theorem Wire.incremental_two_fields (f : α → β → δ) :
    Incremental (do return f (← Wire.read) (← Wire.read) : Reader δ) :=
  incremental_read_bind fun a => incremental_one_field (f a)

theorem Wire.incremental_three_fields (f : α → β → γ → δ) :
    Incremental (do return f (← Wire.read) (← Wire.read) (← Wire.read) : Reader δ) :=
  incremental_read_bind fun a => incremental_two_fields (f a)

end Fields

instance : IncrementalWire FileStatus where
  incremental_read := by
    iterate 9 refine incremental_read_bind fun _ => ?_
    exact incremental_one_field _

instance : IncrementalWire Page where
  incremental_read := incremental_two_fields Page.mk

instance : IncrementalWire ServerDefaults where
  incremental_read := by
    iterate 2 refine incremental_read_bind fun _ => ?_
    exact incremental_three_fields _

instance : IncrementalWire FsStats where
  incremental_read := by
    iterate 3 refine incremental_read_bind fun _ => ?_
    exact incremental_three_fields _

theorem Request.incremental_reader (op : Operation) : Incremental (reader op) := by
  cases op with
  | error => exact incremental_fail rfl
  | getServerDefaults | getFsStats => exact incremental_pure _
  | getFileInfo | getPreferredBlockSize => exact incremental_one_field _
  | connect | delete | setReplication | setPermission => exact incremental_two_fields _
  | getListing | mkdirs | rename | setOwner | setTimes => exact incremental_three_fields _

theorem Reply.incremental_reader (op : Operation) : Incremental (reader op) := by
  cases op with
  | error => exact incremental_two_fields _
  | connect | rename | setPermission | setOwner | setTimes => exact incremental_pure _
  | getServerDefaults | getFileInfo | getListing | mkdirs | delete | setReplication
  | getPreferredBlockSize | getFsStats => exact incremental_one_field _

/-- The number of a message is read before its type is looked at, and its type is judged before
its fields are read. -/
instance : IncrementalWire Message where
  incremental_read := by
    apply (incremental_read (α := UInt8)).bind
    intro number
    apply (incremental_read (α := UInt32)).bind
    intro callId
    split
    · exact incremental_fail rfl
    · exact (Request.incremental_reader _).bind fun _ => incremental_pure _
    · exact (Reply.incremental_reader _).bind fun _ => incremental_pure _

namespace WireType

instance incremental : (t : WireType) → IncrementalWire t.Value
  | u8 => inferInstanceAs (IncrementalWire UInt8)
  | u16 => inferInstanceAs (IncrementalWire UInt16)
  | u32 => inferInstanceAs (IncrementalWire UInt32)
  | u64 => inferInstanceAs (IncrementalWire UInt64)
  | bool => inferInstanceAs (IncrementalWire Bool)
  | text => inferInstanceAs (IncrementalWire String)
  | data => inferInstanceAs (IncrementalWire Data)
  | fileType => inferInstanceAs (IncrementalWire FileType)
  | option t => have := incremental t; inferInstanceAs (IncrementalWire (Option t.Value))
  | sequence t => have := incremental t; inferInstanceAs (IncrementalWire (List t.Value))
  | fileStatus => inferInstanceAs (IncrementalWire FileStatus)
  | page => inferInstanceAs (IncrementalWire Page)
  | serverDefaults => inferInstanceAs (IncrementalWire ServerDefaults)
  | fsStats => inferInstanceAs (IncrementalWire FsStats)
  | message => inferInstanceAs (IncrementalWire Message)

/-- Every value has at least one byte. -/
theorem decode_nil (t : WireType) : Wire.decode (α := t.Value) [] = .error .endOfInput := by
  cases t <;> rfl

/-- The bytes of a value are enough by themselves. -/
theorem decode_of_append (t : WireType) {used rest : List UInt8} {v : t.Value}
    (h : Wire.decode (used ++ rest) = .ok (v, rest)) : Wire.decode used = .ok (v, []) := by
  have hv := run_read_eq_ok.mp h
  apply run_read_eq_ok.mpr
  refine ⟨hv.1, ?_⟩
  rw [List.append_nil]
  exact List.append_cancel_right hv.2

/-- No bytes but all of them are taken for the value. -/
theorem waits_of_prefix (t : WireType) {used rest cut : List UInt8} {v : t.Value}
    (h : Wire.decode (used ++ rest) = .ok (v, rest)) (hc : cut <+: used) (hne : cut ≠ used) :
    Waits (Wire.decode (α := t.Value) cut) := by
  have hused := decode_of_append t h
  obtain ⟨tail, rfl⟩ := hc
  by_contra hw
  -- What is read of the front alone leaves the tail over, but nothing is left over.
  have happ : Wire.decode (cut ++ tail) = followedBy tail (Wire.decode (α := t.Value) cut) :=
    incremental_read.run_append tail hw
  rw [hused] at happ
  cases hd : Wire.decode (α := t.Value) cut with
  | error e =>
    rw [hd] at happ
    cases happ
  | ok found =>
    rw [hd] at happ
    have htail : [] = found.2 ++ tail := congrArg Prod.snd (Except.ok.inj happ)
    apply hne
    rw [(List.append_eq_nil_iff.mp htail.symm).2, List.append_nil]

/-- Values and complaints stand when more bytes come; a value of which bytes are missing is waited
for, and nothing else is. -/
theorem decode_stable (t : WireType) :
    (∀ (b rest : List UInt8) (v : t.Value), Wire.decode b = .ok (v, rest) →
      ∃ used, b = used ++ rest ∧ used ≠ [] ∧
        (∀ more, Wire.decode (b ++ more) = .ok (v, rest ++ more)) ∧
        ∀ cut, cut <+: used → cut ≠ used →
          ∃ e, Wire.decode (α := t.Value) cut = .error e ∧ e.isTruncation = true ∧
            e.kind = .unexpectedEnd) ∧
    (∀ (b : List UInt8) (e : ReadError), Wire.decode (α := t.Value) b = .error e →
      e.isTruncation = false →
        e.kind = .invalidData ∧ e ∈ [.badBoolean, .badText, .badFileType, .badMessageType] ∧
        ∀ more, Wire.decode (α := t.Value) (b ++ more) = .error e) ∧
    ∀ (b : List UInt8) (e : ReadError), Wire.decode (α := t.Value) b = .error e →
      e.isTruncation = true →
        e.kind = .unexpectedEnd ∧ ∃ more, ¬Waits (Wire.decode (α := t.Value) (b ++ more)) := by
  refine ⟨fun b rest v h => ?_, fun b e h he => ⟨ReadError.kind_of_complaint he, ?_, ?_⟩,
    fun b e _ he => ⟨ReadError.kind_of_truncation he, ?_⟩⟩
  · obtain ⟨-, rfl⟩ := run_read_eq_ok.mp h
    refine ⟨bytesOf (Wire.pieces v), rfl, fun hu => ?_, incremental_read.run_append_of_ok h,
      fun cut hc hne => ?_⟩
    · have hnil := decode_of_append t h
      rw [hu] at hnil
      rw [decode_nil] at hnil
      cases hnil
    · have hw := waits_of_prefix t h hc hne
      cases hd : Wire.decode (α := t.Value) cut with
      | ok found =>
        rw [hd] at hw
        exact hw.elim
      | error e =>
        rw [hd] at hw
        exact ⟨e, rfl, hw, ReadError.kind_of_truncation hw⟩
  · cases e <;> simp_all [ReadError.isTruncation]
  · exact incremental_read.run_append_of_error h he
  · exact incremental_read.exists_append b

end WireType

end MetaFs
