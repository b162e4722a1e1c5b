import Mathlib
import MetaFs.Wire
import MetaFs.Proofs.Utf8
/-! What a reader accepts. A reader and a writer of one type are compared by the pieces of a value:
the reader takes exactly the bytes of pieces that hold their number or text without loss. -/

namespace MetaFs.Wire

theorem length_littleEndian (width n : ℕ) : (littleEndian width n).length = width := by
  induction width generalizing n with
  | zero => rfl
  | succ width ih => rw [littleEndian, List.length_cons, ih]

theorem value_cons (b : UInt8) (bytes : List UInt8) :
    value (b :: bytes) = b.toNat + 256 * value bytes := rfl

theorem value_lt (bytes : List UInt8) : value bytes < 256 ^ bytes.length := by
  induction bytes with
  | nil => exact Nat.one_pos
  | cons b bytes ih =>
    have hb := b.toNat_lt
    rw [value_cons, List.length_cons, pow_succ]
    omega

theorem value_littleEndian {width n : ℕ} (h : n < 256 ^ width) :
    value (littleEndian width n) = n := by
  induction width generalizing n with
  | zero =>
    have hn : n = 0 := by simpa using h
    subst hn
    rfl
  | succ width ih =>
    have hq : n / 256 < 256 ^ width := by
      rw [pow_succ] at h
      exact Nat.div_lt_of_lt_mul (by rwa [mul_comm])
    rw [littleEndian, value_cons, ih hq, UInt8.toNat_ofNat']
    exact Nat.mod_add_div n 256

theorem littleEndian_value (bytes : List UInt8) :
    littleEndian bytes.length (value bytes) = bytes := by
  induction bytes with
  | nil => rfl
  | cons b bytes ih =>
    have hb := b.toNat_lt
    have hq : value (b :: bytes) / 256 = value bytes := by rw [value_cons]; omega
    have hr : UInt8.ofNat (value (b :: bytes)) = b := by
      apply UInt8.toNat_inj.mp
      rw [UInt8.toNat_ofNat', value_cons]
      omega
    rw [List.length_cons, littleEndian, hq, hr, ih]

/-- The bytes of a piece, where a text that is too long has a wrong length before it. -/
def Piece.bytes : Piece → List UInt8
  | number width n => littleEndian width n
  | raw bytes => bytes
  | text s => littleEndian 2 s.utf8ByteSize ++ Utf8.encode s.toList

/-- Only a text that is too long cannot be written. -/
def Piece.Writable : Piece → Prop
  | number .. | raw _ => True
  | text s => s.utf8ByteSize ≤ textLimit

/-- Whether a number fits in its bytes. Longer ones are cut off without notice. -/
def Piece.InRange : Piece → Prop
  | number width n => n < 256 ^ width
  | raw _ | text _ => True

/-- The bytes of all pieces in turn. -/
def bytesOf (ps : List Piece) : List UInt8 := ps.flatMap Piece.bytes

theorem Piece.length_bytes (p : Piece) : p.bytes.length = p.size := by
  cases p with
  | number width n => exact length_littleEndian width n
  | raw bytes => rfl
  | text s => rw [bytes, List.length_append, length_littleEndian, Utf8.length_encode]; rfl

theorem Piece.encode_of_writable {p : Piece} (h : p.Writable) : p.encode = .ok p.bytes := by
  cases p with
  | number width n => rfl
  | raw bytes => rfl
  | text s => exact if_neg (Nat.not_lt.mpr h)

theorem Piece.encode_of_not_writable {p : Piece} (h : ¬p.Writable) :
    p.encode = .error .overlongText := by
  cases p with
  | number width n => exact absurd trivial h
  | raw bytes => exact absurd trivial h
  | text s => exact if_pos (Nat.not_le.mp h)

theorem bytesOf_append (ps qs : List Piece) : bytesOf (ps ++ qs) = bytesOf ps ++ bytesOf qs :=
  List.flatMap_append

theorem bytesOf_cons (p : Piece) (ps : List Piece) : bytesOf (p :: ps) = p.bytes ++ bytesOf ps :=
  rfl

/-- The count of the writer is the number of bytes that came out. -/
theorem write_of_writable {ps : List Piece} (h : ∀ p ∈ ps, p.Writable) :
    write ps = ⟨bytesOf ps, .ok (bytesOf ps).length⟩ := by
  induction ps with
  | nil => rfl
  | cons p ps ih =>
    rw [List.forall_mem_cons] at h
    simp only [write, Piece.encode_of_writable h.1, ih h.2, bytesOf_cons, List.length_append,
      Piece.length_bytes]
    rfl

theorem writable_of_write {ps : List Piece} {n : ℕ} (h : (write ps).outcome = .ok n) :
    ∀ p ∈ ps, p.Writable := by
  induction ps generalizing n with
  | nil => simp
  | cons p ps ih =>
    by_cases hp : p.Writable
    · simp only [write, Piece.encode_of_writable hp] at h
      cases hw : (write ps).outcome with
      | error e => rw [hw] at h; cases h
      | ok k => exact List.forall_mem_cons.mpr ⟨hp, ih hw⟩
    · simp only [write, Piece.encode_of_not_writable hp] at h
      cases h

theorem encoded_eq_ok {α : Type} [Wire α] {a : α} {b : List UInt8} :
    Wire.encoded a = .ok b ↔ (∀ p ∈ Wire.pieces a, p.Writable) ∧ b = bytesOf (Wire.pieces a) := by
  constructor
  · intro h
    cases ho : (write (Wire.pieces a)).outcome with
    | error e => simp [Wire.encoded, Wire.encode, ho, Except.map] at h
    | ok n =>
      have hw := writable_of_write ho
      simp only [Wire.encoded, Wire.encode, write_of_writable hw, Except.map] at h
      exact ⟨hw, (Except.ok.inj h).symm⟩
  · rintro ⟨hw, rfl⟩
    simp only [Wire.encoded, Wire.encode, write_of_writable hw, Except.map]

theorem length_bytesOf (ps : List Piece) : (bytesOf ps).length = (ps.map Piece.size).sum := by
  simp only [bytesOf, List.length_flatMap, Piece.length_bytes]

/-- The bytes `b` begin with the pieces, none of which has lost anything, and `t` is the rest. -/
def Begins (ps : List Piece) (b t : List UInt8) : Prop :=
  (∀ p ∈ ps, p.Writable ∧ p.InRange) ∧ b = bytesOf ps ++ t

theorem begins_nil {b t : List UInt8} : Begins [] b t ↔ b = t := by
  simp [Begins, bytesOf]

theorem begins_append {ps qs : List Piece} {b t : List UInt8} :
    Begins (ps ++ qs) b t ↔ ∃ s, Begins ps b s ∧ Begins qs s t := by
  constructor
  · rintro ⟨h, rfl⟩
    rw [List.forall_mem_append] at h
    exact ⟨bytesOf qs ++ t, ⟨h.1, by rw [bytesOf_append, List.append_assoc]⟩, h.2, rfl⟩
  · rintro ⟨s, ⟨hp, rfl⟩, hq, rfl⟩
    exact ⟨List.forall_mem_append.mpr ⟨hp, hq⟩, by rw [bytesOf_append, List.append_assoc]⟩

theorem Begins.append {ps qs : List Piece} {b s t : List UInt8} (hp : Begins ps b s)
    (hq : Begins qs s t) : Begins (ps ++ qs) b t :=
  begins_append.mpr ⟨s, hp, hq⟩

theorem begins_cons {p : Piece} {ps : List Piece} {b t : List UInt8} :
    Begins (p :: ps) b t ↔ ∃ s, Begins [p] b s ∧ Begins ps s t :=
  @begins_append [p] ps b t

section Readers

variable {α β γ : Type} {b t : List UInt8}

theorem run_bind_eq_ok {x : Reader α} {f : α → Reader β} {c : β} :
    (x >>= f).run b = .ok (c, t) ↔ ∃ a s, x.run b = .ok (a, s) ∧ (f a).run s = .ok (c, t) := by
  rw [StateT.run_bind]
  cases hx : x.run b with
  | error e => simp [bind, Except.bind]
  | ok r => simp [bind, Except.bind, Prod.ext_iff]

theorem run_bind_of_ok {x : Reader α} {f : α → Reader β} {a : α} (h : x.run b = .ok (a, t)) :
    (x >>= f).run b = (f a).run t := by
  rw [StateT.run_bind, h]
  rfl

theorem run_bind_of_error {x : Reader α} {f : α → Reader β} {e : ReadError}
    (h : x.run b = .error e) : (x >>= f).run b = .error e := by
  rw [StateT.run_bind, h]
  rfl

theorem run_pure_eq_ok {a c : α} : (pure a : Reader α).run b = .ok (c, t) ↔ a = c ∧ b = t := by
  rw [StateT.run_pure]
  simp [pure, Except.pure]

theorem run_fail_eq_ok {e : ReadError} {c : α} :
    (fail e : Reader α).run b = .ok (c, t) ↔ False := by
  simp [fail, StateT.run]

theorem run_take_eq_ok {n : ℕ} {bytes : List UInt8} :
    (take n).run b = .ok (bytes, t) ↔ bytes.length = n ∧ b = bytes ++ t := by
  simp only [take, StateT.run]
  constructor
  · intro h
    split_ifs at h with hn
    obtain ⟨rfl, rfl⟩ := Prod.mk.inj (Except.ok.inj h)
    exact ⟨hn, (List.take_append_drop n b).symm⟩
  · rintro ⟨rfl, rfl⟩
    rw [List.take_left, List.drop_left, if_pos rfl]

theorem run_takeDeclared_eq_ok {n : ℕ} {bytes : List UInt8} :
    (takeDeclared n).run b = .ok (bytes, t) ↔ bytes.length = n ∧ b = bytes ++ t := by
  rw [← run_take_eq_ok]
  simp only [takeDeclared, take, StateT.run]
  split_ifs <;> simp

theorem run_number_eq_ok {width n : ℕ} :
    (number width).run b = .ok (n, t) ↔ Begins [.number width n] b t := by
  simp only [number, run_bind_eq_ok, run_take_eq_ok, run_pure_eq_ok, Begins, bytesOf,
    List.flatMap_cons, List.flatMap_nil, List.append_nil, List.forall_mem_singleton,
    Piece.Writable, Piece.InRange, Piece.bytes, true_and]
  constructor
  · rintro ⟨bytes, s, ⟨rfl, rfl⟩, rfl, rfl⟩
    exact ⟨value_lt bytes, by rw [littleEndian_value]⟩
  · rintro ⟨hn, rfl⟩
    exact ⟨littleEndian width n, t, ⟨length_littleEndian width n, rfl⟩, value_littleEndian hn, rfl⟩

theorem run_number_append {width n : ℕ} (h : n < 256 ^ width) :
    (number width).run (littleEndian width n ++ t) = .ok (n, t) :=
  run_bind_of_ok (run_take_eq_ok.mpr ⟨length_littleEndian width n, rfl⟩) |>.trans
    (run_pure_eq_ok.mpr ⟨value_littleEndian h, rfl⟩)

theorem run_number_cons (n : UInt8) (t : List UInt8) :
    (number 1).run (n :: t) = .ok (n.toNat, t) := by
  have h : littleEndian 1 n.toNat = [n] := by rw [littleEndian, UInt8.ofNat_toNat]; rfl
  rw [← List.singleton_append, ← h]
  exact run_number_append n.toNat_lt

theorem run_takeDeclared_of_lt {n : ℕ} (h : b.length < n) :
    (takeDeclared n).run b = .error (.missingBytes n b.length) := by
  simp only [takeDeclared, StateT.run, List.take_of_length_le h.le]
  rw [if_neg h.ne]

end Readers

end MetaFs.Wire
