import Mathlib
import MetaFs.Proofs.Messages
/-! The wire format as a whole: the types that have a binary form, and the two directions between
values and bytes. Lengths are written in four bytes, so that longer values are told apart first. -/

namespace MetaFs

/-- The types of values on the wire. -/
inductive WireType where
  | u8
  | u16
  | u32
  | u64
  | bool
  | text
  | data
  | fileType
  | option (t : WireType)
  | sequence (t : WireType)
  | fileStatus
  | page
  | serverDefaults
  | fsStats
  | message

/-- Whether four bytes can hold the length. -/
def Data.Fits (d : Data) : Prop := d.bytes.length < UInt32.size

def FileStatus.Fits (s : FileStatus) : Prop := s.path.Fits

def Page.Fits (p : Page) : Prop :=
  p.entries.length < UInt32.size ∧ ∀ s ∈ p.entries, s.Fits

def Request.Fits : Request → Prop
  | getListing _ startAfter _ => startAfter.Fits
  | _ => True

def Reply.Fits : Reply → Prop
  | getFileInfo status => ∀ s ∈ status, s.Fits
  | getListing page => ∀ p ∈ page, p.Fits
  | _ => True

def Body.Fits : Body → Prop
  | request r => r.Fits
  | reply r => r.Fits

namespace WireType

def Value : WireType → Type
  | u8 => UInt8
  | u16 => UInt16
  | u32 => UInt32
  | u64 => UInt64
  | bool => Bool
  | text => String
  | data => Data
  | fileType => FileType
  | option t => Option t.Value
  | sequence t => List t.Value
  | fileStatus => FileStatus
  | page => Page
  | serverDefaults => ServerDefaults
  | fsStats => FsStats
  | message => Message

instance wire : (t : WireType) → Wire t.Value
  | u8 => inferInstanceAs (Wire UInt8)
  | u16 => inferInstanceAs (Wire UInt16)
  | u32 => inferInstanceAs (Wire UInt32)
  | u64 => inferInstanceAs (Wire UInt64)
  | bool => inferInstanceAs (Wire Bool)
  | text => inferInstanceAs (Wire String)
  | data => inferInstanceAs (Wire Data)
  | fileType => inferInstanceAs (Wire FileType)
  | option t => have := wire t; inferInstanceAs (Wire (Option t.Value))
  | sequence t => have := wire t; inferInstanceAs (Wire (List t.Value))
  | fileStatus => inferInstanceAs (Wire FileStatus)
  | page => inferInstanceAs (Wire Page)
  | serverDefaults => inferInstanceAs (Wire ServerDefaults)
  | fsStats => inferInstanceAs (Wire FsStats)
  | message => inferInstanceAs (Wire Message)

/-- Every byte string and every sequence in a value is shorter than `2 ^ 32`. -/
def Fits : (t : WireType) → t.Value → Prop
  | data, d => Data.Fits d
  | option t, o => ∀ a : t.Value, o = some a → t.Fits a
  | sequence t, as => List.length as < UInt32.size ∧ ∀ a : t.Value, List.Mem a as → t.Fits a
  | fileStatus, s => FileStatus.Fits s
  | page, p => Page.Fits p
  | message, m => Body.Fits (Message.body m)
  | _, _ => True

end WireType

open Wire

/-- No number among the pieces is cut off. -/
def Wire.AllInRange (ps : List Piece) : Prop := ∀ p ∈ ps, p.InRange

namespace Wire

@[simp] theorem allInRange_append {ps qs : List Piece} :
    AllInRange (ps ++ qs) ↔ AllInRange ps ∧ AllInRange qs :=
  List.forall_mem_append

@[simp] theorem allInRange_cons {p : Piece} {ps : List Piece} :
    AllInRange (p :: ps) ↔ p.InRange ∧ AllInRange ps :=
  List.forall_mem_cons

@[simp] theorem allInRange_nil : AllInRange [] := List.forall_mem_nil _

@[simp] theorem allInRange_u8 (n : UInt8) : AllInRange (pieces n) :=
  List.forall_mem_singleton.mpr n.toNat_lt

@[simp] theorem allInRange_u16 (n : UInt16) : AllInRange (pieces n) :=
  List.forall_mem_singleton.mpr n.toNat_lt

@[simp] theorem allInRange_u32 (n : UInt32) : AllInRange (pieces n) :=
  List.forall_mem_singleton.mpr n.toNat_lt

@[simp] theorem allInRange_u64 (n : UInt64) : AllInRange (pieces n) :=
  List.forall_mem_singleton.mpr n.toNat_lt

@[simp] theorem allInRange_bool (b : Bool) : AllInRange (pieces b) :=
  List.forall_mem_singleton.mpr (Bool.toNat_lt b |>.trans (by decide))

@[simp] theorem allInRange_text (s : String) : AllInRange (pieces s) :=
  List.forall_mem_singleton.mpr trivial

@[simp] theorem allInRange_option {α : Type} [Wire α] {o : Option α} :
    AllInRange (pieces o) ↔ ∀ a ∈ o, AllInRange (pieces a) := by
  cases o with
  | none => exact ⟨fun _ _ h => (by cases h), fun _ => allInRange_bool false⟩
  | some a =>
    refine allInRange_append.trans ?_
    simp

@[simp] theorem allInRange_list {α : Type} [Wire α] {as : List α} :
    AllInRange (pieces as) ↔ as.length < UInt32.size ∧ ∀ a ∈ as, AllInRange (pieces a) := by
  refine allInRange_cons.trans (and_congr Iff.rfl ?_)
  simp only [AllInRange, List.forall_mem_flatMap]

@[simp] theorem allInRange_data {d : Data} : AllInRange (pieces d) ↔ d.Fits := by
  refine allInRange_cons.trans ?_
  simp [Piece.InRange, Data.Fits]

@[simp] theorem allInRange_fileType (t : FileType) : AllInRange (pieces t) :=
  allInRange_u8 t.code

@[simp] theorem allInRange_fileStatus {s : FileStatus} : AllInRange (pieces s) ↔ s.Fits := by
  refine allInRange_append.trans ?_
  simp [FileStatus.Fits]

@[simp] theorem allInRange_page {p : Page} : AllInRange (pieces p) ↔ p.Fits := by
  refine allInRange_append.trans ?_
  simp [Page.Fits]

@[simp] theorem allInRange_serverDefaults (d : ServerDefaults) : AllInRange (pieces d) := by
  refine allInRange_append.mpr ?_
  simp

@[simp] theorem allInRange_fsStats (s : FsStats) : AllInRange (pieces s) := by
  refine allInRange_append.mpr ?_
  simp

end Wire

theorem Request.allInRange_fields {r : Request} : AllInRange r.fields ↔ r.Fits := by
  cases r <;> simp [fields, Fits]

theorem Reply.allInRange_fields {r : Reply} : AllInRange r.fields ↔ r.Fits := by
  cases r <;> simp [fields, Fits]

theorem Body.allInRange_fields {b : Body} : AllInRange b.fields ↔ b.Fits := by
  cases b with
  | request r => exact Request.allInRange_fields
  | reply r => exact Reply.allInRange_fields

theorem Wire.allInRange_message {m : Message} : AllInRange (Wire.pieces m) ↔ m.body.Fits := by
  refine allInRange_append.trans ?_
  simp [Body.allInRange_fields]

/-- Lengths are the only numbers that can be too large for their bytes. -/
theorem WireType.allInRange_pieces : (t : WireType) → (v : t.Value) →
    (AllInRange (Wire.pieces v) ↔ t.Fits v)
  | u8, v => iff_of_true (allInRange_u8 v) trivial
  | u16, v => iff_of_true (allInRange_u16 v) trivial
  | u32, v => iff_of_true (allInRange_u32 v) trivial
  | u64, v => iff_of_true (allInRange_u64 v) trivial
  | bool, v => iff_of_true (allInRange_bool v) trivial
  | text, v => iff_of_true (allInRange_text v) trivial
  | data, _ => allInRange_data
  | fileType, v => iff_of_true (allInRange_fileType v) trivial
  | option t, _ =>
    allInRange_option.trans (forall_congr' fun a => imp_congr_right fun _ => t.allInRange_pieces a)
  | sequence t, _ =>
    allInRange_list.trans (and_congr_right fun _ =>
      forall_congr' fun a => imp_congr_right fun _ => t.allInRange_pieces a)
  | fileStatus, _ => allInRange_fileStatus
  | page, _ => allInRange_page
  | serverDefaults, v => iff_of_true (allInRange_serverDefaults v) trivial
  | fsStats, v => iff_of_true (allInRange_fsStats v) trivial
  | message, _ => allInRange_message

instance WireType.lawful : (t : WireType) → LawfulWire t.Value
  | u8 => inferInstanceAs (LawfulWire UInt8)
  | u16 => inferInstanceAs (LawfulWire UInt16)
  | u32 => inferInstanceAs (LawfulWire UInt32)
  | u64 => inferInstanceAs (LawfulWire UInt64)
  | bool => inferInstanceAs (LawfulWire Bool)
  | text => inferInstanceAs (LawfulWire String)
  | data => inferInstanceAs (LawfulWire Data)
  | fileType => inferInstanceAs (LawfulWire FileType)
  | option t => have := lawful t; inferInstanceAs (LawfulWire (Option t.Value))
  | sequence t => have := lawful t; inferInstanceAs (LawfulWire (List t.Value))
  | fileStatus => inferInstanceAs (LawfulWire FileStatus)
  | page => inferInstanceAs (LawfulWire Page)
  | serverDefaults => inferInstanceAs (LawfulWire ServerDefaults)
  | fsStats => inferInstanceAs (LawfulWire FsStats)
  | message => inferInstanceAs (LawfulWire Message)

namespace WireType

/-- A value that was written is read back whole, whatever follows it, and the count that the writer
returns is the number of its bytes. -/
theorem decode_append_of_encode_eq (t : WireType) {v : t.Value} {b : List UInt8} {n : ℕ}
    (hv : t.Fits v) (h : Wire.encode v = ⟨b, .ok n⟩) (rest : List UInt8) :
    n = b.length ∧ Wire.decode (b ++ rest) = .ok (v, rest) := by
  have hw : ∀ p ∈ Wire.pieces v, p.Writable := writable_of_write (congrArg Written.outcome h)
  have hb : (⟨bytesOf (Wire.pieces v), .ok (bytesOf (Wire.pieces v)).length⟩ : Written) =
      ⟨b, .ok n⟩ := (write_of_writable hw).symm.trans h
  obtain ⟨rfl, hn⟩ := Written.mk.inj hb
  refine ⟨(Except.ok.inj hn).symm, run_read_eq_ok.mpr ⟨fun p hp => ?_, rfl⟩⟩
  exact ⟨hw p hp, t.allInRange_pieces v |>.mpr hv p hp⟩

/-- A page with a name that is no text, and a status without a block size. -/
def samplePage : Message := ⟨9, .reply (.getListing (some ⟨[
  { fileType := .file, path := ⟨[112, 255]⟩, length := 42, permission := 420, owner := "al",
    group := "é", modificationTime := 1700000000123, accessTime := 0, blockReplication := some 3,
    blockSize := none }], 5⟩))⟩

def samplePageBytes : List UInt8 := [
  15, 9, 0, 0, 0, 1, 1, 0, 0, 0, 2, 2, 0, 0, 0, 112, 255, 42, 0, 0, 0, 0, 0, 0, 0, 164, 1, 0,
  0, 2, 0, 97, 108, 2, 0, 195, 169, 123, 104, 229, 207, 139, 1, 0, 0, 0, 0, 0, 0, 0, 0, 0, 0,
  1, 3, 0, 0, 5, 0, 0, 0]

theorem decode_append_of_encode_eq_page :
    message.Fits samplePage ∧ Wire.encode (α := message.Value) samplePage =
      ⟨samplePageBytes, .ok 61⟩ ∧
    61 = samplePageBytes.length ∧
    Wire.decode (α := message.Value) (samplePageBytes ++ [170]) = .ok (samplePage, [170]) := by
  have hv : message.Fits samplePage := by
    rintro p ⟨rfl⟩
    refine ⟨by decide, ?_⟩
    simp [FileStatus.Fits, Data.Fits, UInt32.size]
  have hw : Wire.encode (α := message.Value) samplePage = ⟨samplePageBytes, .ok 61⟩ := by
    cbv
  exact ⟨hv, hw, decode_append_of_encode_eq message hv hw [170]⟩

/-- Bytes that stand for no value, each with the error that says so. -/
structure Refusals : Prop where
  boolean : ∀ (n : UInt8) (rest : List UInt8), 1 < n →
    Wire.decode (α := Bool) (n :: rest) = .error .badBoolean
  presence : ∀ (t : WireType) (n : UInt8) (rest : List UInt8), 1 < n →
    Wire.decode (α := Option t.Value) (n :: rest) = .error .badBoolean
  fileType : ∀ (n : UInt8) (rest : List UInt8), (∀ f : FileType, f.code ≠ n) →
    Wire.decode (α := FileType) (n :: rest) = .error .badFileType
  messageType : ∀ (n : UInt8) (callId : UInt32) (rest : List UInt8),
    n = 0 ∨ (∀ k : Kind, k.number ≠ n) →
    Wire.decode (α := Message) (n :: littleEndian 4 callId.toNat ++ rest) = .error .badMessageType
  text : ∀ bytes rest : List UInt8, bytes.length ≤ textLimit →
    (∀ cs : List Char, Utf8.encode cs ≠ bytes) →
    Wire.decode (α := String) (littleEndian 2 bytes.length ++ bytes ++ rest) = .error .badText
  textLength : ∀ (n : ℕ) (bytes : List UInt8), n ≤ textLimit → bytes.length < n →
    Wire.decode (α := String) (littleEndian 2 n ++ bytes) =
      .error (.missingBytes n bytes.length)
  dataLength : ∀ (n : ℕ) (bytes : List UInt8), n < UInt32.size → bytes.length < n →
    Wire.decode (α := Data) (littleEndian 4 n ++ bytes) = .error (.missingBytes n bytes.length)
  sequenceLength : ∀ (t : WireType) (n : ℕ) (bytes rest : List UInt8) (as : List t.Value),
    n < UInt32.size → Wire.decode (littleEndian 4 n ++ bytes) = .ok (as, rest) → as.length = n

theorem refusals : Refusals where
  boolean n rest hn := by
    refine (run_bind_of_ok (run_number_cons n rest)).trans ?_
    have h : 1 < n.toNat := hn
    split
    · omega
    · omega
    · rfl
  presence t n rest hn := by
    refine run_bind_of_error ?_
    refine (run_bind_of_ok (run_number_cons n rest)).trans ?_
    have h : 1 < n.toNat := hn
    split
    · omega
    · omega
    · rfl
  fileType n rest hn := by
    refine (run_bind_read (α := UInt8) (b := n :: rest) (a := n) (t := rest) ?_).trans ?_
    · exact run_number_eq_ok.mp (run_number_cons n rest)
    · split
      · rename_i f hf
        exact absurd (FileType.ofCode?_eq_some.mp hf).symm (hn f)
      · rfl
  messageType n callId rest hn := by
    have h1 : Begins (Wire.pieces n) (n :: littleEndian 4 callId.toNat ++ rest)
        (littleEndian 4 callId.toNat ++ rest) := run_number_eq_ok.mp (run_number_cons n _)
    have h2 : Begins (Wire.pieces callId) (littleEndian 4 callId.toNat ++ rest) rest :=
      run_number_eq_ok.mp (run_number_append callId.toNat_lt)
    refine (run_bind_read h1).trans <| (run_bind_read h2).trans ?_
    cases hk : Kind.ofNumber? n with
    | none => rfl
    | some k =>
      obtain rfl := Kind.ofNumber?_eq_some.mp hk
      obtain hz | hall := hn
      · obtain rfl : k = ⟨.error, .request⟩ :=
          Option.some.inj ((Kind.ofNumber?_number k).symm.trans (hz ▸ rfl))
        rfl
      · exact absurd rfl (hall k)
  text bytes rest hb hn := by
    have hlt : bytes.length < 256 ^ 2 := Nat.lt_of_le_of_lt hb (by decide)
    rw [List.append_assoc]
    refine (run_bind_of_ok (run_number_append hlt)).trans ?_
    refine (run_bind_of_ok (run_takeDeclared_eq_ok.mpr ⟨rfl, rfl⟩)).trans ?_
    cases hd : Utf8.decode bytes with
    | ok cs => exact absurd (Utf8.eq_encode_of_decode hd).symm (hn cs)
    | error e => rfl
  textLength n bytes hn hb := by
    have hlt : n < 256 ^ 2 := Nat.lt_of_le_of_lt hn (by decide)
    refine (run_bind_of_ok (run_number_append hlt)).trans ?_
    exact run_bind_of_error (run_takeDeclared_of_lt hb)
  dataLength n bytes hn hb := by
    refine (run_bind_of_ok (run_number_append hn)).trans ?_
    exact run_bind_of_error (run_takeDeclared_of_lt hb)
  sequenceLength t n bytes rest as hn h := by
    obtain ⟨s, hs, -⟩ := begins_cons.mp (run_read_eq_ok.mp h)
    have hnum : (number 4).run (littleEndian 4 n ++ bytes) = .ok (List.length as, s) :=
      run_number_eq_ok.mpr hs
    rw [run_number_append hn] at hnum
    exact (Prod.mk.inj (Except.ok.inj hnum)).1.symm

/-- Whatever bytes a reader accepts are those that the writer puts out for the value, so that each
value has one binary form and all other bytes are refused. -/
theorem decode_canonical :
    (∀ (t : WireType) (b rest : List UInt8) (v : t.Value), Wire.decode b = .ok (v, rest) →
      ∃ used, b = used ++ rest ∧ Wire.encode v = ⟨used, .ok used.length⟩) ∧
    (∀ (t : WireType) (used used' rest rest' : List UInt8) (v : t.Value),
      Wire.decode (used ++ rest) = .ok (v, rest) → Wire.decode (used' ++ rest') = .ok (v, rest') →
      used = used') ∧
    Refusals := by
  have hform (t : WireType) (b rest : List UInt8) (v : t.Value)
      (h : Wire.decode b = .ok (v, rest)) : b = bytesOf (Wire.pieces v) ++ rest ∧
      Wire.encode v = ⟨bytesOf (Wire.pieces v), .ok (bytesOf (Wire.pieces v)).length⟩ := by
    obtain ⟨hp, rfl⟩ := run_read_eq_ok.mp h
    exact ⟨rfl, write_of_writable fun p hm => (hp p hm).1⟩
  refine ⟨fun t b rest v h => ⟨_, hform t b rest v h⟩, fun t used used' rest rest' v h h' => ?_,
    refusals⟩
  have hu := List.append_cancel_right (hform t _ rest v h).1
  have hu' := List.append_cancel_right (hform t _ rest' v h').1
  rw [hu, hu']

end WireType

end MetaFs
