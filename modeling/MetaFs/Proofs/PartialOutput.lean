import Mathlib
import MetaFs.Proofs.WireFormat
/-! Writing a value that cannot be written whole. A value is taken apart into the scalars that it
consists of, flags and counts included; writing goes through them in their order and stops at the
first text that is too long. -/

namespace MetaFs

namespace Wire

/-- One writing after another, which is not begun when the first has failed. -/
def Written.andThen (first next : Written) : Written :=
  match first.outcome with
  | .ok n => ⟨first.bytes ++ next.bytes, next.outcome.map (n + ·)⟩
  | .error _ => first

namespace Written

variable {w next : Written}

theorem andThen_of_ok {n : ℕ} (h : w.outcome = .ok n) :
    w.andThen next = ⟨w.bytes ++ next.bytes, next.outcome.map (n + ·)⟩ := by
  rw [andThen, h]

theorem andThen_of_error {e : WriteError} (h : w.outcome = .error e) : w.andThen next = w := by
  rw [andThen, h]

@[simp] theorem andThen_nothing (w : Written) : w.andThen ⟨[], .ok 0⟩ = w := by
  obtain ⟨bytes, outcome | n⟩ := w
  · rfl
  · simp [andThen, Except.map]

@[simp] theorem nothing_andThen (w : Written) : (⟨[], .ok 0⟩ : Written).andThen w = w := by
  obtain ⟨bytes, outcome | n⟩ := w
  · rfl
  · simp [andThen, Except.map]

theorem andThen_assoc (u v w : Written) :
    (u.andThen v).andThen w = u.andThen (v.andThen w) := by
  obtain ⟨ubytes, e | m⟩ := u
  · rfl
  · obtain ⟨vbytes, e | n⟩ := v
    · rfl
    · obtain ⟨wbytes, e | k⟩ := w <;> simp [andThen, Except.map, Nat.add_assoc]

/-- Writings in turn up to the first that fails. -/
def chain (ws : List Written) : Written := ws.foldr andThen ⟨[], .ok 0⟩

@[simp] theorem chain_cons (w : Written) (ws : List Written) :
    chain (w :: ws) = w.andThen (chain ws) := rfl

@[simp] theorem chain_append (ws vs : List Written) :
    chain (ws ++ vs) = (chain ws).andThen (chain vs) := by
  induction ws with
  | nil => exact (nothing_andThen _).symm
  | cons w ws ih => rw [List.cons_append, chain_cons, chain_cons, ih, andThen_assoc]

theorem exists_ok_chain {ws : List Written} (h : ∀ w ∈ ws, ∃ n, w.outcome = .ok n) :
    ∃ n, chain ws = ⟨ws.flatMap Written.bytes, .ok n⟩ := by
  induction ws with
  | nil => exact ⟨0, rfl⟩
  | cons w ws ih =>
    rw [List.forall_mem_cons] at h
    obtain ⟨n, hn⟩ := h.1
    obtain ⟨k, hk⟩ := ih h.2
    refine ⟨n + k, ?_⟩
    rw [chain_cons, andThen_of_ok hn, hk]
    rfl

/-- What follows a failure leaves no trace. -/
theorem chain_of_failure {before after : List Written} {e : WriteError}
    (hbefore : ∀ v ∈ before, ∃ n, v.outcome = .ok n) (hw : w.outcome = .error e) :
    chain (before ++ w :: after) = ⟨before.flatMap Written.bytes ++ w.bytes, .error e⟩ := by
  obtain ⟨n, hn⟩ := exists_ok_chain hbefore
  rw [chain_append, chain_cons, andThen_of_error hw, hn, andThen_of_ok rfl, hw]
  rfl

end Written

open Written

@[simp] theorem write_append (ps qs : List Piece) :
    write (ps ++ qs) = (write ps).andThen (write qs) := by
  induction ps with
  | nil => exact (nothing_andThen _).symm
  | cons p ps ih =>
    cases hp : p.encode with
    | error e => simp [write, hp, andThen]
    | ok bytes =>
      have hcons (rest : List Piece) :
          write (p :: rest) = (⟨bytes, .ok p.size⟩ : Written).andThen (write rest) := by
        rw [write, hp]
        rfl
      rw [List.cons_append, hcons, hcons, ih, andThen_assoc]

/-- Values that are written in one step. -/
inductive Scalar where
  | u8 (n : UInt8)
  | u16 (n : UInt16)
  | u32 (n : UInt32)
  | u64 (n : UInt64)
  | flag (b : Bool)
  | text (s : String)
  | data (d : Data)
  | fileType (t : FileType)

def Scalar.encode : Scalar → Written
  | u8 n => Wire.encode n
  | u16 n => Wire.encode n
  | u32 n => Wire.encode n
  | u64 n => Wire.encode n
  | flag b => Wire.encode b
  | text s => Wire.encode s
  | data d => Wire.encode d
  | fileType t => Wire.encode t

/-- The scalars in turn up to the first that cannot be written. -/
def encodeAll (ss : List Scalar) : Written := chain (ss.map Scalar.encode)

def optionScalars {α : Type} (f : α → List Scalar) : Option α → List Scalar
  | none => [.flag false]
  | some a => .flag true :: f a

/-- The elements of a sequence behind their number, of which four bytes are kept. -/
def listScalars {α : Type} (f : α → List Scalar) (as : List α) : List Scalar :=
  .u32 (UInt32.ofNat as.length) :: as.flatMap f

end Wire

open Wire Wire.Written

def FileStatus.scalars (s : FileStatus) : List Scalar :=
  [.fileType s.fileType, .data s.path, .u64 s.length, .u32 s.permission, .text s.owner,
    .text s.group, .u64 s.modificationTime, .u64 s.accessTime] ++
  optionScalars (fun n => [.u16 n]) s.blockReplication ++
  optionScalars (fun n => [.u64 n]) s.blockSize

def Page.scalars (p : Page) : List Scalar :=
  listScalars FileStatus.scalars p.entries ++ [.u32 p.remaining]

def ServerDefaults.scalars (d : ServerDefaults) : List Scalar :=
  [.u64 d.blockSize, .u32 d.bytesPerChecksum, .u32 d.writePacketSize, .u32 d.replication,
    .u32 d.fileBufferSize]

def FsStats.scalars (s : FsStats) : List Scalar :=
  [.u64 s.capacity, .u64 s.used, .u64 s.remaining, .u64 s.underReplicated, .u64 s.corruptBlocks,
    .u64 s.missingBlocks]

def Request.scalars : Request → List Scalar
  | connect protocol user => [.text protocol, .text user]
  | getServerDefaults => []
  | getFileInfo src => [.text src]
  | getListing src startAfter needLocation => [.text src, .data startAfter, .flag needLocation]
  | mkdirs src masked createParent => [.text src, .u32 masked, .flag createParent]
  | delete src recursive => [.text src, .flag recursive]
  | rename src dst overwrite => [.text src, .text dst, .flag overwrite]
  | setReplication src replication => [.text src, .u16 replication]
  | setPermission src permission => [.text src, .u32 permission]
  | setOwner src user group =>
    .text src :: optionScalars (fun s => [.text s]) user ++ optionScalars (fun s => [.text s]) group
  | setTimes src mtime atime =>
    .text src :: optionScalars (fun n => [.u64 n]) mtime ++ optionScalars (fun n => [.u64 n]) atime
  | getPreferredBlockSize src => [.text src]
  | getFsStats => []

def Reply.scalars : Reply → List Scalar
  | error code message => [.u32 code, .text message]
  | getServerDefaults defaults => defaults.scalars
  | getFileInfo status => optionScalars FileStatus.scalars status
  | getListing page => optionScalars Page.scalars page
  | mkdirs result | delete result | setReplication result => [.flag result]
  | getPreferredBlockSize size => [.u64 size]
  | getFsStats stats => stats.scalars
  | connect | rename | setPermission | setOwner | setTimes => []

def Body.scalars : Body → List Scalar
  | request r => r.scalars
  | reply r => r.scalars

/-- The type of a message and its number come before its fields. -/
def Message.scalars (m : Message) : List Scalar :=
  .u8 m.body.kind.number :: .u32 m.callId :: m.body.scalars

/-- The scalars of a value, in the order in which they are written. -/
def WireType.scalars : (t : WireType) → t.Value → List Scalar
  | u8, n => [.u8 n]
  | u16, n => [.u16 n]
  | u32, n => [.u32 n]
  | u64, n => [.u64 n]
  | bool, b => [.flag b]
  | text, s => [.text s]
  | data, d => [.data d]
  | fileType, f => [.fileType f]
  | option t, o => optionScalars t.scalars o
  | sequence t, as => listScalars t.scalars as
  | fileStatus, s => FileStatus.scalars s
  | page, p => Page.scalars p
  | serverDefaults, d => ServerDefaults.scalars d
  | fsStats, s => FsStats.scalars s
  | message, m => Message.scalars m

example : WireType.scalars (.sequence (.option .text)) [some "a", none] =
    [.u32 2, .flag true, .text "a", .flag false] := rfl

namespace Wire

@[simp] theorem encodeAll_nil : encodeAll [] = ⟨[], .ok 0⟩ := rfl

@[simp] theorem encodeAll_cons (s : Scalar) (ss : List Scalar) :
    encodeAll (s :: ss) = s.encode.andThen (encodeAll ss) := rfl

@[simp] theorem encodeAll_append (ss rs : List Scalar) :
    encodeAll (ss ++ rs) = (encodeAll ss).andThen (encodeAll rs) := by
  rw [encodeAll, List.map_append, Written.chain_append]
  rfl

/-- Alone, a scalar is written as among others. -/
theorem encode_eq_encodeAll (s : Scalar) : s.encode = encodeAll [s] :=
  (Written.andThen_nothing s.encode).symm

@[simp] theorem write_u8 (n : UInt8) : write (pieces n) = encodeAll [.u8 n] :=
  encode_eq_encodeAll (.u8 n)

@[simp] theorem write_u16 (n : UInt16) : write (pieces n) = encodeAll [.u16 n] :=
  encode_eq_encodeAll (.u16 n)

@[simp] theorem write_u32 (n : UInt32) : write (pieces n) = encodeAll [.u32 n] :=
  encode_eq_encodeAll (.u32 n)

@[simp] theorem write_u64 (n : UInt64) : write (pieces n) = encodeAll [.u64 n] :=
  encode_eq_encodeAll (.u64 n)

@[simp] theorem write_bool (b : Bool) : write (pieces b) = encodeAll [.flag b] :=
  encode_eq_encodeAll (.flag b)

@[simp] theorem write_string (s : String) : write (pieces s) = encodeAll [.text s] :=
  encode_eq_encodeAll (.text s)

@[simp] theorem write_data (d : Data) : write (pieces d) = encodeAll [.data d] :=
  encode_eq_encodeAll (.data d)

@[simp] theorem write_fileType (t : FileType) : write (pieces t) = encodeAll [.fileType t] :=
  encode_eq_encodeAll (.fileType t)

/-- Only as much of a number is written as fits in its bytes. -/
theorem littleEndian_mod (width n : ℕ) :
    littleEndian width (n % 256 ^ width) = littleEndian width n := by
  induction width generalizing n with
  | zero => rfl
  | succ width ih =>
    have hbyte : UInt8.ofNat (n % 256 ^ (width + 1)) = UInt8.ofNat n := by
      apply UInt8.toNat_inj.mp
      rw [UInt8.toNat_ofNat', UInt8.toNat_ofNat']
      exact Nat.mod_mod_of_dvd n (dvd_pow_self 256 width.succ_ne_zero)
    have hrest : n % 256 ^ (width + 1) / 256 = n / 256 % 256 ^ width := by
      rw [pow_succ']
      exact Nat.mod_mul_right_div_self n 256 (256 ^ width)
    rw [littleEndian, littleEndian, hbyte, hrest, ih]

section Parts

variable {α : Type} [Wire α] {f : α → List Scalar}

theorem write_option (hf : ∀ a, write (pieces a) = encodeAll (f a)) (o : Option α) :
    write (pieces o) = encodeAll (optionScalars f o) := by
  cases o with
  | none => rfl
  | some a =>
    refine (write_append (pieces true) (pieces a)).trans ?_
    rw [hf, write_bool, ← encodeAll_append]
    rfl

theorem write_flatMap (hf : ∀ a, write (pieces a) = encodeAll (f a)) (as : List α) :
    write (as.flatMap pieces) = encodeAll (as.flatMap f) := by
  induction as with
  | nil => rfl
  | cons a as ih =>
    rw [List.flatMap_cons, List.flatMap_cons, write_append, encodeAll_append, hf, ih]

theorem write_list (hf : ∀ a, write (pieces a) = encodeAll (f a)) (as : List α) :
    write (pieces as) = encodeAll (listScalars f as) := by
  have hcount : write [.number 4 as.length] = encodeAll [.u32 (UInt32.ofNat as.length)] := by
    have h : (UInt32.ofNat as.length).toNat = as.length % 256 ^ 4 := UInt32.toNat_ofNat'
    rw [← write_u32]
    change write _ = write [.number 4 (UInt32.ofNat as.length).toNat]
    rw [h]
    simp only [write, Piece.encode, littleEndian_mod]
    rfl
  refine (write_append [.number 4 as.length] (as.flatMap pieces)).trans ?_
  rw [hcount, write_flatMap hf, ← encodeAll_append]
  rfl

end Parts

end Wire

theorem FileStatus.write_pieces (s : FileStatus) :
    write (Wire.pieces s) = encodeAll s.scalars := by
  have hreplication := write_option write_u16 s.blockReplication
  have hsize := write_option write_u64 s.blockSize
  refine (write_append _ _).trans ?_
  simp only [write_append, write_fileType, write_data, write_u64, write_u32, write_string,
    hreplication, hsize, ← encodeAll_append]
  rfl

theorem Page.write_pieces (p : Page) : write (Wire.pieces p) = encodeAll p.scalars := by
  refine (write_append _ _).trans ?_
  rw [write_list FileStatus.write_pieces, write_u32, ← encodeAll_append]
  rfl

theorem ServerDefaults.write_pieces (d : ServerDefaults) :
    write (Wire.pieces d) = encodeAll d.scalars := by
  refine (write_append _ _).trans ?_
  simp only [write_append, write_u64, write_u32, ← encodeAll_append]
  rfl

theorem FsStats.write_pieces (s : FsStats) : write (Wire.pieces s) = encodeAll s.scalars := by
  refine (write_append _ _).trans ?_
  simp only [write_append, write_u64, ← encodeAll_append]
  rfl

theorem Request.write_fields (r : Request) : write r.fields = encodeAll r.scalars := by
  cases r with
  | setOwner src user group =>
    have huser := write_option write_string user
    have hgroup := write_option write_string group
    simp only [fields, write_append, write_string, huser, hgroup, ← encodeAll_append]
    rfl
  | setTimes src mtime atime =>
    have hmtime := write_option write_u64 mtime
    have hatime := write_option write_u64 atime
    simp only [fields, write_append, write_string, hmtime, hatime, ← encodeAll_append]
    rfl
  | getServerDefaults | getFsStats => rfl
  | _ => simp [fields, scalars]

theorem Reply.write_fields (r : Reply) : write r.fields = encodeAll r.scalars := by
  cases r with
  | getFileInfo status => exact write_option FileStatus.write_pieces status
  | getListing page => exact write_option Page.write_pieces page
  | getServerDefaults defaults => exact defaults.write_pieces
  | getFsStats stats => exact stats.write_pieces
  | error code message =>
    rw [fields, write_append, write_u32, write_string, ← encodeAll_append]
    rfl
  | mkdirs result | delete result | setReplication result => exact write_bool result
  | getPreferredBlockSize size => exact write_u64 size
  | connect | rename | setPermission | setOwner | setTimes => rfl

theorem Body.write_fields (b : Body) : write b.fields = encodeAll b.scalars := by
  cases b with
  | request r => exact r.write_fields
  | reply r => exact r.write_fields

theorem Message.write_pieces (m : Message) : write (Wire.pieces m) = encodeAll m.scalars := by
  refine (write_append _ _).trans ?_
  rw [write_append, write_u8, write_u32, m.body.write_fields, ← encodeAll_append,
    ← encodeAll_append]
  rfl

namespace WireType

/-- A value is written scalar by scalar. -/
theorem encode_eq_encodeAll_scalars : (t : WireType) → (v : t.Value) →
    Wire.encode v = encodeAll (t.scalars v)
  | u8, v => write_u8 v
  | u16, v => write_u16 v
  | u32, v => write_u32 v
  | u64, v => write_u64 v
  | bool, v => write_bool v
  | text, v => write_string v
  | data, v => write_data v
  | fileType, v => write_fileType v
  | option t, v => write_option t.encode_eq_encodeAll_scalars v
  | sequence t, v => write_list t.encode_eq_encodeAll_scalars v
  | fileStatus, v => FileStatus.write_pieces v
  | page, v => Page.write_pieces v
  | serverDefaults, v => ServerDefaults.write_pieces v
  | fsStats, v => FsStats.write_pieces v
  | message, v => Message.write_pieces v

end WireType

/-- A scalar that has no binary form. -/
def Wire.Scalar.Overlong : Scalar → Prop
  | text s => textLimit < s.utf8ByteSize
  | _ => False

theorem Wire.Scalar.encode_of_overlong {s : Scalar} (h : s.Overlong) :
    s.encode = ⟨[], .error .overlongText⟩ := by
  cases s with
  | text s =>
    have hp : (Piece.text s).encode = .error .overlongText := if_pos h
    simp only [encode, Wire.encode, pieces, write, hp]
  | _ => exact h.elim

theorem Wire.Scalar.encode_of_not_overlong {s : Scalar} (h : ¬s.Overlong) :
    ∃ n, s.encode.outcome = .ok n := by
  cases s with
  | text s =>
    have hw : ∀ p ∈ [Piece.text s], p.Writable :=
      List.forall_mem_singleton.mpr (Nat.not_lt.mp h)
    exact ⟨_, congrArg Written.outcome (write_of_writable hw)⟩
  | _ => exact ⟨_, rfl⟩

instance : DecidablePred Scalar.Overlong
  | .text s => inferInstanceAs (Decidable (textLimit < s.utf8ByteSize))
  | .u8 _ | .u16 _ | .u32 _ | .u64 _ | .flag _ | .data _ | .fileType _ => isFalse not_false

/-- What precedes the first overlong text is written, and nothing else. -/
theorem Wire.encodeAll_of_overlong {before after : List Scalar} {s : Scalar}
    (hbefore : ∀ r ∈ before, ¬r.Overlong) (hs : s.Overlong) :
    encodeAll (before ++ s :: after) =
      ⟨before.flatMap fun r => r.encode.bytes, .error .overlongText⟩ := by
  have hok : ∀ w ∈ before.map Scalar.encode, ∃ n, w.outcome = .ok n :=
    List.forall_mem_map.mpr fun r hr => Scalar.encode_of_not_overlong (hbefore r hr)
  have hw : s.encode = ⟨[], .error .overlongText⟩ := Scalar.encode_of_overlong hs
  rw [encodeAll, List.map_append, List.map_cons,
    chain_of_failure (e := .overlongText) hok (congrArg Written.outcome hw), hw,
    List.append_nil, List.flatMap_map]

namespace WireType

/-- Writing fails at the first text that is too long. All scalars before it have been written by
then, and nothing of the text or of what follows it. -/
theorem encode_stops_at_overlong (t : WireType) (v : t.Value) :
    ((∃ e, (Wire.encode v).outcome = .error e) ↔
      ∃ s, .text s ∈ t.scalars v ∧ textLimit < s.utf8ByteSize) ∧
    ∀ e, (Wire.encode v).outcome = .error e →
      e.kind = .invalidInput ∧ e.message = "String too long to encode" ∧
      ∃ before s after, t.scalars v = before ++ .text s :: after ∧ textLimit < s.utf8ByteSize ∧
        (∀ r, .text r ∈ before → r.utf8ByteSize ≤ textLimit) ∧
        (Wire.encode v).bytes = before.flatMap fun r => r.encode.bytes := by
  rw [t.encode_eq_encodeAll_scalars v]
  cases hfirst : (t.scalars v).find? (fun r => r.Overlong) with
  | none =>
    have hshort : ∀ r ∈ t.scalars v, ¬r.Overlong := by simpa using hfirst
    have hok : ∀ w ∈ (t.scalars v).map Scalar.encode, ∃ n, w.outcome = .ok n :=
      List.forall_mem_map.mpr fun r hr => Scalar.encode_of_not_overlong (hshort r hr)
    obtain ⟨n, hn⟩ := exists_ok_chain hok
    rw [encodeAll, hn]
    refine ⟨⟨?_, ?_⟩, ?_⟩
    · rintro ⟨e, he⟩
      cases he
    · rintro ⟨s, hs, hlong⟩
      exact absurd hlong (hshort _ hs)
    · intro e he
      cases he
  | some r =>
    obtain ⟨hr, before, after, hsplit, hbefore⟩ := List.find?_eq_some_iff_append.mp hfirst
    have hlong : r.Overlong := of_decide_eq_true hr
    have hshort : ∀ r ∈ before, ¬r.Overlong := by simpa using hbefore
    rw [hsplit, encodeAll_of_overlong hshort hlong]
    cases r with
    | text s =>
      refine ⟨iff_of_true ⟨_, rfl⟩ ⟨s, List.mem_append_cons_self, hlong⟩, fun e he => ?_⟩
      obtain rfl := Except.error.inj he
      refine ⟨rfl, rfl, before, s, after, rfl, hlong, fun text htext => ?_, rfl⟩
      exact Nat.not_lt.mp (hshort _ htext)
    | _ => exact hlong.elim

end WireType

end MetaFs
