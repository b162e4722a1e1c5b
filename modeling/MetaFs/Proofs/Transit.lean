import Mathlib
import MetaFs.Proofs.Framing
import MetaFs.Proofs.WireFormat
/-! How a message gets from one end to the other. What is written for a message is read back as that
message as long as its bytes can be counted in four bytes, which is so in every frame. -/

namespace MetaFs

namespace Wire

theorem length_bytesOf_append (ps qs : List Piece) :
    (bytesOf (ps ++ qs)).length = (bytesOf ps).length + (bytesOf qs).length := by
  rw [bytesOf_append, List.length_append]

theorem size_le_length_bytesOf {p : Piece} {ps : List Piece} (h : p ∈ ps) :
    p.size ≤ (bytesOf ps).length := by
  rw [length_bytesOf]
  exact List.single_le_sum (fun _ _ => Nat.zero_le _) _ (List.mem_map_of_mem h)

theorem length_bytesOf_pieces_le {α : Type} [Wire α] {a : α} {as : List α} (h : a ∈ as) :
    (bytesOf (pieces a)).length ≤ (bytesOf (pieces as)).length := by
  obtain ⟨before, after, rfl⟩ := List.append_of_mem h
  show _ ≤ (bytesOf (.number 4 _ :: (before ++ a :: after).flatMap pieces)).length
  rw [bytesOf_cons, List.length_append, List.flatMap_append, List.flatMap_cons,
    length_bytesOf_append, length_bytesOf_append]
  omega

/-- A sequence is not longer than the bytes of its values, each of which has at least one. -/
theorem length_le_length_bytesOf {α : Type} [Wire α] (as : List α)
    (one : ∀ a : α, 1 ≤ (bytesOf (pieces a)).length) :
    as.length ≤ (bytesOf (as.flatMap pieces)).length := by
  induction as with
  | nil => exact Nat.zero_le _
  | cons a as ih =>
    have ha := one a
    rw [List.flatMap_cons, length_bytesOf_append, List.length_cons]
    omega

section Fits

/-! The lengths within a value are smaller than the length of all of it. -/

theorem fits_of_length_data {d : Data} (h : (bytesOf (pieces d)).length < UInt32.size) :
    d.Fits := by
  have hraw : Piece.raw d.bytes ∈ pieces d := by simp [pieces]
  exact Nat.lt_of_le_of_lt (size_le_length_bytesOf hraw) h

theorem fits_of_length_fileStatus {s : FileStatus}
    (h : (bytesOf (pieces s)).length < UInt32.size) : s.Fits := by
  have hraw : Piece.raw s.path.bytes ∈ pieces s := by simp [pieces]
  exact Nat.lt_of_le_of_lt (size_le_length_bytesOf hraw) h

theorem fits_of_length_page {p : Page} (h : (bytesOf (pieces p)).length < UInt32.size) :
    p.Fits := by
  have hsplit : (bytesOf (pieces p)).length =
      (bytesOf (pieces p.entries)).length + (bytesOf (pieces p.remaining)).length :=
    length_bytesOf_append _ _
  refine ⟨?_, fun s hs => ?_⟩
  -- An entry has at least one byte, so that there are no more of them than bytes.
  · have hone (s : FileStatus) : 1 ≤ (bytesOf (pieces s)).length := by
      have hkind : Piece.number 1 s.fileType.code.toNat ∈ pieces s := by simp [pieces]
      exact size_le_length_bytesOf hkind
    have hcount := length_le_length_bytesOf p.entries hone
    have hentries : (bytesOf (pieces p.entries)).length =
        4 + (bytesOf (p.entries.flatMap pieces)).length :=
      length_bytesOf_append [.number 4 p.entries.length] _
    omega
  · have hle := length_bytesOf_pieces_le hs
    exact fits_of_length_fileStatus (by omega)

theorem fits_of_length_option {α : Type} [Wire α] {Fits : α → Prop}
    (fits : ∀ a : α, (bytesOf (pieces a)).length < UInt32.size → Fits a) {o : Option α}
    (h : (bytesOf (pieces o)).length < UInt32.size) : ∀ a ∈ o, Fits a := by
  rintro a ⟨rfl⟩
  have hsplit : (bytesOf (pieces (some a))).length =
      (bytesOf (pieces true)).length + (bytesOf (pieces a)).length := length_bytesOf_append _ _
  exact fits a (by omega)

theorem fits_of_length_body {b : Body} (h : (bytesOf b.fields).length < UInt32.size) :
    b.Fits := by
  cases b with
  | request r =>
    cases r with
    | getListing src startAfter needLocation =>
      have hsplit : (bytesOf (pieces src ++ pieces startAfter ++ pieces needLocation)).length =
          (bytesOf (pieces src)).length + (bytesOf (pieces startAfter)).length +
            (bytesOf (pieces needLocation)).length := by
        rw [length_bytesOf_append, length_bytesOf_append]
      have hall : (bytesOf (pieces src ++ pieces startAfter ++ pieces needLocation)).length <
        UInt32.size := h
      exact fits_of_length_data (by omega)
    | _ => trivial
  | reply r =>
    cases r with
    | getFileInfo status => exact fits_of_length_option (fun _ => fits_of_length_fileStatus) h
    | getListing page => exact fits_of_length_option (fun _ => fits_of_length_page) h
    | _ => trivial

end Fits

end Wire

open Wire

theorem Wire.decode_of_encoded {m : Message} {bytes : List UInt8} (h : Wire.encoded m = .ok bytes)
    (short : bytes.length < UInt32.size) : Wire.decode bytes = .ok (m, []) := by
  obtain ⟨hw, rfl⟩ := Wire.encoded_eq_ok.mp h
  have hfields : (bytesOf m.body.fields).length ≤ (bytesOf (Wire.pieces m)).length := by
    have hsplit := length_bytesOf_append
      (Wire.pieces m.body.kind.number ++ Wire.pieces m.callId) m.body.fields
    exact hsplit ▸ Nat.le_add_left _ _
  have hfits : m.body.Fits := fits_of_length_body (Nat.lt_of_le_of_lt hfields short)
  have hrange := allInRange_message.mpr hfits
  exact run_read_eq_ok.mpr ⟨fun p hp => ⟨hw p hp, hrange p hp⟩, (List.append_nil _).symm⟩

/-- The frame is that of the message, and its content is read as the message. -/
def Message.FramedAs (m : Message) (frame : List UInt8) : Prop :=
  ∃ bytes, Frame.encode? bytes = some frame ∧ Wire.encoded m = .ok bytes ∧
    Wire.decode bytes = .ok (m, [])

theorem Message.framedAs {m : Message} {bytes frame : List UInt8}
    (hbytes : Wire.encoded m = .ok bytes) (hframe : Frame.encode? bytes = some frame) :
    m.FramedAs frame := by
  have hle : bytes.length ≤ Frame.limit := (Frame.encode?_eq_some.mp hframe).1
  have hlimit : Frame.limit < UInt32.size := by decide
  exact ⟨bytes, hframe, hbytes, decode_of_encoded hbytes (Nat.lt_of_le_of_lt hle hlimit)⟩

/-- A message travels when it can be written and fits a frame that the other end takes. -/
def Message.Travels (m : Message) : Prop :=
  ∃ bytes, Wire.encoded m = .ok bytes ∧ Frame.Receivable bytes

/-- A body that travels under any number. -/
def Body.Travels (b : Body) : Prop :=
  ∀ callId, (⟨callId, b⟩ : Message).Travels

theorem Wire.decode_of_receivable {m : Message} {bytes : List UInt8}
    (h : Wire.encoded m = .ok bytes) (fits : Frame.Receivable bytes) :
    Wire.decode bytes = .ok (m, []) := by
  have hlimit : Frame.limit < UInt32.size := by decide
  exact decode_of_encoded h (Nat.lt_of_le_of_lt (Nat.le_of_add_right_le fits) hlimit)

/-- The frame of a message that travels is read as the message, and nothing is left of it. -/
theorem Message.Travels.next {m : Message} (h : m.Travels) :
    ∃ bytes frame, Wire.encoded m = .ok bytes ∧ Frame.encode? bytes = some frame ∧
      Server.next frame = .message m [] := by
  obtain ⟨bytes, hbytes, hfits⟩ := h
  refine ⟨bytes, _, hbytes, Frame.encode?_of_receivable hfits, ?_⟩
  have hreceive : Frame.receive (Frame.framed bytes) = .frame bytes [] := by
    simpa using Frame.receive_framed hfits []
  exact Server.next_eq_message.mpr ⟨bytes, [], hreceive, decode_of_receivable hbytes hfits⟩

instance Wire.Piece.decidableWritable : DecidablePred Piece.Writable
  | .number .. => isTrue trivial
  | .raw _ => isTrue trivial
  | .text s => inferInstanceAs (Decidable (s.utf8ByteSize ≤ textLimit))

theorem Message.pieces_eq (m : Message) : Wire.pieces m =
    .number 1 m.body.kind.number.toNat :: .number 4 m.callId.toNat :: m.body.fields :=
  rfl

/-- The bytes of a message with the body, under whatever number. -/
def Body.size (b : Body) : ℕ := (b.fields.map Piece.size).sum + 5

theorem Message.length_bytesOf_pieces (m : Message) :
    (bytesOf (Wire.pieces m)).length = m.body.size := by
  rw [length_bytesOf, m.pieces_eq, Body.size]
  show 1 + (4 + (m.body.fields.map Piece.size).sum) = _
  omega

theorem Message.writable_pieces_iff_fields {m : Message} :
    (∀ p ∈ Wire.pieces m, p.Writable) ↔ ∀ p ∈ m.body.fields, p.Writable := by
  rw [m.pieces_eq, List.forall_mem_cons, List.forall_mem_cons]
  exact ⟨fun h => h.2.2, fun h => ⟨trivial, trivial, h⟩⟩

/-- Five bytes come before the fields of a message, and four bytes before all of it. -/
theorem Body.travels_iff {b : Body} :
    b.Travels ↔ (∀ p ∈ b.fields, p.Writable) ∧
      (b.fields.map Piece.size).sum + 9 ≤ Frame.limit := by
  constructor
  · intro h
    obtain ⟨bytes, hbytes, hfits⟩ := h 0
    obtain ⟨hw, rfl⟩ := Wire.encoded_eq_ok.mp hbytes
    rw [Frame.Receivable, Message.length_bytesOf_pieces, Body.size] at hfits
    exact ⟨Message.writable_pieces_iff_fields.mp hw, hfits⟩
  · intro h callId
    obtain ⟨hw, hsize⟩ := h
    refine ⟨_, Wire.encoded_eq_ok.mpr ⟨Message.writable_pieces_iff_fields.mpr hw, rfl⟩, ?_⟩
    rw [Frame.Receivable, Message.length_bytesOf_pieces, Body.size]
    exact hsize

instance : DecidablePred Body.Travels := fun _ => decidable_of_iff _ Body.travels_iff.symm

end MetaFs
