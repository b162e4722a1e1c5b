import Mathlib
import MetaFs.Proofs.Calls
import MetaFs.Proofs.Transit
/-! The texts within a message. They alone can keep it from being written: those of a request are
the paths that it names and a few labels, and those of a reply are labels. -/

namespace MetaFs

/-- The texts that are no paths. -/
def Request.labels : Request → List String
  | connect protocol user => [protocol, user]
  | setOwner _ user group => user.toList ++ group.toList
  | _ => []

def FileStatus.labels (s : FileStatus) : List String := [s.owner, s.group]

def Page.labels (p : Page) : List String := p.entries.flatMap FileStatus.labels

def Reply.labels : Reply → List String
  | error _ message => [message]
  | getFileInfo status => status.toList.flatMap FileStatus.labels
  | getListing page => page.toList.flatMap Page.labels
  | _ => []

def Body.labels : Body → List String
  | request r => r.labels
  | reply r => r.labels

namespace Wire

def Piece.text? : Piece → Option String
  | text s => some s
  | number .. | raw _ => none

/-- The texts among the pieces, in their order. -/
def texts (ps : List Piece) : List String := ps.filterMap Piece.text?

@[simp] theorem texts_nil : texts [] = [] := rfl

@[simp] theorem texts_append (ps qs : List Piece) : texts (ps ++ qs) = texts ps ++ texts qs :=
  List.filterMap_append

@[simp] theorem texts_u8 (n : UInt8) : texts (pieces n) = [] := rfl

@[simp] theorem texts_u16 (n : UInt16) : texts (pieces n) = [] := rfl

@[simp] theorem texts_u32 (n : UInt32) : texts (pieces n) = [] := rfl

@[simp] theorem texts_u64 (n : UInt64) : texts (pieces n) = [] := rfl

@[simp] theorem texts_bool (b : Bool) : texts (pieces b) = [] := rfl

@[simp] theorem texts_string (s : String) : texts (pieces s) = [s] := rfl

@[simp] theorem texts_data (d : Data) : texts (pieces d) = [] := rfl

@[simp] theorem texts_fileType (t : FileType) : texts (pieces t) = [] := rfl

@[simp] theorem texts_serverDefaults (d : ServerDefaults) : texts (pieces d) = [] := rfl

@[simp] theorem texts_fsStats (s : FsStats) : texts (pieces s) = [] := rfl

section Parts

variable {α : Type} [Wire α]

@[simp] theorem texts_option (o : Option α) :
    texts (pieces o) = o.toList.flatMap fun a => texts (pieces a) := by
  cases o with
  | none => rfl
  | some a =>
    rw [Option.toList_some, List.flatMap_singleton]
    exact texts_append (pieces true) (pieces a)

@[simp] theorem texts_list (as : List α) :
    texts (pieces as) = as.flatMap fun a => texts (pieces a) :=
  List.filterMap_flatMap

end Parts

@[simp] theorem texts_fileStatus (s : FileStatus) : texts (pieces s) = s.labels := by
  refine (texts_append _ _).trans ?_
  simp [FileStatus.labels]

@[simp] theorem texts_page (p : Page) : texts (pieces p) = p.labels := by
  refine (texts_append _ _).trans ?_
  simp [Page.labels, List.flatMap]

end Wire

open Wire

/-- Every text of a request is a path that it names or one of its labels. -/
theorem Request.texts_fields (r : Request) : texts r.fields = r.paths ++ r.labels := by
  cases r <;> simp [fields, paths, labels]

theorem Reply.texts_fields (r : Reply) : texts r.fields = r.labels := by
  cases r <;> simp [fields, labels]

theorem Body.texts_fields (b : Body) : texts b.fields = b.paths ++ b.labels := by
  cases b with
  | request r => exact r.texts_fields
  | reply r => exact r.texts_fields

theorem Wire.writable_iff_texts {ps : List Piece} :
    (∀ p ∈ ps, p.Writable) ↔ ∀ text ∈ texts ps, text.utf8ByteSize ≤ textLimit := by
  constructor
  · intro h text htext
    obtain ⟨p, hp, hpiece⟩ := List.mem_filterMap.mp htext
    cases p with
    | text s =>
      obtain rfl := Option.some.inj hpiece
      exact h _ hp
    | number | raw => cases hpiece
  · intro h p hp
    cases p with
    | text s => exact h s (List.mem_filterMap.mpr ⟨_, hp, rfl⟩)
    | number | raw => trivial

/-- No label of the body is too long to be written. -/
def ShortLabels (body : Body) : Prop :=
  ∀ text ∈ body.labels, text.utf8ByteSize ≤ textLimit

theorem Body.writable_fields_iff {b : Body} :
    (∀ p ∈ b.fields, p.Writable) ↔ Client.ShortPaths b ∧ ShortLabels b := by
  rw [writable_iff_texts, b.texts_fields]
  exact List.forall_mem_append

theorem Message.writable_pieces_iff {m : Message} :
    (∀ p ∈ Wire.pieces m, p.Writable) ↔ Client.ShortPaths m.body ∧ ShortLabels m.body :=
  Message.writable_pieces_iff_fields.trans Body.writable_fields_iff

theorem Message.encoded_of_short {m : Message} (short : Client.ShortPaths m.body)
    (labels : ShortLabels m.body) : Wire.encoded m = .ok (bytesOf (Wire.pieces m)) :=
  Wire.encoded_eq_ok.mpr ⟨Message.writable_pieces_iff.mpr ⟨short, labels⟩, rfl⟩

theorem Message.encoded_of_long {m : Message}
    (h : ¬(Client.ShortPaths m.body ∧ ShortLabels m.body)) :
    Wire.encoded m = .error .overlongText := by
  cases he : Wire.encoded m with
  | ok bytes => exact absurd (Message.writable_pieces_iff.mp (Wire.encoded_eq_ok.mp he).1) h
  | error e =>
    cases e
    rfl

end MetaFs
