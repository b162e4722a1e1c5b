import Mathlib
import MetaFs.Record
import MetaFs.Proofs.Wire
/-! Every type of value is read back from what is written for it and from nothing else. Numbers,
texts and byte strings are compared directly; options, sequences and records follow their parts. -/

namespace MetaFs.Wire

/-- The reader of the type accepts what is written for a value, and nothing else. -/
class LawfulWire (α : Type) [Wire α] : Prop where
  run_read_eq_ok {b t : List UInt8} {a : α} :
    (read : Reader α).run b = .ok (a, t) ↔ Begins (pieces a) b t

export LawfulWire (run_read_eq_ok)

section Fields

variable {α β : Type} [Wire α] [LawfulWire α] {b t : List UInt8}

theorem run_bind_read_eq_ok {f : α → Reader β} {c : β} :
    (read >>= f).run b = .ok (c, t) ↔ ∃ a s, Begins (pieces a) b s ∧ (f a).run s = .ok (c, t) := by
  simp only [run_bind_eq_ok, run_read_eq_ok]

/-- Reading on after a value that is there. -/
theorem run_bind_read {f : α → Reader β} {a : α} (h : Begins (pieces a) b t) :
    (read >>= f).run b = (f a).run t :=
  run_bind_of_ok (run_read_eq_ok.mpr h)

end Fields

/-- A fixed-width number is read as itself when its type has just the numbers of that width. -/
theorem run_number_map_eq_ok {α : Type} {width : ℕ} {ofNat : ℕ → α} {toNat : α → ℕ}
    (hof : ∀ a, ofNat (toNat a) = a)
    (hto : ∀ n, n < 256 ^ width → toNat (ofNat n) = n) {b t : List UInt8} {a : α} :
    (do return ofNat (← number width) : Reader α).run b = .ok (a, t) ↔
      Begins [.number width (toNat a)] b t := by
  simp only [run_bind_eq_ok, run_number_eq_ok, run_pure_eq_ok]
  constructor
  · rintro ⟨n, s, h, rfl, rfl⟩
    have hn : n < 256 ^ width := (h.1 _ (List.mem_singleton_self _)).2
    rwa [hto n hn]
  · intro h
    exact ⟨toNat a, t, h, hof a, rfl⟩

instance : LawfulWire UInt8 :=
  ⟨run_number_map_eq_ok (fun _ => UInt8.ofNat_toNat) (fun _ h => UInt8.toNat_ofNat_of_lt' h)⟩

instance : LawfulWire UInt16 :=
  ⟨run_number_map_eq_ok (fun _ => UInt16.ofNat_toNat) (fun _ h => UInt16.toNat_ofNat_of_lt' h)⟩

instance : LawfulWire UInt32 :=
  ⟨run_number_map_eq_ok (fun _ => UInt32.ofNat_toNat) (fun _ h => UInt32.toNat_ofNat_of_lt' h)⟩

instance : LawfulWire UInt64 :=
  ⟨run_number_map_eq_ok (fun _ => UInt64.ofNat_toNat) (fun _ h => UInt64.toNat_ofNat_of_lt' h)⟩

instance : LawfulWire Bool where
  run_read_eq_ok := by
    intro b t a
    simp only [read, pieces, run_bind_eq_ok, run_number_eq_ok]
    constructor
    · rintro ⟨n, s, h, hk⟩
      split at hk
      · obtain ⟨rfl, rfl⟩ := run_pure_eq_ok.mp hk
        exact h
      · obtain ⟨rfl, rfl⟩ := run_pure_eq_ok.mp hk
        exact h
      · exact (run_fail_eq_ok.mp hk).elim
    · intro h
      refine ⟨a.toNat, t, h, ?_⟩
      cases a <;> exact run_pure_eq_ok.mpr ⟨rfl, rfl⟩

instance : LawfulWire String where
  run_read_eq_ok := by
    intro b t s
    simp only [read, pieces, run_bind_eq_ok, run_number_eq_ok, run_takeDeclared_eq_ok]
    constructor
    · rintro ⟨n, r, hn, bytes, u, ⟨rfl, rfl⟩, hk⟩
      have hb : bytes.length < 256 ^ 2 := (hn.1 _ (List.mem_singleton_self _)).2
      split at hk
      · rename_i cs hcs
        obtain ⟨rfl, rfl⟩ := run_pure_eq_ok.mp hk
        have hbytes : bytes = Utf8.encode (String.ofList cs).toList := by
          rw [String.toList_ofList]
          exact Utf8.eq_encode_of_decode hcs
        have hsize : bytes.length = (String.ofList cs).utf8ByteSize := by
          rw [hbytes, Utf8.length_encode]
        refine ⟨List.forall_mem_singleton.mpr ⟨?_, trivial⟩, ?_⟩
        · rw [Piece.Writable, ← hsize, textLimit]
          omega
        · rw [hn.2]
          simp only [bytesOf, List.flatMap_cons, List.flatMap_nil, List.append_nil, Piece.bytes,
            List.append_assoc, ← hsize, ← hbytes]
      · exact (run_fail_eq_ok.mp hk).elim
    · rintro ⟨h, rfl⟩
      have hs : s.utf8ByteSize ≤ textLimit := (h _ (List.mem_singleton_self _)).1
      refine ⟨s.utf8ByteSize, Utf8.encode s.toList ++ t, ⟨?_, ?_⟩, Utf8.encode s.toList, t,
        ⟨Utf8.length_encode s, rfl⟩, ?_⟩
      · rw [textLimit] at hs
        exact List.forall_mem_singleton.mpr ⟨trivial, by rw [Piece.InRange]; omega⟩
      · simp only [bytesOf, List.flatMap_cons, List.flatMap_nil, List.append_nil, Piece.bytes,
          List.append_assoc]
      · simp only [Utf8.decode_encode, String.ofList_toList]
        exact run_pure_eq_ok.mpr ⟨rfl, rfl⟩

instance {α : Type} [Wire α] [LawfulWire α] : LawfulWire (Option α) where
  run_read_eq_ok := by
    intro b t o
    refine (run_bind_read_eq_ok (α := Bool)).trans ?_
    constructor
    · rintro ⟨present, s, h, hk⟩
      cases present with
      | true =>
        obtain ⟨a, r, ha, hk⟩ := run_bind_read_eq_ok.mp hk
        obtain ⟨rfl, rfl⟩ := run_pure_eq_ok.mp hk
        exact h.append ha
      | false =>
        obtain ⟨rfl, rfl⟩ := run_pure_eq_ok.mp hk
        exact h
    · intro h
      cases o with
      | none => exact ⟨false, t, h, rfl⟩
      | some a =>
        obtain ⟨s, hs, ha⟩ := begins_append.mp h
        exact ⟨true, s, hs, run_bind_read ha⟩

theorem run_readMany_eq_ok {α : Type} [Wire α] [LawfulWire α] {n : ℕ} {done as : List α}
    {b t : List UInt8} :
    (readMany n done).run b = .ok (as, t) ↔
      ∃ more, more.length = n ∧ as = done.reverse ++ more ∧ Begins (more.flatMap pieces) b t := by
  induction n generalizing done b with
  | zero =>
    rw [readMany, run_pure_eq_ok]
    constructor
    · rintro ⟨rfl, rfl⟩
      exact ⟨[], rfl, (List.append_nil _).symm, begins_nil.mpr rfl⟩
    · rintro ⟨more, hm, rfl, h⟩
      obtain rfl := List.length_eq_zero_iff.mp hm
      exact ⟨(List.append_nil _).symm, begins_nil.mp h⟩
  | succ n ih =>
    simp only [readMany, run_bind_eq_ok, run_read_eq_ok, ih]
    constructor
    · rintro ⟨a, s, ha, more, rfl, rfl, h⟩
      refine ⟨a :: more, rfl, ?_, begins_append.mpr ⟨s, ha, h⟩⟩
      rw [List.reverse_cons, List.append_assoc, List.singleton_append]
    · rintro ⟨more, hm, rfl, h⟩
      obtain ⟨a, more, rfl⟩ := List.exists_cons_of_length_eq_add_one hm
      obtain ⟨s, ha, h⟩ := begins_append.mp h
      refine ⟨a, s, ha, more, Nat.succ.inj hm, ?_, h⟩
      rw [List.reverse_cons, List.append_assoc, List.singleton_append]

instance {α : Type} [Wire α] [LawfulWire α] : LawfulWire (List α) where
  run_read_eq_ok := by
    intro b t as
    simp only [read, pieces, run_bind_eq_ok, run_number_eq_ok, run_readMany_eq_ok]
    rw [begins_cons]
    constructor
    · rintro ⟨n, s, hn, more, rfl, rfl, h⟩
      exact ⟨s, hn, h⟩
    · rintro ⟨s, hn, h⟩
      exact ⟨as.length, s, hn, as, rfl, rfl, h⟩

end MetaFs.Wire

namespace MetaFs

open Wire

instance : LawfulWire Data where
  run_read_eq_ok := by
    intro b t d
    simp only [Wire.read, Wire.pieces, run_bind_eq_ok, run_number_eq_ok, run_takeDeclared_eq_ok,
      run_pure_eq_ok]
    rw [begins_cons]
    constructor
    · rintro ⟨n, s, hn, bytes, r, ⟨rfl, rfl⟩, rfl, rfl⟩
      refine ⟨bytes ++ r, hn, List.forall_mem_singleton.mpr ⟨trivial, trivial⟩, ?_⟩
      simp only [bytesOf, List.flatMap_cons, List.flatMap_nil, List.append_nil, Piece.bytes]
    · rintro ⟨s, hn, _, rfl⟩
      refine ⟨d.bytes.length, _, hn, d.bytes, t, ⟨rfl, ?_⟩, rfl, rfl⟩
      simp only [bytesOf, List.flatMap_cons, List.flatMap_nil, List.append_nil, Piece.bytes]

theorem FileType.ofCode?_eq_some {n : UInt8} {t : FileType} :
    ofCode? n = some t ↔ n = t.code := by
  constructor
  · intro h
    unfold ofCode? at h
    split at h <;> cases h <;> rfl
  · rintro rfl
    cases t <;> rfl

instance : LawfulWire FileType where
  run_read_eq_ok := by
    intro b t f
    refine (run_bind_read_eq_ok (α := UInt8)).trans ?_
    constructor
    · rintro ⟨n, s, hn, hk⟩
      split at hk
      · rename_i g hg
        obtain ⟨rfl, rfl⟩ := run_pure_eq_ok.mp hk
        rwa [FileType.ofCode?_eq_some.mp hg] at hn
      · exact (run_fail_eq_ok.mp hk).elim
    · intro h
      refine ⟨f.code, t, h, ?_⟩
      rw [FileType.ofCode?_eq_some.mpr rfl]
      rfl

instance : LawfulWire FileStatus where
  run_read_eq_ok := by
    intro b t v
    constructor
    · intro h
      obtain ⟨fileType, s1, h1, h⟩ := run_bind_read_eq_ok.mp h
      obtain ⟨path, s2, h2, h⟩ := run_bind_read_eq_ok.mp h
      obtain ⟨length, s3, h3, h⟩ := run_bind_read_eq_ok.mp h
      obtain ⟨permission, s4, h4, h⟩ := run_bind_read_eq_ok.mp h
      obtain ⟨owner, s5, h5, h⟩ := run_bind_read_eq_ok.mp h
      obtain ⟨group, s6, h6, h⟩ := run_bind_read_eq_ok.mp h
      obtain ⟨modificationTime, s7, h7, h⟩ := run_bind_read_eq_ok.mp h
      obtain ⟨accessTime, s8, h8, h⟩ := run_bind_read_eq_ok.mp h
      obtain ⟨blockReplication, s9, h9, h⟩ := run_bind_read_eq_ok.mp h
      obtain ⟨blockSize, s10, h10, h⟩ := run_bind_read_eq_ok.mp h
      obtain ⟨rfl, rfl⟩ := run_pure_eq_ok.mp h
      exact ((((((((h1.append h2).append h3).append h4).append h5).append h6).append h7).append
        h8).append h9).append h10
    · intro h
      obtain ⟨s9, h, h10⟩ := begins_append.mp h
      obtain ⟨s8, h, h9⟩ := begins_append.mp h
      obtain ⟨s7, h, h8⟩ := begins_append.mp h
      obtain ⟨s6, h, h7⟩ := begins_append.mp h
      obtain ⟨s5, h, h6⟩ := begins_append.mp h
      obtain ⟨s4, h, h5⟩ := begins_append.mp h
      obtain ⟨s3, h, h4⟩ := begins_append.mp h
      obtain ⟨s2, h, h3⟩ := begins_append.mp h
      obtain ⟨s1, h1, h2⟩ := begins_append.mp h
      exact (run_bind_read h1).trans <| (run_bind_read h2).trans <| (run_bind_read h3).trans <|
        (run_bind_read h4).trans <| (run_bind_read h5).trans <| (run_bind_read h6).trans <|
        (run_bind_read h7).trans <| (run_bind_read h8).trans <| (run_bind_read h9).trans <|
        run_bind_read h10

instance : LawfulWire Page where
  run_read_eq_ok := by
    intro b t v
    constructor
    · intro h
      obtain ⟨entries, s1, h1, h⟩ := run_bind_read_eq_ok.mp h
      obtain ⟨remaining, s2, h2, h⟩ := run_bind_read_eq_ok.mp h
      obtain ⟨rfl, rfl⟩ := run_pure_eq_ok.mp h
      exact h1.append h2
    · intro h
      obtain ⟨s1, h1, h2⟩ := begins_append.mp h
      exact (run_bind_read h1).trans <| run_bind_read h2

instance : LawfulWire ServerDefaults where
  run_read_eq_ok := by
    intro b t v
    constructor
    · intro h
      obtain ⟨blockSize, s1, h1, h⟩ := run_bind_read_eq_ok.mp h
      obtain ⟨bytesPerChecksum, s2, h2, h⟩ := run_bind_read_eq_ok.mp h
      obtain ⟨writePacketSize, s3, h3, h⟩ := run_bind_read_eq_ok.mp h
      obtain ⟨replication, s4, h4, h⟩ := run_bind_read_eq_ok.mp h
      obtain ⟨fileBufferSize, s5, h5, h⟩ := run_bind_read_eq_ok.mp h
      obtain ⟨rfl, rfl⟩ := run_pure_eq_ok.mp h
      exact (((h1.append h2).append h3).append h4).append h5
    · intro h
      obtain ⟨s4, h, h5⟩ := begins_append.mp h
      obtain ⟨s3, h, h4⟩ := begins_append.mp h
      obtain ⟨s2, h, h3⟩ := begins_append.mp h
      obtain ⟨s1, h1, h2⟩ := begins_append.mp h
      exact (run_bind_read h1).trans <| (run_bind_read h2).trans <| (run_bind_read h3).trans <|
        (run_bind_read h4).trans <| run_bind_read h5

instance : LawfulWire FsStats where
  run_read_eq_ok := by
    intro b t v
    constructor
    · intro h
      obtain ⟨capacity, s1, h1, h⟩ := run_bind_read_eq_ok.mp h
      obtain ⟨used, s2, h2, h⟩ := run_bind_read_eq_ok.mp h
      obtain ⟨remaining, s3, h3, h⟩ := run_bind_read_eq_ok.mp h
      obtain ⟨underReplicated, s4, h4, h⟩ := run_bind_read_eq_ok.mp h
      obtain ⟨corruptBlocks, s5, h5, h⟩ := run_bind_read_eq_ok.mp h
      obtain ⟨missingBlocks, s6, h6, h⟩ := run_bind_read_eq_ok.mp h
      obtain ⟨rfl, rfl⟩ := run_pure_eq_ok.mp h
      exact ((((h1.append h2).append h3).append h4).append h5).append h6
    · intro h
      obtain ⟨s5, h, h6⟩ := begins_append.mp h
      obtain ⟨s4, h, h5⟩ := begins_append.mp h
      obtain ⟨s3, h, h4⟩ := begins_append.mp h
      obtain ⟨s2, h, h3⟩ := begins_append.mp h
      obtain ⟨s1, h1, h2⟩ := begins_append.mp h
      exact (run_bind_read h1).trans <| (run_bind_read h2).trans <| (run_bind_read h3).trans <|
        (run_bind_read h4).trans <| (run_bind_read h5).trans <| run_bind_read h6

end MetaFs
