import Mathlib
import MetaFs.Message
import MetaFs.Proofs.WireValues
/-! Messages are read back from what is written for them and from nothing else. The type number of
a message selects the reader of its fields. -/

namespace MetaFs

open Wire

section Fields

variable {α β γ δ : Type} [Wire α] [LawfulWire α] [Wire β] [LawfulWire β] [Wire γ] [LawfulWire γ]
variable {b t : List UInt8} {d : δ}

theorem Wire.run_one_field_eq_ok {f : α → δ} :
    (do return f (← Wire.read) : Reader δ).run b = .ok (d, t) ↔
      ∃ x, f x = d ∧ Begins (Wire.pieces x) b t := by
  constructor
  · intro h
    obtain ⟨x, s, hx, h⟩ := run_bind_read_eq_ok.mp h
    obtain ⟨rfl, rfl⟩ := run_pure_eq_ok.mp h
    exact ⟨x, rfl, hx⟩
  · rintro ⟨x, rfl, hx⟩
    exact run_bind_read hx

theorem Wire.run_two_fields_eq_ok {f : α → β → δ} :
    (do return f (← Wire.read) (← Wire.read) : Reader δ).run b = .ok (d, t) ↔
      ∃ x y, f x y = d ∧ Begins (Wire.pieces x ++ Wire.pieces y) b t := by
  constructor
  · intro h
    obtain ⟨x, s, hx, h⟩ := run_bind_read_eq_ok.mp h
    obtain ⟨y, rfl, hy⟩ := run_one_field_eq_ok.mp h
    exact ⟨x, y, rfl, hx.append hy⟩
  · rintro ⟨x, y, rfl, h⟩
    obtain ⟨s, hx, hy⟩ := begins_append.mp h
    exact (run_bind_read hx).trans <| run_bind_read hy

theorem Wire.run_three_fields_eq_ok {f : α → β → γ → δ} :
    (do return f (← Wire.read) (← Wire.read) (← Wire.read) : Reader δ).run b = .ok (d, t) ↔
      ∃ x y z, f x y z = d ∧ Begins (Wire.pieces x ++ Wire.pieces y ++ Wire.pieces z) b t := by
  constructor
  · intro h
    obtain ⟨x, s, hx, h⟩ := run_bind_read_eq_ok.mp h
    obtain ⟨y, z, rfl, hyz⟩ := run_two_fields_eq_ok.mp h
    exact ⟨x, y, z, rfl, List.append_assoc _ _ _ ▸ hx.append hyz⟩
  · rintro ⟨x, y, z, rfl, h⟩
    obtain ⟨s, h, hz⟩ := begins_append.mp h
    obtain ⟨r, hx, hy⟩ := begins_append.mp h
    exact (run_bind_read hx).trans <| (run_bind_read hy).trans <| run_bind_read hz

end Fields

theorem Request.run_reader_eq_ok {op : Operation} {r : Request} {b t : List UInt8} :
    (reader op).run b = .ok (r, t) ↔ r.operation = op ∧ Begins r.fields b t := by
  constructor
  · intro h
    cases op with
    | error => exact (run_fail_eq_ok.mp h).elim
    | getServerDefaults | getFsStats =>
      obtain ⟨rfl, rfl⟩ := run_pure_eq_ok.mp h
      exact ⟨rfl, begins_nil.mpr rfl⟩
    | getFileInfo | getPreferredBlockSize =>
      obtain ⟨x, rfl, hb⟩ := run_one_field_eq_ok.mp h
      exact ⟨rfl, hb⟩
    | connect | delete | setReplication | setPermission =>
      obtain ⟨x, y, rfl, hb⟩ := run_two_fields_eq_ok.mp h
      exact ⟨rfl, hb⟩
    | getListing | mkdirs | rename | setOwner | setTimes =>
      obtain ⟨x, y, z, rfl, hb⟩ := run_three_fields_eq_ok.mp h
      exact ⟨rfl, hb⟩
  · rintro ⟨rfl, h⟩
    cases r with
    | getServerDefaults | getFsStats => exact run_pure_eq_ok.mpr ⟨rfl, begins_nil.mp h⟩
    | getFileInfo | getPreferredBlockSize => exact run_one_field_eq_ok.mpr ⟨_, rfl, h⟩
    | connect | delete | setReplication | setPermission =>
      exact run_two_fields_eq_ok.mpr ⟨_, _, rfl, h⟩
    | getListing | mkdirs | rename | setOwner | setTimes =>
      exact run_three_fields_eq_ok.mpr ⟨_, _, _, rfl, h⟩

theorem Reply.run_reader_eq_ok {op : Operation} {r : Reply} {b t : List UInt8} :
    (reader op).run b = .ok (r, t) ↔ r.operation = op ∧ Begins r.fields b t := by
  constructor
  · intro h
    cases op with
    | error =>
      obtain ⟨x, y, rfl, hb⟩ := run_two_fields_eq_ok.mp h
      exact ⟨rfl, hb⟩
    | connect | rename | setPermission | setOwner | setTimes =>
      obtain ⟨rfl, rfl⟩ := run_pure_eq_ok.mp h
      exact ⟨rfl, begins_nil.mpr rfl⟩
    | getServerDefaults | getFileInfo | getListing | mkdirs | delete | setReplication
    | getPreferredBlockSize | getFsStats =>
      obtain ⟨x, rfl, hb⟩ := run_one_field_eq_ok.mp h
      exact ⟨rfl, hb⟩
  · rintro ⟨rfl, h⟩
    cases r with
    | error => exact run_two_fields_eq_ok.mpr ⟨_, _, rfl, h⟩
    | connect | rename | setPermission | setOwner | setTimes =>
      exact run_pure_eq_ok.mpr ⟨rfl, begins_nil.mp h⟩
    | getServerDefaults | getFileInfo | getListing | mkdirs | delete | setReplication
    | getPreferredBlockSize | getFsStats =>
      exact run_one_field_eq_ok.mpr ⟨_, rfl, h⟩

theorem Kind.ofNumber?_number (k : Kind) : ofNumber? k.number = some k := by
  obtain ⟨op, direction⟩ := k
  cases op <;> cases direction <;> rfl

theorem Kind.number_of_ofNumber? {n : UInt8} {k : Kind} (h : ofNumber? n = some k) :
    n = k.number := by
  obtain ⟨op, ho, rfl⟩ := Option.map_eq_some_iff.mp h
  have hn : n.toNat / 2 * 2 = op.number := by simpa using List.find?_some ho
  have hb := n.toNat_lt
  have hpar : n % 2 = 0 ↔ n.toNat % 2 = 0 := by
    rw [← UInt8.toNat_inj, UInt8.toNat_mod]
    rfl
  apply UInt8.toNat_inj.mp
  by_cases hd : n % 2 = 0
  · have he := hpar.mp hd
    simp only [number, hd, if_true, UInt8.toNat_ofNat']
    omega
  · have he := mt hpar.mpr hd
    simp only [number, hd, if_false, UInt8.toNat_ofNat']
    omega

theorem Kind.ofNumber?_eq_some {n : UInt8} {k : Kind} : ofNumber? n = some k ↔ n = k.number :=
  ⟨number_of_ofNumber?, fun h => h ▸ ofNumber?_number k⟩

instance : LawfulWire Message where
  run_read_eq_ok := by
    intro b t m
    constructor
    · intro h
      obtain ⟨number, s1, h1, h⟩ := run_bind_read_eq_ok.mp h
      obtain ⟨callId, s2, h2, h⟩ := run_bind_read_eq_ok.mp h
      split at h
      · exact (run_fail_eq_ok.mp h).elim
      · rename_i op hk
        obtain ⟨r, s3, h3, h⟩ := run_bind_eq_ok.mp h
        obtain ⟨rfl, rfl⟩ := run_pure_eq_ok.mp h
        obtain ⟨rfl, hfields⟩ := Request.run_reader_eq_ok.mp h3
        obtain rfl := Kind.ofNumber?_eq_some.mp hk
        exact (h1.append h2).append hfields
      · rename_i op hk
        obtain ⟨r, s3, h3, h⟩ := run_bind_eq_ok.mp h
        obtain ⟨rfl, rfl⟩ := run_pure_eq_ok.mp h
        obtain ⟨rfl, hfields⟩ := Reply.run_reader_eq_ok.mp h3
        obtain rfl := Kind.ofNumber?_eq_some.mp hk
        exact (h1.append h2).append hfields
    · intro h
      obtain ⟨s2, h, h3⟩ := begins_append.mp h
      obtain ⟨s1, h1, h2⟩ := begins_append.mp h
      refine (run_bind_read h1).trans <| (run_bind_read h2).trans ?_
      rw [Kind.ofNumber?_number]
      obtain ⟨callId, body⟩ := m
      cases body with
      | request r =>
        exact run_bind_eq_ok.mpr ⟨r, t, Request.run_reader_eq_ok.mpr ⟨rfl, h3⟩, rfl⟩
      | reply r =>
        exact run_bind_eq_ok.mpr ⟨r, t, Reply.run_reader_eq_ok.mpr ⟨rfl, h3⟩, rfl⟩

end MetaFs
