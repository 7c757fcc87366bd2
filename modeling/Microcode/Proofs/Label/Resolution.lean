import Microcode.Label
import Mathlib.Tactic

/-!
# When labels can be resolved

**Input.**  The definitions of a program, in the order of its lines, and the
names that it jumps to.

**Results.**
* `Definition.sort_snd_eq_nil_iff`: nothing is reported if and only if the names
  are different, and then every definition is kept.
* `Program.address?_eq_some_iff`: the table of different names gives a name the
  address of its definition.
* `Program.resolve_eq_ok_iff`: labels are resolved if and only if their names are
  different and every jump leads to a definition whose address fits.
* `Program.resolve_of_defined`: without doubled and missing names, only jumps
  that lead too far are reported.
-/

namespace Microcode

namespace Definition

/-- The entry of a definition in the label table. -/
def entry (d : Definition) : String × Nat :=
  (d.label.value, d.address)

/-- The names that some definitions define. -/
def names (ds : List Definition) : List String :=
  ds.map fun d => d.label.value

theorem find?_eq_none_iff
    (known : List Definition)
    (d : Definition) :
    known.find? (fun k => k.label.value == d.label.value) = none ↔
      d.label.value ∉ names known := by
  rw [List.find?_eq_none]
  simp [names]

/-- No definition is reported if and only if all names are new and different. -/
theorem sort_snd_eq_nil_iff
    (known ds : List Definition) :
    (sort known ds).2 = [] ↔
      (names ds).Nodup ∧ ∀ d ∈ ds, d.label.value ∉ names known := by
  induction ds generalizing known with
  | nil =>
      simp [sort, names]
  | cons d ds ih =>
      cases hfind : known.find? (fun k => k.label.value == d.label.value) with
      | some first =>
          have hknown : d.label.value ∈ names known := by
            by_contra hnew
            rw [(find?_eq_none_iff known d).2 hnew] at hfind
            cases hfind
          simp [sort, hfind, hknown]
      | none =>
          have hnew := (find?_eq_none_iff known d).1 hfind
          have hsort : (sort known (d :: ds)).2 = (sort (d :: known) ds).2 := by
            simp only [sort, hfind]
          rw [hsort, ih]
          simp only [names, List.map_cons, List.nodup_cons, List.mem_cons, not_or, List.mem_map,
            not_exists, not_and, forall_eq_or_imp] at hnew ⊢
          constructor
          · rintro ⟨hnodup, hds⟩
            exact ⟨⟨fun e he => (hds e he).1, hnodup⟩, hnew, fun e he => (hds e he).2⟩
          · rintro ⟨⟨hd, hnodup⟩, -, hds⟩
            exact ⟨hnodup, fun e he => ⟨hd e he, hds e he⟩⟩

/-- If no definition is reported, all of them are kept. -/
theorem sort_fst_eq
    {known ds : List Definition}
    (h : (sort known ds).2 = []) :
    (sort known ds).1 = ds := by
  induction ds generalizing known with
  | nil =>
      rfl
  | cons d ds ih =>
      cases hfind : known.find? (fun k => k.label.value == d.label.value) with
      | some first =>
          simp [sort, hfind] at h
      | none =>
          simp only [sort, hfind] at h ⊢
          rw [ih h]

end Definition

section Lookup

/-- Among entries of different names, a name is found with its own address. -/
theorem lookup_eq_some_iff
    {entries : List (String × Nat)}
    (hnodup : (entries.map Prod.fst).Nodup)
    (name : String)
    (address : Nat) :
    entries.lookup name = some address ↔ (name, address) ∈ entries := by
  constructor
  · intro h
    obtain ⟨before, after, heq, -⟩ := List.lookup_eq_some_iff.1 h
    simp [heq]
  · intro h
    induction entries with
    | nil =>
        cases h
    | cons e entries ih =>
        obtain ⟨hnew, hrest⟩ := List.nodup_cons.1 hnodup
        rcases List.mem_cons.1 h with rfl | h
        · simp
        · have hne : name ≠ e.1 := by
            rintro rfl
            exact hnew (List.mem_map.2 ⟨(e.1, address), h, rfl⟩)
          rw [List.lookup_cons, beq_eq_false_iff_ne.2 hne]
          exact ih hrest h

theorem lookup_eq_none_iff
    (entries : List (String × Nat))
    (name : String) :
    entries.lookup name = none ↔ name ∉ entries.map Prod.fst := by
  rw [List.lookup_eq_none_iff, List.mem_map]
  simp only [bne_iff_ne, ne_eq, not_exists, not_and, eq_comm (a := name)]

/-- A jump holds an address if and only if the table has it and it fits. -/
theorem LabelTable.target?_eq_some_iff
    (t : LabelTable)
    (name : String)
    (address : UInt8) :
    t.target? name = some address ↔ t.address? name = some address.toNat := by
  unfold LabelTable.target?
  cases t.address? name with
  | none =>
      simp
  | some a =>
      have hlt := address.toNat_lt
      by_cases ha : a < addressSpace
      · simp only [if_pos ha, Option.some.injEq]
        constructor
        · rintro rfl
          rw [UInt8.toNat_ofNat']
          exact (Nat.mod_eq_of_lt ha).symm
        · rintro rfl
          exact UInt8.ofNat_toNat
      · simp only [if_neg ha, Option.some.injEq, reduceCtorEq, false_iff]
        rintro rfl
        exact ha hlt

/-- An address that fits can be held by a jump. -/
theorem LabelTable.exists_target?
    {t : LabelTable}
    {name : String}
    {a : Nat}
    (h : t.address? name = some a)
    (hlt : a < addressSpace) :
    ∃ address : UInt8, t.target? name = some address ∧ address.toNat = a := by
  have htoNat : (UInt8.ofNat a).toNat = a := by
    rw [UInt8.toNat_ofNat']
    exact Nat.mod_eq_of_lt hlt
  exact ⟨UInt8.ofNat a, (t.target?_eq_some_iff _ _).2 (by rw [h, htoNat]), htoNat⟩

theorem LabelTable.target?_eq_none_iff
    (t : LabelTable)
    (name : String) :
    t.target? name = none ↔
      t.address? name = none ∨ ∃ a, t.address? name = some a ∧ addressSpace ≤ a := by
  unfold LabelTable.target?
  cases t.address? name with
  | none => simp
  | some a => simp

end Lookup

namespace Program

variable {p : Program}

/-- No name is defined twice. -/
def DefinesOnce (p : Program) : Prop :=
  (Definition.names p.definitions).Nodup

theorem duplicateErrors_eq_nil_iff :
    p.duplicateErrors = [] ↔ p.DefinesOnce := by
  rw [duplicateErrors, Definition.sort_snd_eq_nil_iff]
  simp [DefinesOnce, Definition.names]

/-- The table of different names lists all definitions. -/
theorem entries_of_definesOnce
    (h : p.DefinesOnce) :
    p.labelTable.entries = p.definitions.map Definition.entry := by
  rw [labelTable, Definition.sort_fst_eq (duplicateErrors_eq_nil_iff.2 h)]
  rfl

theorem nodup_entries
    (h : p.DefinesOnce) :
    (p.labelTable.entries.map Prod.fst).Nodup := by
  rw [entries_of_definesOnce h, List.map_map]
  exact h

/-- The table of different names gives a name the address of its definition. -/
theorem address?_eq_some_iff
    (h : p.DefinesOnce)
    (name : String)
    (address : Nat) :
    p.labelTable.address? name = some address ↔
      ∃ d ∈ p.definitions, d.label.value = name ∧ d.address = address := by
  rw [LabelTable.address?, lookup_eq_some_iff (nodup_entries h), entries_of_definesOnce h,
    List.mem_map]
  simp [Definition.entry]

theorem address?_eq_none_iff
    (h : p.DefinesOnce)
    (name : String) :
    p.labelTable.address? name = none ↔ name ∉ Definition.names p.definitions := by
  rw [LabelTable.address?, lookup_eq_none_iff, entries_of_definesOnce h, List.map_map]
  rfl

/-- No jump is reported as too far if and only if every address that is found fits. -/
theorem rangeErrors_eq_nil_iff :
    p.rangeErrors = [] ↔
      ∀ target ∈ p.targets, ∀ address, p.labelTable.address? target.value = some address →
        address < addressSpace := by
  simp only [rangeErrors, List.filterMap_eq_nil_iff]
  refine forall₂_congr fun target _ => ?_
  cases p.labelTable.address? target.value with
  | none => simp
  | some a => simp

/-- No name is reported as missing if and only if every jump finds an address. -/
theorem undefinedErrors_eq_nil_iff :
    p.undefinedErrors = [] ↔
      ∀ target ∈ p.targets, ∃ address, p.labelTable.address? target.value = some address := by
  have hmissing : p.undefinedErrors = [] ↔ p.missingTargets = [] := by
    unfold undefinedErrors
    split
    · next heq => simp [heq]
    · next heq => simp [heq]
  rw [hmissing, missingTargets, List.filter_eq_nil_iff]
  refine forall₂_congr fun target _ => ?_
  cases p.labelTable.address? target.value <;> simp

theorem resolve_eq_ok_iff_errors
    {t : LabelTable} :
    p.resolve = .ok t ↔
      p.duplicateErrors = [] ∧ p.rangeErrors = [] ∧ p.undefinedErrors = [] ∧
        p.labelTable = t := by
  unfold resolve
  split
  · next heq =>
      simp only [List.append_eq_nil_iff] at heq
      simp [heq]
  · next hne =>
      simp only [reduceCtorEq, false_iff]
      rintro ⟨hd, hr, hu, -⟩
      exact hne (by simp [hd, hr, hu])

/-- **Labels are resolved** if and only if no name is defined twice and every jump
leads to a definition whose address fits; the table then lists all definitions. -/
theorem resolve_eq_ok_iff
    {t : LabelTable} :
    p.resolve = .ok t ↔
      p.DefinesOnce ∧
      (∀ target ∈ p.targets,
        ∃ d ∈ p.definitions, d.label.value = target.value ∧ d.address < addressSpace) ∧
      t.entries = p.definitions.map Definition.entry := by
  rw [resolve_eq_ok_iff_errors, duplicateErrors_eq_nil_iff]
  refine and_congr_right fun honce => ?_
  rw [rangeErrors_eq_nil_iff, undefinedErrors_eq_nil_iff, ← and_assoc]
  refine and_congr ⟨?_, ?_⟩ ?_
  · rintro ⟨hrange, hdefined⟩ target htarget
    obtain ⟨address, haddress⟩ := hdefined target htarget
    obtain ⟨d, hd, hname, rfl⟩ := (address?_eq_some_iff honce _ _).1 haddress
    exact ⟨d, hd, hname, hrange target htarget _ haddress⟩
  · intro h
    have hfound : ∀ target ∈ p.targets, ∃ a, a < addressSpace ∧
        p.labelTable.address? target.value = some a := by
      intro target htarget
      obtain ⟨d, hd, hname, hlt⟩ := h target htarget
      exact ⟨d.address, hlt, (address?_eq_some_iff honce _ _).2 ⟨d, hd, hname, rfl⟩⟩
    refine ⟨fun target htarget address haddress => ?_, fun target htarget => ?_⟩
    · obtain ⟨a, hlt, ha⟩ := hfound target htarget
      rw [ha] at haddress
      exact Option.some.inj haddress ▸ hlt
    · obtain ⟨a, -, ha⟩ := hfound target htarget
      exact ⟨a, ha⟩
  · rw [← entries_of_definesOnce honce]
    constructor
    · rintro rfl
      rfl
    · intro heq
      obtain ⟨entries⟩ := t
      exact congrArg LabelTable.mk heq.symm

/-- Without doubled and missing names, only jumps that lead too far are reported. -/
theorem resolve_of_defined
    (honce : p.DefinesOnce)
    (hdefined : ∀ target ∈ p.targets, target.value ∈ Definition.names p.definitions) :
    p.resolve = if p.rangeErrors = [] then .ok p.labelTable else .error p.rangeErrors := by
  have hundefined : p.undefinedErrors = [] := by
    rw [undefinedErrors_eq_nil_iff]
    intro target htarget
    rw [← Option.isSome_iff_exists, Option.isSome_iff_ne_none]
    intro hnone
    exact (address?_eq_none_iff honce _).1 hnone (hdefined target htarget)
  unfold resolve
  rw [duplicateErrors_eq_nil_iff.2 honce, hundefined, List.nil_append, List.append_nil]
  cases p.rangeErrors <;> rfl

end Program
end Microcode
