import Microcode.Proofs.Word.Packing

/-!
# Words and fields that fit are the same

**Input.**  A word, or a byte for every field.

**Algorithm.**  The digits of a word above a field, followed by the digits of the
field, are the digits above the fields that stand right of it.  So a word whose
fields are joined from the left grows back digit by digit.

**Results.**
* `toNat_fields_lt`: the fields of a word fit.
* `joinFrom_fields`: the leading digits of a word, joined with the fields that
  follow them, are the word; hence `pack_fields`.
* `exists_first_overflow`: bytes that do not fit are refused at the first field in
  layout order that overflows.
* `pack_bijective`: packing and cutting are inverse to each other.
-/

namespace Microcode

namespace Field

/-- A field is shifted by the fields that follow it in the layout. -/
theorem shift_eq_of_layout
    {before after : List Field}
    {f : Field}
    (h : layout = before ++ f :: after) :
    f.shift = totalWidth after := by
  obtain ⟨left, right, hsplit, hshift⟩ := Fields.exists_layout_split f
  have hnodup : layout.Nodup := by decide
  -- A field stands in the layout once, so it is split there in one way only.
  have hbefore : f ∉ before ∧ f ∉ after := by
    rw [h] at hnodup
    simpa using (List.nodup_middle.1 hnodup).notMem
  have hright : right = after :=
    ((List.append_cons_inj_of_notMem hbefore.1 hbefore.2).1 (h.symm.trans hsplit)).2.2.symm
  rw [hshift, hright]

end Field

theorem Fields.overflows_eq_false_iff
    (v : Fields)
    (f : Field) :
    v.overflows f = false ↔ (v f).toNat < 2 ^ f.width := by
  rw [Fields.overflows, decide_eq_false_iff_not, Nat.not_le, Field.capacity, Nat.shiftLeft_eq,
    Nat.one_mul]

namespace ControlWord

theorem toNat_fields
    (w : ControlWord)
    (f : Field) :
    (w.fields f).toNat = (w.bits.toNat >>> f.shift) % 2 ^ f.width := by
  have hcapacity : f.capacity = 2 ^ f.width := by
    rw [Field.capacity, Nat.shiftLeft_eq, Nat.one_mul]
  have hbyte : 2 ^ f.width ≤ 2 ^ 8 := by
    cases f <;> decide
  have hlt : (w.bits.toNat >>> f.shift) % 2 ^ f.width < 2 ^ f.width :=
    Nat.mod_lt _ (by positivity)
  rw [fields, hcapacity, UInt8.toNat_ofNat']
  exact Nat.mod_eq_of_lt (lt_of_lt_of_le hlt hbyte)

/-- The fields of a word fit. -/
theorem toNat_fields_lt
    (w : ControlWord)
    (f : Field) :
    (w.fields f).toNat < 2 ^ f.width := by
  rw [toNat_fields]
  exact Nat.mod_lt _ (by positivity)

/-- The digits above some last fields of the layout, joined with these fields, are
the word. -/
theorem joinFrom_fields
    (w : ControlWord)
    {before fs : List Field}
    (h : Field.layout = before ++ fs) :
    w.fields.joinFrom (w.bits.toNat >>> Field.totalWidth fs) fs = w.bits.toNat := by
  induction fs generalizing before with
  | nil =>
      rfl
  | cons f fs ih =>
      have hdigits : ((w.bits.toNat >>> Field.totalWidth (f :: fs)) <<< f.width) +
          (w.fields f).toNat = w.bits.toNat >>> Field.totalWidth fs := by
        have hwidth : Field.totalWidth (f :: fs) = Field.totalWidth fs + f.width :=
          Nat.add_comm _ _
        rw [toNat_fields, Field.shift_eq_of_layout h, hwidth, Nat.shiftRight_add,
          Nat.shiftLeft_eq, Nat.shiftRight_eq_div_pow _ f.width]
        exact Nat.div_add_mod' _ _
      have hrest : Field.layout = (before ++ [f]) ++ fs := by
        simpa using h
      calc w.fields.joinFrom (w.bits.toNat >>> Field.totalWidth (f :: fs)) (f :: fs)
          = w.fields.joinFrom (((w.bits.toNat >>> Field.totalWidth (f :: fs)) <<< f.width) +
              (w.fields f).toNat) fs := rfl
        _ = w.fields.joinFrom (w.bits.toNat >>> Field.totalWidth fs) fs := by rw [hdigits]
        _ = w.bits.toNat := ih hrest

/-- A word is packed from its own fields. -/
theorem pack_fields
    (w : ControlWord) :
    w.fields.pack = .ok w := by
  have hnumber : w.fields.toNat = w.bits.toNat := by
    have hlayout : Field.layout = [] ++ Field.layout := rfl
    have hjoin := w.joinFrom_fields hlayout
    rw [Field.totalWidth_layout, Nat.shiftRight_eq_div_pow,
      Nat.div_eq_of_lt w.bits.toNat_lt] at hjoin
    exact hjoin
  have hfits : Field.layout.find? w.fields.overflows = none := by
    rw [List.find?_eq_none]
    intro f _
    rw [(w.fields.overflows_eq_false_iff f).2 (w.toNat_fields_lt f)]
    exact Bool.false_ne_true
  rw [Fields.pack, hfits, hnumber, UInt32.ofNat_toNat]

end ControlWord

namespace Fields

variable {v : Fields}

theorem exists_pack_iff :
    (∃ w, v.pack = .ok w) ↔ ∀ f, (v f).toNat < 2 ^ f.width := by
  constructor
  · rintro ⟨w, hw⟩ f
    exact toNat_lt_of_fits (overflows_of_pack hw f)
  · intro h
    exact exists_pack fun f => (v.overflows_eq_false_iff f).2 (h f)

/-- Bytes of which one does not fit are refused at the first one in layout order. -/
theorem exists_first_overflow
    (h : ¬ ∀ f, (v f).toNat < 2 ^ f.width) :
    ∃ before f after, Field.layout = before ++ f :: after ∧
      (∀ g ∈ before, (v g).toNat < 2 ^ g.width) ∧ 2 ^ f.width ≤ (v f).toNat ∧
      v.pack = .error ⟨f, v f⟩ := by
  cases hfind : Field.layout.find? v.overflows with
  | none =>
      have hpack : ∃ w, v.pack = .ok w := ⟨_, by rw [pack, hfind]⟩
      exact absurd (exists_pack_iff.1 hpack) h
  | some f =>
      obtain ⟨hf, before, after, hlayout, hbefore⟩ := List.find?_eq_some_iff_append.1 hfind
      refine ⟨before, f, after, hlayout, fun g hg => ?_, ?_, by rw [pack, hfind]⟩
      · exact (v.overflows_eq_false_iff g).1 (by simpa using hbefore g hg)
      · rw [← Nat.not_lt, ← v.overflows_eq_false_iff f, hf]
        exact Bool.noConfusion

end Fields

/-- **The packed format is a bijection.**  The fields of every word fit and are packed
to that word again.  A byte for every field can be packed if and only if all of them
fit, and the fields of the word are then these bytes.  Otherwise packing is refused, and
the message names the first field in layout order that overflows, with its width and
its value. -/
theorem pack_bijective :
    (∀ w : ControlWord, (∀ f, (w.fields f).toNat < 2 ^ f.width) ∧ w.fields.pack = .ok w) ∧
    ∀ v : Fields,
      ((∃ w, v.pack = .ok w) ↔ ∀ f, (v f).toNat < 2 ^ f.width) ∧
      (∀ w, v.pack = .ok w → w.fields = v) ∧
      ((¬ ∀ f, (v f).toNat < 2 ^ f.width) →
        ∃ before f after o, Field.layout = before ++ f :: after ∧
          (∀ g ∈ before, (v g).toNat < 2 ^ g.width) ∧ 2 ^ f.width ≤ (v f).toNat ∧
          v.pack = .error o ∧ o.field = f ∧ o.value = v f ∧
          o.message = "field " ++ f.name ++ " overflows " ++ f.width.repr ++ " bits: " ++
            (v f).toNat.repr) := by
  refine ⟨fun w => ⟨w.toNat_fields_lt, w.pack_fields⟩, fun v => ?_⟩
  refine ⟨Fields.exists_pack_iff, fun w => Fields.fields_of_pack, fun h => ?_⟩
  obtain ⟨before, f, after, hlayout, hbefore, hf, herror⟩ := Fields.exists_first_overflow h
  exact ⟨before, f, after, ⟨f, v f⟩, hlayout, hbefore, hf, herror, rfl, rfl, rfl⟩

/-- Of two fields that overflow, the left one is named. -/
example :
    (Fields.pack fun f => if f = .c then 16 else if f = .a then 99 else 0) =
        .error ⟨.c, 16⟩ ∧
      Overflow.message ⟨.c, 16⟩ = "field C overflows 4 bits: 16" := by
  decide

end Microcode
