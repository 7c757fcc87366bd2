import Microcode.Word.Field
import Mathlib.Tactic

/-!
# Packing fields and cutting them out again

A word is a number whose digits are the fields.  Joining fields multiplies what
stands to the left by the weight of the new field, so the field that is followed
by `fs` is found above the total width of `fs`.

**Results.**  `Fields.fields_of_pack`: the fields of a packed word are the bytes
that were packed.
-/

namespace Microcode
namespace Fields

/-- The number that some fields spell after the digits that stand left of them. -/
def joinFrom (v : Fields) (word : Nat) (fs : List Field) : Nat :=
  fs.foldl (fun word f => (word <<< f.width) + (v f).toNat) word

theorem joinFrom_append
    (v : Fields)
    (word : Nat)
    (fs gs : List Field) :
    v.joinFrom word (fs ++ gs) = v.joinFrom (v.joinFrom word fs) gs := by
  simp [joinFrom]

/-- What stands to the left is moved by the width of the joined fields. -/
theorem joinFrom_eq
    (v : Fields)
    (word : Nat)
    (fs : List Field) :
    v.joinFrom word fs = word * 2 ^ Field.totalWidth fs + v.joinFrom 0 fs := by
  induction fs generalizing word with
  | nil =>
      simp [joinFrom, Field.totalWidth]
  | cons f fs ih =>
      have hstep : ∀ n, v.joinFrom n (f :: fs) = v.joinFrom ((n <<< f.width) + (v f).toNat) fs :=
        fun n => rfl
      have hwidth : Field.totalWidth (f :: fs) = f.width + Field.totalWidth fs := rfl
      rw [hstep word, hstep 0, ih ((word <<< f.width) + (v f).toNat),
        ih ((0 <<< f.width) + (v f).toNat), hwidth, Nat.shiftLeft_eq, Nat.shiftLeft_eq, pow_add]
      ring

/-- A byte that fits its field is below the weight of the field. -/
theorem toNat_lt_of_fits
    {v : Fields}
    {f : Field}
    (hfit : v.overflows f = false) :
    (v f).toNat < 2 ^ f.width := by
  simpa [overflows, Field.capacity, Nat.shiftLeft_eq] using hfit

/-- Fields that fit spell a number of their total width. -/
theorem joinFrom_zero_lt
    (v : Fields)
    (fs : List Field)
    (hfit : ∀ f ∈ fs, v.overflows f = false) :
    v.joinFrom 0 fs < 2 ^ Field.totalWidth fs := by
  induction fs with
  | nil =>
      simp [joinFrom, Field.totalWidth]
  | cons f fs ih =>
      have hf := toNat_lt_of_fits (hfit f (by simp))
      have hrest := ih (fun g hg => hfit g (List.mem_cons_of_mem _ hg))
      have hwidth : Field.totalWidth (f :: fs) = f.width + Field.totalWidth fs := rfl
      have hstep : v.joinFrom 0 (f :: fs) = v.joinFrom (v f).toNat fs := by
        simp [joinFrom]
      rw [hstep, joinFrom_eq, hwidth, pow_add]
      calc (v f).toNat * 2 ^ Field.totalWidth fs + v.joinFrom 0 fs
          < (v f).toNat * 2 ^ Field.totalWidth fs + 2 ^ Field.totalWidth fs := by omega
        _ = ((v f).toNat + 1) * 2 ^ Field.totalWidth fs := by ring
        _ ≤ 2 ^ f.width * 2 ^ Field.totalWidth fs := Nat.mul_le_mul_right _ hf

/-- The layout to the left of a field, the field, and the fields that it is
shifted by. -/
theorem exists_layout_split
    (f : Field) :
    ∃ left right : List Field,
      Field.layout = left ++ f :: right ∧ f.shift = Field.totalWidth right := by
  refine ⟨Field.layout.takeWhile (fun g => g != f),
    (Field.layout.dropWhile (fun g => g != f)).tail, ?_, Field.shift_eq_totalWidth f⟩
  cases f <;> decide

/-- The digits of a field are found above the fields to its right. -/
theorem toNat_shiftRight_mod
    (v : Fields)
    (f : Field)
    (hfit : ∀ g, v.overflows g = false) :
    (v.toNat >>> f.shift) % f.capacity = (v f).toNat := by
  obtain ⟨left, right, hlayout, hshift⟩ := exists_layout_split f
  have hlt : v.joinFrom 0 right < 2 ^ f.shift := by
    rw [hshift]
    exact v.joinFrom_zero_lt right (fun g _ => hfit g)
  have hf := toNat_lt_of_fits (hfit f)
  have hsplit : v.toNat =
      (v.joinFrom 0 left * 2 ^ f.width + (v f).toNat) * 2 ^ f.shift + v.joinFrom 0 right := by
    have hjoin : v.toNat = v.joinFrom 0 Field.layout := rfl
    rw [hjoin, hlayout, joinFrom_append, hshift, ← Nat.shiftLeft_eq _ f.width]
    exact joinFrom_eq v _ right
  rw [hsplit, Nat.shiftRight_eq_div_pow, Nat.add_comm, Nat.add_mul_div_right _ _ (by positivity),
    Nat.div_eq_of_lt hlt, Nat.zero_add, Field.capacity, Nat.shiftLeft_eq, Nat.one_mul,
    Nat.add_comm, Nat.add_mul_mod_self_right, Nat.mod_eq_of_lt hf]

/-- Packed bytes fit their fields. -/
theorem overflows_of_pack
    {v : Fields}
    {w : ControlWord}
    (h : v.pack = .ok w)
    (f : Field) :
    v.overflows f = false := by
  unfold pack at h
  split at h
  · simp at h
  · next hnone =>
      have hf := List.find?_eq_none.1 hnone f (Field.mem_layout f)
      simpa using hf

/-- Bytes that fit their fields can be packed. -/
theorem exists_pack
    {v : Fields}
    (h : ∀ f, v.overflows f = false) :
    ∃ w, v.pack = .ok w := by
  have hnone : Field.layout.find? v.overflows = none := by
    rw [List.find?_eq_none]
    intro f _
    simp [h f]
  exact ⟨_, by rw [pack, hnone]⟩

/-- The fields of a packed word are the bytes that were packed. -/
theorem fields_of_pack
    {v : Fields}
    {w : ControlWord}
    (h : v.pack = .ok w) :
    w.fields = v := by
  have hfit := overflows_of_pack h
  have hw : w = ⟨UInt32.ofNat v.toNat⟩ := by
    unfold pack at h
    split at h
    · simp at h
    · exact (Except.ok.inj h).symm
  have hlt : v.toNat < 2 ^ 32 := by
    have hjoin := v.joinFrom_zero_lt Field.layout (fun f _ => hfit f)
    rwa [Field.totalWidth_layout] at hjoin
  funext f
  have hbits : (UInt32.ofNat v.toNat).toNat = v.toNat := by
    rw [UInt32.toNat_ofNat']
    exact Nat.mod_eq_of_lt hlt
  rw [hw, ControlWord.fields, hbits, toNat_shiftRight_mod v f hfit, UInt8.ofNat_toNat]

end Fields
end Microcode
