import Microcode.Proofs.Encoding.Exactness
import Microcode.Proofs.Encoding.Halting
import Microcode.Proofs.Resources.Joint

/-!
# Sub-instructions in another order

**Input.**  Two instructions with the same sub-instructions in different orders, both of
which have a word.

**Algorithm.**  That a cycle performs sub-instructions does not depend on their order, so
the cycles behind both words meet the same claims and have no other uses.  A claim that
can be met in one way only gives both cycles the same uses.  What is left are the inputs
of an addition, which may be exchanged; then all four places of its two registers are in
use, and none of the registers can be `mbr`, which does not travel on the B bus.

**Results.**
* `Performs.of_perm`: performing does not depend on the order.
* `Performs.has_of_other`: two cycles that perform the same sub-instructions share every
  use, except the inputs of an addition.
* `Performs.inputs_cases`: the inputs are the same, or those of an addition, exchanged.
* `encode_reordered`: another order gives the same word or exchanges the A and B fields.
-/

namespace Microcode

/-- Fields that differ in nothing but the registers on the A and B buses, which are
exchanged. -/
def Fields.Exchanged (v v' : Fields) : Prop :=
  v' .a = v .b ∧ v' .b = v .a ∧ ∀ f, f ≠ .a → f ≠ .b → v' f = v f

/-- The registers that a sub-instruction adds. -/
def Subinstruction.addends? : Subinstruction → Option (Register × Register)
  | assign _ source => source.value.addends?
  | _ => none

section Cycles

variable {labels : LabelTable} {i : Instruction} {s t : Resources}

/-- Performing sub-instructions does not depend on their order. -/
theorem Performs.of_perm
    {subs subs' : List (Located Subinstruction)}
    (h : Performs labels subs t)
    (hperm : subs.Perm subs') :
    Performs labels subs' t where
  met sub hsub := h.met sub (hperm.mem_iff.2 hsub)
  asked u hu := by
    obtain ⟨sub, hsub, hclaims⟩ := h.asked u hu
    exact ⟨sub, hperm.mem_iff.1 hsub, hclaims⟩

/-- An addition among the claims of a sub-instruction is that of its right-hand side. -/
theorem Subinstruction.HasClaims.addends?_of_mem
    {sub : Located Subinstruction}
    {cs : List Claim}
    {left right : Register}
    (h : Subinstruction.HasClaims labels sub cs)
    (hadd : .add left right ∈ cs) :
    sub.value.addends? = some (left, right) := by
  obtain ⟨dest, source, hassign⟩ := h.exists_assign hadd rfl
  rw [hassign]
  rcases h.assign_cases hassign with ⟨-, r, -, rfl⟩ | ⟨-, rfl⟩
  · simp at hadd
  · refine Expr.add_mem_claims_iff.1 ?_
    simpa using hadd

/-- A sub-instruction that adds is an assignment. -/
theorem exists_assigns_of_addends?
    {sub : Located Subinstruction}
    {x y : Register}
    (hsub : sub ∈ i.subs)
    (h : sub.value.addends? = some (x, y)) :
    ∃ dest e, i.Assigns dest e ∧ e.addends? = some (x, y) := by
  cases hvalue : sub.value with
  | assign dest source =>
      rw [hvalue] at h
      exact ⟨dest.value, source.value, ⟨sub, hsub, dest, source, hvalue, rfl, rfl⟩, h⟩
  | _ =>
      rw [hvalue] at h
      cases h

/-- Two cycles that perform the same sub-instructions share every use, except the inputs
of an addition. -/
theorem Performs.has_of_other
    (hs : Performs labels i.subs s)
    (ht : Performs labels i.subs t)
    {u : Use}
    (hu : s.Has u) :
    t.Has u ∨
      ((∃ r, u = .onA r ∨ u = .onB r) ∧
        ∃ dest e left right, i.Assigns dest e ∧ e.addends? = some (left, right)) := by
  obtain ⟨sub, hsub, cs, hcs, c, hc, hask⟩ := hs.asked u hu
  obtain ⟨ds, hds, hmet⟩ := ht.met sub hsub
  have hsame : cs = ds := by
    rw [Subinstruction.HasClaims, hcs] at hds
    cases hds
    rfl
  subst hsame
  rcases c.ways_eq_or_add with ⟨us, hways⟩ | ⟨left, right, rfl⟩
  · obtain ⟨vs, hvs, hmem⟩ := hask
    rw [hways, List.mem_singleton] at hvs
    subst hvs
    exact Or.inl (has_of_meets_single (hmet c hc) hways hmem).1
  · obtain ⟨dest, e, ha, hsum⟩ := exists_assigns_of_addends? hsub (hcs.addends?_of_mem hc)
    refine Or.inr ⟨?_, dest, e, left, right, ha, hsum⟩
    simp only [Claim.Asks, Claim.ways, List.mem_cons, List.not_mem_nil, or_false,
      exists_eq_or_imp, exists_eq_left] at hask
    rcases hask with (rfl | rfl) | (rfl | rfl)
    · exact ⟨left, Or.inl rfl⟩
    · exact ⟨right, Or.inr rfl⟩
    · exact ⟨right, Or.inl rfl⟩
    · exact ⟨left, Or.inr rfl⟩

/-- Two cycles that perform the same sub-instructions agree but for their inputs. -/
theorem Performs.has_iff_of_off_inputs
    (hs : Performs labels i.subs s)
    (ht : Performs labels i.subs t)
    {u : Use}
    (hu : ∀ r, u ≠ .onA r ∧ u ≠ .onB r) :
    s.Has u ↔ t.Has u := by
  constructor
  · intro h
    rcases hs.has_of_other ht h with h | ⟨⟨r, h | h⟩, -⟩
    · exact h
    · exact absurd h (hu r).1
    · exact absurd h (hu r).2
  · intro h
    rcases ht.has_of_other hs h with h | ⟨⟨r, h | h⟩, -⟩
    · exact h
    · exact absurd h (hu r).1
    · exact absurd h (hu r).2

/-- Of two cycles that perform the same sub-instructions, the one with the inputs of the
other is that other. -/
theorem Performs.with_inputs
    (hs : Performs labels i.subs s)
    (ht : Performs labels i.subs t) :
    { t with a := s.a, b := s.b } = s := by
  refine Resources.eq_of_has_iff fun u => ?_
  have hother : (∀ r, u ≠ .onA r ∧ u ≠ .onB r) → (t.Has u ↔ s.Has u) :=
    ht.has_iff_of_off_inputs hs
  cases u with
  | onA r => rfl
  | onB r => rfl
  | _ => exact hother (by simp)

/-- The inputs of two cycles that perform the same sub-instructions are those of an
addition in its two orders, if they are not the same. -/
theorem Performs.inputs_cases
    (hs : Performs labels i.subs s)
    (ht : Performs labels i.subs t) :
    (s.a = t.a ∧ s.b = t.b) ∨
      ∃ dest e left right x y, i.Assigns dest e ∧ e.addends? = some (left, right) ∧
        (x = left ∧ y = right ∨ x = right ∧ y = left) ∧ x ≠ y ∧ x ≠ .mbr ∧ y ≠ .mbr ∧
        s.a = some x ∧ s.b = some y ∧ t.a = some y ∧ t.b = some x := by
  by_cases hsum : ∃ dest e left right, i.Assigns dest e ∧ e.addends? = some (left, right)
  · obtain ⟨dest, e, left, right, ha, hsum⟩ := hsum
    -- Each cycle has the addition in one of its orders.
    by_cases hinputs : s.a = t.a ∧ s.b = t.b
    · exact Or.inl hinputs
    · refine Or.inr ?_
      rcases hs.has_addends ha hsum with ⟨⟨hsa, -⟩, hsb, hsp⟩ | ⟨⟨hsa, -⟩, hsb, hsp⟩ <;>
        rcases ht.has_addends ha hsum with ⟨⟨hta, -⟩, htb, htp⟩ | ⟨⟨hta, -⟩, htb, htp⟩
      · exact absurd ⟨hsa.trans hta.symm, hsb.trans htb.symm⟩ hinputs
      · refine ⟨dest, e, left, right, left, right, ha, hsum, Or.inl ⟨rfl, rfl⟩, ?_, htp.2, hsp.2,
          hsa, hsb, hta, htb⟩
        rintro rfl
        exact hinputs ⟨hsa.trans hta.symm, hsb.trans htb.symm⟩
      · refine ⟨dest, e, left, right, right, left, ha, hsum, Or.inr ⟨rfl, rfl⟩, ?_, htp.2, hsp.2,
          hsa, hsb, hta, htb⟩
        rintro rfl
        exact hinputs ⟨hsa.trans hta.symm, hsb.trans htb.symm⟩
      · exact absurd ⟨hsa.trans hta.symm, hsb.trans htb.symm⟩ hinputs
  · have hshared : ∀ {s t : Resources}, Performs labels i.subs s → Performs labels i.subs t →
        ∀ u, s.Has u → t.Has u := by
      intro s t hs ht u hu
      rcases hs.has_of_other ht hu with h | ⟨-, h⟩
      · exact h
      · exact absurd h hsum
    refine Or.inl ⟨Option.ext fun r => ?_, Option.ext fun r => ?_⟩
    · exact ⟨hshared hs ht (.onA r), hshared ht hs (.onA r)⟩
    · exact ⟨hshared hs ht (.onB r), hshared ht hs (.onB r)⟩

/-- The fields of cycles that differ in exchanged inputs, none of them `mbr`. -/
theorem Performs.exchanged_fields
    (hs : Performs labels i.subs s)
    (ht : Performs labels i.subs t)
    {x y : Register}
    (hx : x ≠ .mbr)
    (hy : y ≠ .mbr)
    (hsa : s.a = some x)
    (hsb : s.b = some y)
    (hta : t.a = some y)
    (htb : t.b = some x) :
    s.fields.Exchanged t.fields := by
  refine ⟨by simp [Resources.fields, hta, hsb, hy], by simp [Resources.fields, htb, hsa, hx], ?_⟩
  intro f hfa hfb
  rw [← hs.with_inputs ht]
  cases f with
  | a => exact absurd rfl hfa
  | b => exact absurd rfl hfb
  | amux => simp [Resources.fields, hta, hsa, hx, hy]
  | _ => rfl

end Cycles

/-- **Another order can only exchange the registers of an addition.**  If an instruction
and another one with the same sub-instructions in any other order both have a word, the
words are equal, or they differ in nothing but the registers on the A and B buses, which
are exchanged.  Then the ALU adds, the multiplexer does not select `mbr`, and the
instruction adds two different registers, none of them `mbr`. -/
theorem encode_reordered
    (labels : LabelTable)
    (i j : Instruction)
    (w w' : ControlWord)
    (hperm : j.subs.Perm i.subs)
    (hi : i.encode labels = .ok w)
    (hj : j.encode labels = .ok w') :
    w' = w ∨
      (w.fields.Exchanged w'.fields ∧ w.fields .a ≠ w.fields .b ∧
        w.fields .amux = 0 ∧ w.fields .alu = 0 ∧
        ∃ dest e x y, i.Assigns dest e ∧ e.addends? = some (x, y) ∧
          x ≠ y ∧ x ≠ .mbr ∧ y ≠ .mbr) := by
  by_cases hhalt : ∃ sub ∈ i.subs, sub.value = .halt
  · obtain ⟨stop, hstop, hvalue⟩ := hhalt
    left
    rw [eq_halt_of_encodeFrom hi ⟨stop, hstop, hvalue⟩]
    exact eq_halt_of_encodeFrom hj ⟨stop, hperm.mem_iff.2 hstop, hvalue⟩
  · push Not at hhalt
    obtain ⟨s, hpack, hs⟩ := exists_performs_of_encode hhalt hi
    obtain ⟨t, hpack', ht'⟩ :=
      exists_performs_of_encode (fun sub hsub => hhalt sub (hperm.mem_iff.1 hsub)) hj
    have ht : Performs labels i.subs t := ht'.of_perm hperm
    rcases hs.inputs_cases ht with
      ⟨ha, hb⟩ | ⟨dest, e, left, right, x, y, hassigns, hsum, hxy, hne, hx, hy, hsa, hsb, hta, htb⟩
    · left
      have hsame : t = s := by
        rw [← hs.with_inputs ht, ha, hb]
      rw [← hsame, hpack'] at hpack
      exact Except.ok.inj hpack
    · right
      have hfields : w.fields = s.fields := Fields.fields_of_pack hpack
      have hfields' : w'.fields = t.fields := Fields.fields_of_pack hpack'
      have hadd : s.alu = some .add := by
        refine hs.has_alu hassigns (Or.inr ?_) (Expr.alu_mem_claims_iff.2 (Or.inl ?_))
        · rintro r rfl
          cases hsum
        · rcases e with _ | _ | _ | ⟨op, _ | _⟩ <;> simp [Expr.addends?] at hsum <;> rfl
      have hshown : s.ShownBy s.fields := hs.sound.shownBy_fields
      rw [hfields, hfields']
      refine ⟨hs.exchanged_fields ht hx hy hsa hsb hta htb, ?_, ?_, ?_, dest, e, left, right,
        hassigns, hsum, ?_⟩
      · intro hequal
        have hA : (s.fields .a).toNat = x.index := by
          rw [hshown.a, Resources.busA, hsa, if_neg (by simpa using hx), Option.elim_some]
        have hB : (s.fields .b).toNat = y.index := by
          rw [hshown.b, hsb, Option.elim_some]
        rw [hequal, hB] at hA
        exact hne (Register.index_injective hA).symm
      · rw [hshown.amux, hsa, if_neg (by simpa using hx)]
      · rw [hshown.alu, hadd]
        rfl
      · rcases hxy with ⟨rfl, rfl⟩ | ⟨rfl, rfl⟩
        · exact ⟨hne, hx, hy⟩
        · exact ⟨hne.symm, hy, hx⟩

/-- The sum that stands first decides which of its registers is on the A bus. -/
theorem encode_reordered_sums :
    let here {α : Type} (value : α) : Located α := ⟨value, .point ⟨1, 1⟩⟩
    let first := here (.assign (here .a) (here (.unary .leftShift (.add (here .b) (here .c)))))
    let second := here (.assign (here .mbr) (here (.add (here .c) (here .b))))
    let i : Instruction := ⟨none, 0, [first, second]⟩
    let j : Instruction := ⟨none, 0, [second, first]⟩
    i.encode ⟨[]⟩ = .ok ⟨0x051ACB00⟩ ∧ j.encode ⟨[]⟩ = .ok ⟨0x051ABC00⟩ ∧
      (ControlWord.mk 0x051ACB00).fields.Exchanged (ControlWord.mk 0x051ABC00).fields := by
  intro here first second i j
  have hi : i.encode ⟨[]⟩ = .ok ⟨0x051ACB00⟩ := by decide +kernel
  have hj : j.encode ⟨[]⟩ = .ok ⟨0x051ABC00⟩ := by decide +kernel
  have hperm : j.subs.Perm i.subs := .swap ..
  rcases encode_reordered ⟨[]⟩ i j _ _ hperm hi hj with heq | ⟨hexchanged, -⟩
  · exact absurd heq (by decide)
  · exact ⟨hi, hj, hexchanged⟩

end Microcode
