import Microcode.Proofs.Encoding.Safety
import Microcode.Proofs.Resources.Runs

/-!
# Cycles that runs of claims reach

**Input.**  Any list of claims on a fresh cycle, refused ones included.

**Algorithm.**  Every use that a claim adds is permitted, so every use of a reached
cycle is.  The C bus belongs to the first claim that asks for it; it is the only unit
that may be claimed for a register without a number of four bits, namely for `mar`.

**Results.**
* `permitted_attemptAll`: what a run claims is permitted.
* `c_attempt` and `c_attemptAll`: the step and the run of the C bus.
* `pack_of_mar` and `exists_shownBy`: when a cycle cannot be packed, and what its word
  shows otherwise.
* `attemptAll_reachable`: what is known of every reached cycle and its word.
-/

namespace Microcode

/-- The register for which a claim asks for the C bus. -/
def Claim.destination? : Claim → Option Register
  | output dest => if dest.isMutable ∧ dest ≠ .mbr ∧ dest ≠ .alu then some dest else none
  | _ => none

namespace Resources

/-- Fields that show what a cycle has claimed, zero where nothing is claimed. -/
structure ShownBy (s : Resources) (v : Fields) : Prop where
  amux : v .amux = if s.a = some .mbr then 1 else 0
  cond : v .cond = s.branch.elim 0 fun p => p.1.code
  alu : v .alu = s.alu.elim 0 AluOp.code
  sh : v .sh = s.shifter.elim 0 ShiftOp.code
  mbr : v .mbr = if s.mbr then 1 else 0
  mar : v .mar = if s.mar then 1 else 0
  rd : v .rd = if s.rd then 1 else 0
  wr : v .wr = if s.wr then 1 else 0
  enc : v .enc = if s.c.isSome then 1 else 0
  c : (v .c).toNat = s.c.elim 0 Register.index
  b : (v .b).toNat = s.b.elim 0 Register.index
  a : (v .a).toNat = s.busA.elim 0 Register.index
  addr : v .addr = s.branch.elim 0 fun p => p.2

section Claims

variable {s : Resources}

theorem permitted_attempt
    (hs : ∀ u, s.Has u → u.Permitted)
    (c : Claim) :
    ∀ u, (s.attempt c).1.Has u → u.Permitted := by
  intro u hu
  obtain ⟨us, hasked, huses⟩ := has_of_attempt s c
  rcases (huses u).1 hu with hold | hnew
  · exact hs u hold
  · exact (hasked u hnew).1

/-- What a run claims is permitted. -/
theorem permitted_attemptAll
    (hs : ∀ u, s.Has u → u.Permitted)
    (cs : List Claim) :
    ∀ u, (s.attemptAll cs).Has u → u.Permitted := by
  induction cs generalizing s with
  | nil =>
      exact hs
  | cons c cs ih =>
      exact ih (permitted_attempt hs c)

theorem c_attempt_output
    (dest : Register) :
    (s.attempt (.output dest)).1.c = s.c.or (Claim.output dest).destination? := by
  rw [attempt, Claim.destination?]
  split
  · next hdest =>
      obtain ⟨hmutable, hmbr, halu⟩ := hdest
      simp only [claimOutput, hmutable, hmbr, halu, Bool.not_true, Bool.false_eq_true, if_false]
      cases hc : s.c with
      | none => rfl
      | some taken =>
          by_cases htaken : taken = dest
          · simp [occupy, settle, htaken, bind, Except.bind, pure, Except.pure]
          · simp [occupy, settle, htaken, bind, Except.bind, hc]
  · next hdest =>
      rw [Option.or_none]
      unfold claimOutput
      split
      · rfl
      · next hmutable =>
          split
          · rfl
          · next hmbr =>
              split
              · rfl
              · next halu =>
                  exact absurd ⟨by simpa using hmutable, hmbr, halu⟩ hdest

/-- The C bus stays with its register, and a free one goes to the register for which it
is asked. -/
theorem c_attempt
    (s : Resources)
    (c : Claim) :
    (s.attempt c).1.c = s.c.or c.destination? := by
  by_cases hc : ∃ dest, c = .output dest
  · obtain ⟨dest, rfl⟩ := hc
    exact c_attempt_output dest
  · have hnone : c.destination? = none := by
      cases c with
      | output dest => exact absurd ⟨dest, rfl⟩ hc
      | _ => rfl
    obtain ⟨us, hasked, huses⟩ := has_of_attempt s c
    rw [hnone, Option.or_none]
    refine Option.ext fun r => ⟨fun hr => ?_, fun hr => (huses (.onC r)).2 (Or.inl hr)⟩
    rcases (huses (.onC r)).1 hr with hold | hnew
    · exact hold
    · exact absurd ⟨r, (eq_of_asks (hasked _ hnew).2).2.2.2 r rfl⟩ hc

/-- The C bus goes to the register for which it is asked first. -/
theorem c_attemptAll
    (s : Resources)
    (cs : List Claim) :
    (s.attemptAll cs).c = s.c.or (cs.findSome? Claim.destination?) := by
  induction cs generalizing s with
  | nil =>
      simp
  | cons c cs ih =>
      rw [attemptAll_cons, ih, c_attempt, Option.or_assoc, List.findSome?_cons]
      cases c.destination? <;> rfl

end Claims

section Words

variable {s : Resources}

theorem toNat_busCode
    {bus : Option Register}
    (h : ∀ r, bus = some r → r.OnBuses) :
    (busCode bus).toNat = bus.elim 0 Register.index := by
  cases bus with
  | none => rfl
  | some r =>
      have hlt := Register.index_lt (h r rfl)
      rw [busCode, UInt8.toNat_ofNat', Option.elim_some]
      omega

/-- The fields of a sound cycle show what it has claimed. -/
theorem Sound.shownBy_fields
    (h : s.Sound) :
    s.ShownBy s.fields where
  amux := by simp [fields, lineCode]
  cond := by cases hb : s.branch <;> simp [fields, hb]
  alu := by cases ha : s.alu <;> simp [fields, ha]
  sh := by cases hs : s.shifter <;> simp [fields, hs]
  mbr := rfl
  mar := rfl
  rd := rfl
  wr := rfl
  enc := rfl
  c := toNat_busCode fun r hr => h.onBuses_c hr
  b := toNat_busCode fun r hr => h.onBuses_b hr
  a := by
    rw [fields_a]
    exact toNat_busCode fun r hr => h.onBuses_a hr
  addr := by cases hb : s.branch <;> simp [fields, hb]

/-- The C bus cannot be packed with `mar` on it, and no other field fails. -/
theorem pack_of_mar
    (hs : ∀ u, s.Has u → u.Permitted)
    (hc : s.c = some .mar) :
    s.pack = .error ⟨.c, 16⟩ := by
  have hsound : Sound { s with c := none } := by
    refine ⟨fun u hu => ?_, fun hmar => by cases hmar⟩
    cases u with
    | onC r => cases hu
    | _ => exact hs _ hu
  have hother : ∀ f, f ≠ .c → f ≠ .enc → fields { s with c := none } f = s.fields f := by
    intro f hf henc
    cases f with
    | c => exact absurd rfl hf
    | enc => exact absurd rfl henc
    | _ => rfl
  have hfits : ∀ f, f ≠ .c → (s.fields f).toNat < f.capacity := by
    intro f hf
    by_cases henc : f = .enc
    · subst henc
      exact lineCode_lt _
    · rw [← hother f hf henc]
      exact hsound.fits f
  have hoverflows : s.fields.overflows = fun f => decide (f = .c) := by
    funext f
    rw [Fields.overflows, decide_eq_decide]
    by_cases hf : f = .c
    · simp [hf, fields, hc, busCode, Register.index, Field.capacity, Field.width]
    · have hlt := hfits f hf
      simp only [hf, iff_false]
      omega
  rw [pack, Fields.pack, hoverflows]
  simp [Field.layout, fields, hc, busCode, Register.index]

/-- The word of a sound cycle shows what the cycle has claimed; it does not both read
and write, its shifter has a code in use, and it does not halt. -/
theorem exists_shownBy
    (hsound : s.Sound)
    (hexclusive : s.Exclusive) :
    ∃ w, s.pack = .ok w ∧ s.ShownBy w.fields ∧
      ¬ (w.fields .rd = 1 ∧ w.fields .wr = 1) ∧ w.fields .sh ≠ 3 ∧ w ≠ .halt := by
  obtain ⟨w, hw⟩ := hsound.exists_pack
  have hfields : w.fields = s.fields := Fields.fields_of_pack hw
  have hshown : s.ShownBy w.fields := hfields ▸ hsound.shownBy_fields
  refine ⟨w, hw, hshown, ?_, ?_, ne_halt_of_fields hfields⟩
  · rintro ⟨hrd, hwr⟩
    rw [hshown.rd] at hrd
    rw [hshown.wr] at hwr
    have hread : s.rd = true := by simpa using hrd
    have hwrite : s.wr = true := by simpa using hwr
    exact hexclusive ⟨hread, hwrite⟩
  · rw [hshown.sh]
    cases s.shifter with
    | none => decide
    | some op => cases op <;> decide

end Words

/-- **Reached cycles.**  Whatever claims are made on a fresh cycle, in whatever order
and whether they are granted or refused, the cycle does not both read and write memory,
its A side is free or carries `mbr` or a register with a number, its B bus is free or
carries a register with a number, and its C bus is free or leads to `mar` or to a
register with a number that can be written.

If the first claim for the C bus is for `mar`, the cycle cannot be packed, for the
number 16 does not fit the field of that bus.  Otherwise its word shows exactly what
has been claimed; it never starts both memory accesses, never holds the unused code of
the shifter, and never has all bits set. -/
theorem attemptAll_reachable
    (cs : List Claim) :
    let s := fresh.attemptAll cs
    ¬ (s.rd = true ∧ s.wr = true) ∧
    (∀ r, s.a = some r → r = .mbr ∨ r.OnBuses) ∧
    (∀ r, s.b = some r → r.OnBuses) ∧
    (∀ r, s.c = some r → r = .mar ∨ (r.OnBuses ∧ r.isMutable = true)) ∧
    ((cs.findSome? Claim.destination? = some .mar ∧ s.pack = .error ⟨.c, 16⟩) ∨
      (cs.findSome? Claim.destination? ≠ some .mar ∧
        ∃ w, s.pack = .ok w ∧ s.ShownBy w.fields ∧
          ¬ (w.fields .rd = 1 ∧ w.fields .wr = 1) ∧ w.fields .sh ≠ 3 ∧ w ≠ .halt)) := by
  intro s
  have hexclusive : s.Exclusive := exclusive_attemptAll exclusive_fresh cs
  have hpermitted : ∀ u, s.Has u → u.Permitted :=
    permitted_attemptAll (fun u hu => absurd hu (not_has_fresh u)) cs
  have hc : s.c = cs.findSome? Claim.destination? := c_attemptAll fresh cs
  refine ⟨hexclusive, fun r hr => ?_, fun r hr => ?_, fun r hr => ?_, ?_⟩
  · by_cases hmbr : r = .mbr
    · exact Or.inl hmbr
    · exact Or.inr (Register.onBuses_of_isReadable (hpermitted (.onA r) hr) hmbr)
  · obtain ⟨hread, hmbr⟩ : r.isReadable = true ∧ r ≠ .mbr := hpermitted (.onB r) hr
    exact Register.onBuses_of_isReadable hread hmbr
  · obtain ⟨hmutable, hmbr, halu⟩ : r.isMutable = true ∧ r ≠ .mbr ∧ r ≠ .alu :=
      hpermitted (.onC r) hr
    by_cases hmar : r = .mar
    · exact Or.inl hmar
    · exact Or.inr ⟨⟨hmar, hmbr, halu⟩, hmutable⟩
  · by_cases hmar : cs.findSome? Claim.destination? = some .mar
    · exact Or.inl ⟨hmar, pack_of_mar hpermitted (hc.trans hmar)⟩
    · exact Or.inr ⟨hmar, exists_shownBy ⟨hpermitted, fun hheld => hmar (hc.symm.trans hheld)⟩
        hexclusive⟩

end Resources
end Microcode
