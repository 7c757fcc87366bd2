import Microcode.Proofs.Resources.Runs

/-!
# Claims that lead to a given cycle

**Input.**  A cycle that meets a list of claims all at once, and a cycle from which the
claims are made one after the other.

**Algorithm.**  As long as nothing has been claimed that the given cycle does not do, no
claim that it meets is refused.  A claim with a single way stays within the given cycle.
An addition may be placed the other way round; then it has found both inputs free or
equal, and the cycle is within the given one with its inputs exchanged.

**Results.**
* `exists_claim_of_within`: a claim that the given cycle meets is granted.
* `exists_claimAll_within`: claims with a single way stay within the given cycle.
* `exists_claim_add_within`: an addition stays within it up to an exchange of inputs.
* `Meets.exchanged_of_offInputs` and `Meets.exchanged_of_add`: what survives the
  exchange.
-/

namespace Microcode

/-- Whether a claim leaves both inputs of the ALU alone. -/
def Claim.offInputs : Claim → Bool
  | routeA _ | routeB _ | add _ _ | loadMar _ => false
  | _ => true

/-- Only an addition can be met in more than one way. -/
theorem Claim.ways_eq_or_add
    (c : Claim) :
    (∃ us, c.ways = [us]) ∨ ∃ left right, c = .add left right := by
  cases c with
  | add left right => exact Or.inr ⟨left, right, rfl⟩
  | _ => exact Or.inl ⟨_, rfl⟩

namespace Resources

/-- Every use of a cycle is one of another cycle. -/
def Within (s t : Resources) : Prop :=
  ∀ u, s.Has u → t.Has u

/-- The cycle with its two inputs exchanged. -/
def exchanged (t : Resources) : Resources :=
  { t with a := t.b, b := t.a }

/-- A cycle each of whose inputs is permitted in the place of the other. -/
structure Exchangeable (t : Resources) : Prop where
  a : ∀ r, t.a = some r → (Use.onB r).Permitted
  b : ∀ r, t.b = some r → (Use.onA r).Permitted

variable {s s' t : Resources} {c : Claim}

section Single

/-- A claim that a cycle meets is granted to every cycle within it; only the jump must
still be free. -/
theorem exists_claim_of_within
    (ht : t.Exclusive)
    (hs : s.Within t)
    (hc : t.Meets c)
    (hjump : ∀ jump address, c = .branch jump address → s.branch = none) :
    ∃ s', s.claim c = .ok s' := by
  obtain ⟨us, hus, hall⟩ := hc
  have hgranted : (s.attempt c).2 = none := by
    refine (attempt_snd_eq_none_iff s c).2 ⟨us, hus, fun u hu => ⟨(hall u hu).2, ?_⟩⟩
    by_cases hu' : ∃ jump address, u = .jump jump address
    · obtain ⟨jump, address, rfl⟩ := hu'
      exact hjump jump address ((eq_of_asks ⟨us, hus, hu⟩).2.2.1 jump address rfl)
    · push Not at hu'
      exact (ht.admits_of_has (hall u hu).1 hu').anti hs
  exact ⟨(s.attempt c).1, (claim_eq_ok_iff _ _ _).2 (Prod.ext rfl hgranted)⟩

/-- A granted claim with a single way stays within a cycle that meets it. -/
theorem Within.claim
    (hs : s.Within t)
    (hc : t.Meets c)
    (hways : ∃ us, c.ways = [us])
    (h : s.claim c = .ok s') :
    s'.Within t := by
  obtain ⟨us, hways⟩ := hways
  obtain ⟨vs, hvs, -, huses⟩ := has_of_claim h
  rw [hways, List.mem_singleton] at hvs
  subst hvs
  intro u hu
  rcases (huses u).1 hu with hold | hnew
  · exact hs u hold
  · obtain ⟨ws, hws, hall⟩ := hc
    rw [hways, List.mem_singleton] at hws
    subst hws
    exact (hall u hnew).1

/-- Claims with a single way, none of them the jump, are granted and stay within a cycle
that meets them. -/
theorem exists_claimAll_within
    {cs : List Claim}
    (ht : t.Exclusive)
    (hs : s.Within t)
    (hmet : ∀ c ∈ cs, t.Meets c)
    (hways : ∀ c ∈ cs, ∃ us, c.ways = [us])
    (hjump : ∀ c ∈ cs, ∀ jump address, c ≠ .branch jump address) :
    ∃ s', s.claimAll cs = .ok s' ∧ s'.Within t := by
  induction cs generalizing s with
  | nil =>
      exact ⟨s, rfl, hs⟩
  | cons c cs ih =>
      obtain ⟨s₁, hclaim⟩ := exists_claim_of_within ht hs (hmet c (by simp))
        fun jump address heq => absurd heq (hjump c (by simp) jump address)
      have hs₁ := hs.claim (hmet c (by simp)) (hways c (by simp)) hclaim
      obtain ⟨s', hrest, hs'⟩ := ih hs₁
        (fun d hd => hmet d (List.mem_cons_of_mem _ hd))
        (fun d hd => hways d (List.mem_cons_of_mem _ hd))
        (fun d hd => hjump d (List.mem_cons_of_mem _ hd))
      exact ⟨s', by rw [claimAll, hclaim]; exact hrest, hs'⟩

end Single

section Additions

/-- What a cycle does off its inputs it does with exchanged inputs too. -/
theorem has_exchanged_iff
    {u : Use}
    (hu : ∀ r, u ≠ .onA r ∧ u ≠ .onB r) :
    t.exchanged.Has u ↔ t.Has u := by
  cases u with
  | onA r => exact absurd rfl (hu r).1
  | onB r => exact absurd rfl (hu r).2
  | _ => rfl

/-- A claim that leaves the inputs alone does not ask for them. -/
theorem ne_input_of_asks
    (hc : c.offInputs = true)
    {u : Use}
    (hask : c.Asks u)
    (r : Register) :
    u ≠ .onA r ∧ u ≠ .onB r := by
  obtain ⟨us, hus, hu⟩ := hask
  cases c with
  | output dest =>
      rw [List.mem_singleton.1 hus, Register.outputUses] at hu
      split at hu
      · simp [List.mem_singleton.1 hu]
      · split at hu
        · cases hu
        · simp [List.mem_singleton.1 hu]
  | routeA r => cases hc
  | routeB r => cases hc
  | add left right => cases hc
  | loadMar r => cases hc
  | _ =>
      rw [List.mem_singleton.1 hus] at hu
      simp [List.mem_singleton.1 hu]

/-- The exchange keeps what is claimed off the inputs. -/
theorem Meets.exchanged_of_offInputs
    (h : t.Meets c)
    (hc : c.offInputs = true) :
    t.exchanged.Meets c := by
  obtain ⟨us, hus, hall⟩ := h
  refine ⟨us, hus, fun u hu => ⟨?_, (hall u hu).2⟩⟩
  exact (has_exchanged_iff (ne_input_of_asks hc ⟨us, hus, hu⟩)).2 (hall u hu).1

/-- The exchange keeps additions, for they can be met both ways. -/
theorem Meets.exchanged_of_add
    {left right : Register}
    (h : t.Meets (.add left right))
    (ht : t.Exchangeable) :
    t.exchanged.Meets (.add left right) := by
  obtain ⟨us, hus, hall⟩ := h
  rcases List.mem_pair.1 hus with rfl | rfl
  · have hA : t.a = some left := (hall (.onA left) (by simp)).1
    have hB : t.b = some right := (hall (.onB right) (by simp)).1
    refine ⟨[.onA right, .onB left], by simp [Claim.ways], ?_⟩
    simp [Has, exchanged, hA, hB, ht.a left hA, ht.b right hB]
  · have hA : t.a = some right := (hall (.onA right) (by simp)).1
    have hB : t.b = some left := (hall (.onB left) (by simp)).1
    refine ⟨[.onA left, .onB right], by simp [Claim.ways], ?_⟩
    simp [Has, exchanged, hA, hB, ht.a right hA, ht.b left hB]

/-- An addition that a cycle meets is granted to every cycle within it.  It may find both
inputs free and be placed the other way round. -/
theorem exists_claim_add_within
    {left right : Register}
    (ht : t.Exclusive)
    (hs : s.Within t)
    (hadd : t.Meets (.add left right)) :
    ∃ s', s.claim (.add left right) = .ok s' ∧
      (s'.Within t ∨ (s'.Within t.exchanged ∧ t.Exchangeable)) := by
  obtain ⟨s', hclaim⟩ := exists_claim_of_within ht hs hadd (by simp)
  refine ⟨s', hclaim, ?_⟩
  obtain ⟨us, hus, hall⟩ := hadd
  obtain ⟨vs, hvs, hpermitted, huses⟩ := has_of_claim hclaim
  by_cases hsame : vs = us
  · left
    intro u hu
    rcases (huses u).1 hu with hold | hnew
    · exact hs u hold
    · exact (hall u (hsame ▸ hnew)).1
  · right
    obtain ⟨x, y, rfl, rfl⟩ : ∃ x y, us = [.onA x, .onB y] ∧ vs = [.onA y, .onB x] := by
      rcases List.mem_pair.1 hus with rfl | rfl <;> rcases List.mem_pair.1 hvs with rfl | rfl
      · exact absurd rfl hsame
      · exact ⟨left, right, rfl, rfl⟩
      · exact ⟨right, left, rfl, rfl⟩
      · exact absurd rfl hsame
    have hA : t.a = some x := (hall (.onA x) (by simp)).1
    have hB : t.b = some y := (hall (.onB y) (by simp)).1
    have hA' : s'.a = some y := (huses (.onA y)).2 (by simp)
    have hB' : s'.b = some x := (huses (.onB x)).2 (by simp)
    refine ⟨fun u hu => ?_, fun r hr => ?_, fun r hr => ?_⟩
    · cases u with
      | onA r => exact hB.trans (hA'.symm.trans hu)
      | onB r => exact hA.trans (hB'.symm.trans hu)
      | _ =>
          rcases (huses _).1 hu with hold | hnew
          · exact hs _ hold
          · simp at hnew
    · obtain rfl : x = r := Option.some.inj (hA.symm.trans hr)
      exact hpermitted (.onB x) (by simp)
    · obtain rfl : y = r := Option.some.inj (hB.symm.trans hr)
      exact hpermitted (.onA y) (by simp)

/-- An addition, then claims off the inputs: all are granted by a cycle that meets them,
and stay within it or within the exchanged one. -/
theorem exists_claimAll_add_within
    {left right : Register}
    {cs : List Claim}
    (ht : t.Exclusive)
    (hs : s.Within t)
    (hmet : ∀ c ∈ .add left right :: cs, t.Meets c)
    (hoff : ∀ c ∈ cs, c.offInputs = true)
    (hjump : ∀ c ∈ cs, ∀ jump address, c ≠ .branch jump address) :
    ∃ s', s.claimAll (.add left right :: cs) = .ok s' ∧
      (s'.Within t ∨ (s'.Within t.exchanged ∧ t.Exchangeable)) := by
  have hways : ∀ c ∈ cs, ∃ us, c.ways = [us] := by
    intro c hc
    rcases c.ways_eq_or_add with hways | ⟨l, r, rfl⟩
    · exact hways
    · cases hoff _ hc
  have hrest : ∀ c ∈ cs, t.Meets c := fun c hc => hmet c (List.mem_cons_of_mem _ hc)
  obtain ⟨s₁, hclaim, hs₁ | ⟨hs₁, hexchange⟩⟩ :=
    exists_claim_add_within ht hs (hmet _ (List.mem_cons_self ..))
  · obtain ⟨s', hcs, hs'⟩ := exists_claimAll_within ht hs₁ hrest hways hjump
    exact ⟨s', by rw [claimAll, hclaim]; exact hcs, Or.inl hs'⟩
  · obtain ⟨s', hcs, hs'⟩ := exists_claimAll_within (t := t.exchanged) ht hs₁
      (fun c hc => (hrest c hc).exchanged_of_offInputs (hoff c hc)) hways hjump
    exact ⟨s', by rw [claimAll, hclaim]; exact hcs, Or.inr ⟨hs', hexchange⟩⟩

end Additions

end Resources
end Microcode
