import Microcode.Proofs.Resources.Uses

/-!
# Runs of claims

**Input.**  A cycle and a list of claims.  Every claim is made, whether or not
those before it were granted, and a refused claim keeps what it has got: an
addition whose second register is refused keeps the A side for the first.

**Algorithm.**  A cycle admits a use if the unit is free or already does the same.
A claim is granted if and only if all uses of one of its ways are permitted and
admitted, and whatever the outcome, it adds admitted uses that it asks for.  Uses
are never taken back, so what a cycle refuses it refuses ever after.

**Results.**
* `attempt_snd_eq_none_iff`: when a claim is granted.
* `has_of_attempt` is the step: what a claim adds, granted or refused.
* `has_attemptAll` and `exclusive_attemptAll` are the run: no use is taken back,
  and no run reads and writes memory.
* `attemptAll_stable`: granted claims are granted again and change nothing, the
  jump apart, and refused claims are refused again.
-/

namespace Microcode
namespace Resources

/-- What is claimed after several claims, each of them made whatever became of those
before it. -/
def attemptAll (s : Resources) : List Claim → Resources
  | [] => s
  | c :: cs => (s.attempt c).1.attemptAll cs

@[simp] theorem attemptAll_nil
    (s : Resources) :
    s.attemptAll [] = s := by
  rfl

@[simp] theorem attemptAll_cons
    (s : Resources)
    (c : Claim)
    (cs : List Claim) :
    s.attemptAll (c :: cs) = (s.attempt c).1.attemptAll cs := by
  rfl

theorem attemptAll_append
    (s : Resources)
    (cs ds : List Claim) :
    s.attemptAll (cs ++ ds) = (s.attemptAll cs).attemptAll ds := by
  induction cs generalizing s with
  | nil =>
      rfl
  | cons c cs ih =>
      exact ih _

/-- Whether a use can be promised: its unit is free or already does the same.  The
jump is promised once, and memory is not read and written in one cycle. -/
def Admits (s : Resources) : Use → Prop
  | .onA r => fits s.a r = true
  | .onB r => fits s.b r = true
  | .onC r => fits s.c r = true
  | .alu op => fits s.alu op = true
  | .shifter op => fits s.shifter op = true
  | .jump _ _ => s.branch = none
  | .loadMbr => True
  | .loadMar => True
  | .read => s.wr = false
  | .write => s.rd = false

/-- A cycle that does not both read and write memory. -/
def Exclusive (s : Resources) : Prop :=
  ¬ (s.Has .read ∧ s.Has .write)

section Uses

variable {s t : Resources}

/-- A cycle is known by its uses. -/
theorem eq_of_has_iff
    (h : ∀ u, s.Has u ↔ t.Has u) :
    s = t := by
  have ha : s.a = t.a := Option.ext fun r => h (.onA r)
  have hb : s.b = t.b := Option.ext fun r => h (.onB r)
  have hc : s.c = t.c := Option.ext fun r => h (.onC r)
  have halu : s.alu = t.alu := Option.ext fun op => h (.alu op)
  have hshifter : s.shifter = t.shifter := Option.ext fun op => h (.shifter op)
  have hbranch : s.branch = t.branch := Option.ext fun p => h (.jump p.1 p.2)
  have hmbr : s.mbr = t.mbr := Bool.eq_iff_iff.2 (h .loadMbr)
  have hmar : s.mar = t.mar := Bool.eq_iff_iff.2 (h .loadMar)
  have hrd : s.rd = t.rd := Bool.eq_iff_iff.2 (h .read)
  have hwr : s.wr = t.wr := Bool.eq_iff_iff.2 (h .write)
  cases s
  cases t
  simp only at ha hb hc halu hshifter hbranch hmbr hmar hrd hwr
  subst ha hb hc halu hshifter hbranch hmbr hmar hrd hwr
  rfl

theorem fits_of_eq_some
    {α : Type}
    [DecidableEq α]
    {unit : Option α}
    {x : α}
    (h : unit = some x) :
    fits unit x = true := by
  rw [h, fits]
  exact decide_eq_true rfl

/-- A promised use can be promised again, except the jump. -/
theorem Exclusive.admits_of_has
    (hs : s.Exclusive)
    {u : Use}
    (hu : s.Has u)
    (hjump : ∀ jump address, u ≠ .jump jump address) :
    s.Admits u := by
  cases u with
  | onA r => exact fits_of_eq_some hu
  | onB r => exact fits_of_eq_some hu
  | onC r => exact fits_of_eq_some hu
  | alu op => exact fits_of_eq_some hu
  | shifter op => exact fits_of_eq_some hu
  | jump jump address => exact absurd rfl (hjump jump address)
  | loadMbr => trivial
  | loadMar => trivial
  | read => exact Bool.eq_false_iff.2 fun hwr => hs ⟨hu, hwr⟩
  | write => exact Bool.eq_false_iff.2 fun hrd => hs ⟨hrd, hu⟩

theorem fits_of_extends
    {α : Type}
    [DecidableEq α]
    {unit unit' : Option α}
    {x : α}
    (hle : ∀ y, unit = some y → unit' = some y)
    (h : fits unit' x = true) :
    fits unit x = true := by
  rw [fits_iff] at h ⊢
  intro taken htaken
  exact h taken (hle taken htaken)

/-- What a cycle with more uses admits, the cycle itself admits. -/
theorem Admits.anti
    {u : Use}
    (h : t.Admits u)
    (hle : ∀ v, s.Has v → t.Has v) :
    s.Admits u := by
  cases u with
  | onA r => exact fits_of_extends (fun y => hle (.onA y)) h
  | onB r => exact fits_of_extends (fun y => hle (.onB y)) h
  | onC r => exact fits_of_extends (fun y => hle (.onC y)) h
  | alu op => exact fits_of_extends (fun y => hle (.alu y)) h
  | shifter op => exact fits_of_extends (fun y => hle (.shifter y)) h
  | jump jump address =>
      have hfree : t.branch = none := h
      cases hbranch : s.branch with
      | none => exact hbranch
      | some p =>
          have hheld : t.branch = some p := hle (.jump p.1 p.2) hbranch
          rw [hfree] at hheld
          cases hheld
  | loadMbr => trivial
  | loadMar => trivial
  | read =>
      have hwr : t.wr = false := h
      refine Bool.eq_false_iff.2 fun hheld => ?_
      have hlater : t.wr = true := hle .write hheld
      rw [hwr] at hlater
      cases hlater
  | write =>
      have hrd : t.rd = false := h
      refine Bool.eq_false_iff.2 fun hheld => ?_
      have hlater : t.rd = true := hle .read hheld
      rw [hrd] at hlater
      cases hlater

end Uses

section Steps

variable {s : Resources}

theorem read_eq_ok_iff
    {t : Resources} :
    s.read = .ok t ↔ s.wr = false ∧ t = { s with rd := true } := by
  unfold read
  cases s.wr <;> simp [eq_comm]

theorem write_eq_ok_iff
    {t : Resources} :
    s.write = .ok t ↔ s.rd = false ∧ t = { s with wr := true } := by
  unfold write
  cases s.rd <;> simp [eq_comm]

theorem jump_eq_ok_iff
    {t : Resources}
    (jump : Jump)
    (address : UInt8) :
    s.jump jump address = .ok t ↔
      s.branch = none ∧ t = { s with branch := some (jump, address) } := by
  unfold Resources.jump
  cases s.branch <;> simp [eq_comm]

theorem settle_snd_eq_none_iff
    (result : Except Conflict Resources) :
    (s.settle result).2 = none ↔ ∃ t, result = .ok t := by
  cases result <;> simp [settle]

/-- Two registers are put on the A side and on the B bus if both are permitted and
admitted there. -/
theorem routeBoth_snd_eq_none_iff
    (onA onB : Register) :
    (s.routeBoth onA onB).2 = none ↔
      ∀ u ∈ [Use.onA onA, Use.onB onB], u.Permitted ∧ s.Admits u := by
  have hgranted : (s.routeBoth onA onB).2 = none ↔ ∃ t, s.routeBoth onA onB = (t, none) :=
    ⟨fun h => ⟨_, Prod.ext rfl h⟩, fun ⟨t, h⟩ => by rw [h]⟩
  rw [hgranted]
  simp only [routeBoth_eq_iff, routeA_eq_ok_iff, routeB_eq_ok_iff, List.forall_mem_cons,
    List.not_mem_nil, false_imp_iff, implies_true, and_true, Use.Permitted, Admits]
  constructor
  · rintro ⟨t, s', ⟨hrA, hfitA, rfl⟩, hrB, hmbr, hfitB, -⟩
    exact ⟨⟨hrA, hfitA⟩, ⟨hrB, hmbr⟩, hfitB⟩
  · rintro ⟨⟨hrA, hfitA⟩, ⟨hrB, hmbr⟩, hfitB⟩
    exact ⟨_, _, ⟨hrA, hfitA, rfl⟩, hrB, hmbr, hfitB, rfl⟩

/-- An addition is placed in a way that can be had, if there is one. -/
theorem placement_admits_iff
    (left right : Register) :
    (∀ u ∈ [Use.onA (s.placement left right).1, Use.onB (s.placement left right).2],
        u.Permitted ∧ s.Admits u) ↔
      ∃ us ∈ (Claim.add left right).ways, ∀ u ∈ us, u.Permitted ∧ s.Admits u := by
  constructor
  · intro h
    rcases placement_eq (s := s) left right with hp | hp
    · rw [hp] at h
      exact ⟨_, List.mem_cons_self .., h⟩
    · rw [hp] at h
      exact ⟨_, List.mem_cons_of_mem _ (List.mem_singleton_self _), h⟩
  · -- `mbr` is not permitted on the B bus, which leaves one way; else both are tried.
    simp only [Claim.ways, List.mem_cons, List.not_mem_nil, or_false, exists_eq_or_imp,
      exists_eq_left, forall_eq_or_imp, forall_eq, Use.Permitted, Admits]
    unfold placement
    split
    · next hleft =>
        rintro (h | ⟨-, ⟨-, hmbr⟩, -⟩)
        · exact h
        · exact absurd hleft hmbr
    · split
      · next hright =>
          rintro (⟨-, ⟨-, hmbr⟩, -⟩ | h)
          · exact absurd hright hmbr
          · exact h
      · next hright =>
          split
          · next hcommute =>
              simp only [mustCommute, Bool.and_eq_true, Bool.not_eq_true', Bool.and_eq_false_iff]
                at hcommute
              rintro (⟨⟨-, hfitA⟩, -, hfitB⟩ | h)
              · rcases hcommute.1 with hno | hno
                · rw [hfitA] at hno
                  cases hno
                · rw [hfitB] at hno
                  cases hno
              · exact h
          · next hcommute =>
              rintro (h | ⟨⟨hrA, hfitA⟩, ⟨hrB, hmbr⟩, hfitB⟩)
              · exact h
              · -- Nothing forces the exchange although it fits, so the direct way fits too.
                simp only [mustCommute, hfitA, hfitB, Bool.and_true, Bool.not_eq_true',
                  Bool.not_eq_false, Bool.and_eq_true] at hcommute
                exact ⟨⟨hrB, hcommute.1⟩, ⟨hrA, hright⟩, hcommute.2⟩

theorem attemptAdd_snd_eq_none_iff
    (left right : Register) :
    (s.attemptAdd left right).2 = none ↔
      ∀ u ∈ [Use.onA (s.placement left right).1, Use.onB (s.placement left right).2],
        u.Permitted ∧ s.Admits u := by
  have hreadable : (∀ u ∈ [Use.onA (s.placement left right).1, Use.onB (s.placement left right).2],
      u.Permitted ∧ s.Admits u) → left.isReadable = true ∧ right.isReadable = true := by
    intro h
    have hA : (s.placement left right).1.isReadable = true := (h _ (List.mem_cons_self ..)).1
    have hB : (s.placement left right).2.isReadable = true :=
      (h (.onB _) (List.mem_cons_of_mem _ (List.mem_singleton_self _))).1.1
    rcases placement_eq (s := s) left right with hp | hp
    · rw [hp] at hA hB
      exact ⟨hA, hB⟩
    · rw [hp] at hA hB
      exact ⟨hB, hA⟩
  unfold attemptAdd
  split
  · next hleft =>
      simp only [reduceCtorEq, false_iff]
      intro h
      simp [(hreadable h).1] at hleft
  · split
    · next hright =>
        simp only [reduceCtorEq, false_iff]
        intro h
        simp [(hreadable h).2] at hright
    · exact routeBoth_snd_eq_none_iff _ _

/-- A claim is granted if and only if all uses of one of its ways are permitted and
admitted. -/
theorem attempt_snd_eq_none_iff
    (s : Resources)
    (c : Claim) :
    (s.attempt c).2 = none ↔ ∃ us ∈ c.ways, ∀ u ∈ us, u.Permitted ∧ s.Admits u := by
  cases c with
  | routeA r =>
      simp [attempt, settle_snd_eq_none_iff, routeA_eq_ok_iff, Claim.ways, Use.Permitted, Admits]
  | routeB r =>
      simp [attempt, settle_snd_eq_none_iff, routeB_eq_ok_iff, Claim.ways, Use.Permitted, Admits,
        and_assoc]
  | add left right =>
      -- A register that cannot be read is refused in either place.
      have hplaced := attemptAdd_snd_eq_none_iff (s := s) left right
      rw [placement_admits_iff] at hplaced
      exact hplaced
  | alu op =>
      simp [attempt, settle_snd_eq_none_iff, claimAlu_eq_ok_iff, Claim.ways, Use.Permitted, Admits]
  | shifter op =>
      simp [attempt, settle_snd_eq_none_iff, claimShifter_eq_ok_iff, Claim.ways, Use.Permitted,
        Admits]
  | output dest =>
      rw [attempt, settle_snd_eq_none_iff]
      simp only [claimOutput_eq_ok_iff, Claim.ways, List.mem_singleton, exists_eq_left,
        Register.outputUses]
      by_cases hmbr : dest = .mbr
      · simp [hmbr, Register.isMutable, Use.Permitted, Admits]
      · by_cases halu : dest = .alu
        · simp [halu, Register.isMutable]
        · simp [hmbr, halu, Use.Permitted, Admits]
  | loadMar r =>
      simp [attempt, settle_snd_eq_none_iff, loadMar_eq_ok_iff, Claim.ways, Use.Permitted, Admits,
        and_assoc]
  | read =>
      simp [attempt, settle_snd_eq_none_iff, read_eq_ok_iff, Claim.ways, Use.Permitted, Admits]
  | write =>
      simp [attempt, settle_snd_eq_none_iff, write_eq_ok_iff, Claim.ways, Use.Permitted, Admits]
  | branch jump address =>
      simp [attempt, settle_snd_eq_none_iff, jump_eq_ok_iff, Claim.ways, Use.Permitted, Admits]

theorem settle_fst_of_refused
    {result : Except Conflict Resources}
    (h : (s.settle result).2 ≠ none) :
    (s.settle result).1 = s := by
  cases result with
  | ok t => exact absurd rfl h
  | error conflict => rfl

/-- A refused claim changes nothing, or it is an addition that has got the A side. -/
theorem attempt_fst_of_refused
    {c : Claim}
    (h : (s.attempt c).2 ≠ none) :
    (s.attempt c).1 = s ∨
      ∃ r, c.Asks (.onA r) ∧ r.isReadable = true ∧ fits s.a r = true ∧
        (s.attempt c).1 = { s with a := some r } := by
  cases c with
  | add left right =>
      simp only [attempt, attemptAdd] at h ⊢
      split
      · exact Or.inl rfl
      · split
        · exact Or.inl rfl
        · rw [if_neg ‹_›, if_neg ‹_›] at h
          have hask : (Claim.add left right).Asks (.onA (s.placement left right).1) := by
            rcases placement_eq (s := s) left right with hp | hp <;>
              simp [Claim.Asks, Claim.ways, hp]
          unfold routeBoth at h ⊢
          cases hA : s.routeA (s.placement left right).1 with
          | error conflict =>
              exact Or.inl rfl
          | ok s' =>
              rw [hA] at h
              obtain ⟨hr, hfit, hset⟩ := (routeA_eq_ok_iff _).1 hA
              exact Or.inr ⟨_, hask, hr, hfit, (settle_fst_of_refused h).trans hset⟩
  | _ => exact Or.inl (settle_fst_of_refused h)

/-- One step of a run: whether it is granted or refused, a claim adds some of the uses
that it asks for, and nothing else. -/
theorem has_of_attempt
    (s : Resources)
    (c : Claim) :
    ∃ us : List Use, (∀ u ∈ us, u.Permitted ∧ c.Asks u) ∧
      ∀ u, (s.attempt c).1.Has u ↔ s.Has u ∨ u ∈ us := by
  by_cases h : (s.attempt c).2 = none
  · have hclaim : s.claim c = .ok (s.attempt c).1 :=
      (claim_eq_ok_iff _ _ _).2 (Prod.ext rfl h)
    obtain ⟨us, hus, hpermitted, huses⟩ := has_of_claim hclaim
    exact ⟨us, fun u hu => ⟨hpermitted u hu, us, hus, hu⟩, huses⟩
  · rcases attempt_fst_of_refused h with hsame | ⟨r, hask, hr, hfit, hset⟩
    · exact ⟨[], by simp, by simp [hsame]⟩
    · refine ⟨[.onA r], fun u hu => ?_, fun u => ?_⟩
      · rw [List.mem_singleton.1 hu]
        exact ⟨hr, hask⟩
      · rw [hset, has_set_a hfit]

/-- No use is taken back by a claim. -/
theorem has_attempt
    (c : Claim)
    {u : Use}
    (hu : s.Has u) :
    (s.attempt c).1.Has u := by
  obtain ⟨us, -, huses⟩ := has_of_attempt s c
  exact (huses u).2 (Or.inl hu)

/-- A memory access, a jump and the C bus are asked for by their own claims only. -/
theorem eq_of_asks
    {c : Claim}
    {u : Use}
    (h : c.Asks u) :
    (u = .read → c = .read) ∧ (u = .write → c = .write) ∧
      (∀ jump address, u = .jump jump address → c = .branch jump address) ∧
      ∀ r, u = .onC r → c = .output r := by
  obtain ⟨us, hus, hu⟩ := h
  cases c with
  | add left right =>
      rcases List.mem_pair.1 hus with rfl | rfl <;>
        rcases List.mem_pair.1 hu with rfl | rfl <;> simp
  | output dest =>
      rw [List.mem_singleton.1 hus, Register.outputUses] at hu
      split at hu
      · simp [List.mem_singleton.1 hu]
      · split at hu
        · cases hu
        · simp [List.mem_singleton.1 hu]
  | loadMar r =>
      rw [List.mem_singleton.1 hus] at hu
      rcases List.mem_pair.1 hu with rfl | rfl <;> simp
  | _ =>
      rw [List.mem_singleton.1 hus] at hu
      simp [List.mem_singleton.1 hu]

/-- A claim keeps memory from being both read and written: it asks for one of the two
at most, and is refused it if the cycle already does the other. -/
theorem exclusive_attempt
    (hs : s.Exclusive)
    (c : Claim) :
    (s.attempt c).1.Exclusive := by
  rintro ⟨hread, hwrite⟩
  obtain ⟨us, hasked, huses⟩ := has_of_attempt s c
  rcases (huses .read).1 hread with hrd | hnew
  · rcases (huses .write).1 hwrite with hwr | hnew
    · exact hs ⟨hrd, hwr⟩
    · obtain rfl := (eq_of_asks (hasked _ hnew).2).2.1 rfl
      have hrefused : s.attempt .write = (s, some .readWrite) := by
        simp [attempt, write, settle, show s.rd = true from hrd]
      rw [hrefused] at hread hwrite
      exact hs ⟨hread, hwrite⟩
  · obtain rfl := (eq_of_asks (hasked _ hnew).2).1 rfl
    by_cases hwr : s.wr = true
    · have hrefused : s.attempt .read = (s, some .readWrite) := by
        simp [attempt, read, settle, hwr]
      rw [hrefused] at hread hwrite
      exact hs ⟨hread, hwrite⟩
    · have hgranted : s.attempt .read = ({ s with rd := true }, none) := by
        simp [attempt, read, settle, hwr]
      rw [hgranted] at hwrite
      exact hwr hwrite

/-- A cycle that meets a claim in one way has no other use that the claim asks for. -/
theorem mem_way_of_asks
    {c : Claim}
    {us : List Use}
    (hus : us ∈ c.ways)
    (hall : ∀ v ∈ us, s.Has v)
    {u : Use}
    (hask : c.Asks u)
    (hu : s.Has u) :
    u ∈ us := by
  obtain ⟨vs, hvs, hmem⟩ := hask
  cases c with
  | add left right =>
      -- Both ways use the A side and the B bus, each of which carries one register.
      obtain ⟨⟨onA, hA⟩, onB, hB⟩ : (∃ r, .onA r ∈ us) ∧ ∃ r, .onB r ∈ us := by
        rcases List.mem_pair.1 hus with rfl | rfl <;> simp
      have hside : (∃ r, u = .onA r) ∨ ∃ r, u = .onB r := by
        rcases List.mem_pair.1 hvs with rfl | rfl <;>
          rcases List.mem_pair.1 hmem with rfl | rfl <;> simp
      rcases hside with ⟨r, rfl⟩ | ⟨r, rfl⟩
      · have hsame : some onA = some r := (hall _ hA).symm.trans hu
        rwa [Option.some.inj hsame] at hA
      · have hsame : some onB = some r := (hall _ hB).symm.trans hu
        rwa [Option.some.inj hsame] at hB
  | _ => rwa [List.mem_singleton.1 hvs, ← List.mem_singleton.1 hus] at hmem

/-- A cycle that meets a claim already has what the claim asks for, if that is what a
later cycle has. -/
theorem Meets.has_of_asks
    {t : Resources}
    {c : Claim}
    (h : s.Meets c)
    (hle : ∀ v, s.Has v → t.Has v)
    {u : Use}
    (hask : c.Asks u)
    (hu : t.Has u) :
    s.Has u := by
  obtain ⟨us, hus, hall⟩ := h
  exact (hall u (mem_way_of_asks hus (fun v hv => hle v (hall v hv).1) hask hu)).1

/-- What a cycle has of a claim that it meets is permitted. -/
theorem Meets.permitted_of_asks
    {c : Claim}
    (h : s.Meets c)
    {u : Use}
    (hask : c.Asks u)
    (hu : s.Has u) :
    u.Permitted := by
  obtain ⟨us, hus, hall⟩ := h
  exact (hall u (mem_way_of_asks hus (fun v hv => (hall v hv).1) hask hu)).2

/-- A claim that a cycle meets is granted again and adds nothing. -/
theorem attempt_of_meets
    (hs : s.Exclusive)
    {c : Claim}
    (h : s.Meets c)
    (hjump : ∀ jump address, c ≠ .branch jump address) :
    s.attempt c = (s, none) := by
  have hgranted : (s.attempt c).2 = none := by
    obtain ⟨us, hus, hall⟩ := h
    refine (attempt_snd_eq_none_iff s c).2 ⟨us, hus, fun u hu => ⟨(hall u hu).2, ?_⟩⟩
    refine hs.admits_of_has (hall u hu).1 ?_
    rintro jump address rfl
    exact hjump jump address ((eq_of_asks ⟨us, hus, hu⟩).2.2.1 jump address rfl)
  have hsame : (s.attempt c).1 = s := by
    obtain ⟨us, hasked, huses⟩ := has_of_attempt s c
    refine eq_of_has_iff fun u => ⟨fun hu => ?_, has_attempt c⟩
    rcases (huses u).1 hu with hold | hnew
    · exact hold
    · exact h.has_of_asks (fun v => has_attempt c) (hasked u hnew).2 hu
  exact Prod.ext hsame hgranted

end Steps

section Runs

/-- No use is taken back in a run. -/
theorem has_attemptAll
    {s : Resources}
    (cs : List Claim)
    {u : Use}
    (hu : s.Has u) :
    (s.attemptAll cs).Has u := by
  induction cs generalizing s with
  | nil =>
      exact hu
  | cons c cs ih =>
      exact ih (has_attempt c hu)

/-- No run both reads and writes memory. -/
theorem exclusive_attemptAll
    {s : Resources}
    (hs : s.Exclusive)
    (cs : List Claim) :
    (s.attemptAll cs).Exclusive := by
  induction cs generalizing s with
  | nil =>
      exact hs
  | cons c cs ih =>
      exact ih (exclusive_attempt hs c)

theorem exclusive_fresh :
    fresh.Exclusive :=
  fun h => not_has_fresh _ h.1

/-- A granted claim is met from then on. -/
theorem meets_attemptAll
    {s : Resources}
    {c : Claim}
    (h : (s.attempt c).2 = none)
    (cs : List Claim) :
    ((s.attempt c).1.attemptAll cs).Meets c := by
  obtain ⟨us, hus, hpermitted, huses⟩ :=
    has_of_claim ((claim_eq_ok_iff _ _ _).2 (Prod.ext rfl h))
  exact ⟨us, hus, fun u hu =>
    ⟨has_attemptAll cs ((huses u).2 (Or.inr hu)), hpermitted u hu⟩⟩

/-- A cycle that refuses a claim refuses it however the run goes on. -/
theorem refused_attemptAll
    {s : Resources}
    {c : Claim}
    (h : (s.attempt c).2 ≠ none)
    (cs : List Claim) :
    ((s.attemptAll cs).attempt c).2 ≠ none := by
  intro hgranted
  obtain ⟨us, hus, hall⟩ := (attempt_snd_eq_none_iff _ c).1 hgranted
  refine h ((attempt_snd_eq_none_iff s c).2 ⟨us, hus, fun u hu => ⟨(hall u hu).1, ?_⟩⟩)
  exact (hall u hu).2.anti fun v => has_attemptAll cs

/-- **Claims are sticky and their outcomes stable.**  Let a claim be made somewhere in
a run from a fresh cycle, and look at any later point of the run.

* What the cycle did before the claim it still does: no bus, unit, line or jump that
  has been claimed is ever free again or used for something else.
* If the claim was granted and is no jump, making it again is granted and changes
  nothing.
* If it was a jump and granted, every further jump is refused as a second one.
* If it was refused, it is refused again. -/
theorem attemptAll_stable
    (before : List Claim)
    (c : Claim)
    (after : List Claim) :
    let s := fresh.attemptAll before
    let t := fresh.attemptAll (before ++ c :: after)
    (∀ u, s.Has u → t.Has u) ∧
    ((s.attempt c).2 = none → (∀ jump address, c ≠ .branch jump address) →
      t.attempt c = (t, none)) ∧
    ((s.attempt c).2 = none → ∀ jump address, c = .branch jump address →
      ∀ jump' address', t.attempt (.branch jump' address') = (t, some .jumpDefined)) ∧
    ((s.attempt c).2 ≠ none → (t.attempt c).2 ≠ none) := by
  intro s t
  have ht : t = s.attemptAll (c :: after) := attemptAll_append fresh before (c :: after)
  rw [ht]
  refine ⟨fun u => has_attemptAll (c :: after), fun hgranted hjump => ?_, ?_,
    fun hrefused => refused_attemptAll hrefused (c :: after)⟩
  · have hexclusive : (s.attemptAll (c :: after)).Exclusive :=
      exclusive_attemptAll (exclusive_attemptAll exclusive_fresh before) (c :: after)
    exact attempt_of_meets hexclusive (meets_attemptAll hgranted after) hjump
  · rintro hgranted jump address rfl jump' address'
    obtain ⟨us, hus, hall⟩ := meets_attemptAll hgranted after
    rw [List.mem_singleton.1 hus] at hall
    have hheld : (s.attemptAll (.branch jump address :: after)).branch = some (jump, address) :=
      (hall _ (List.mem_singleton_self _)).1
    rw [attempt, Resources.jump, hheld]
    rfl

/-- An exchanged addition is granted again, a second jump is not, and a refused addition
stays refused. -/
theorem attemptAll_stable_exchanged :
    let sum : Claim := .add .sp .one
    let other : Claim := .add .ac .one
    let jump : Claim := .branch .always 3
    let s := fresh.attemptAll [.loadMar .sp]
    let t := fresh.attemptAll [.loadMar .sp, sum, other, jump]
    (s.attempt sum).2 = none ∧ t.attempt sum = (t, none) ∧
      ((s.attempt sum).1.attempt other).2 ≠ none ∧ (t.attempt other).2 ≠ none ∧
      (((s.attempt sum).1.attempt other).1.attempt jump).2 = none ∧
      t.attempt (.branch .zero 5) = (t, some .jumpDefined) := by
  intro sum other jump s t
  have hsum : (s.attempt sum).2 = none := by decide
  have hother : ((s.attempt sum).1.attempt other).2 ≠ none := by decide
  have hjump : (((s.attempt sum).1.attempt other).1.attempt jump).2 = none := by decide
  obtain ⟨-, hgranted, -⟩ := attemptAll_stable [.loadMar .sp] sum [other, jump]
  obtain ⟨-, -, -, hrefused⟩ := attemptAll_stable [.loadMar .sp, sum] other [jump]
  obtain ⟨-, -, htaken, -⟩ := attemptAll_stable [.loadMar .sp, sum, other] jump []
  exact ⟨hsum, hgranted hsum (by simp [sum]), hother, hrefused hother, hjump,
    htaken hjump _ _ rfl _ _⟩

/-- An addition that had to be exchanged is recognised in both orders. -/
example :
    let t := fresh.attemptAll [.loadMar .sp, .add .sp .one, .add .ac .one]
    t.attempt (.add .sp .one) = (t, none) ∧ t.attempt (.add .one .sp) = (t, none) ∧
      (t.attempt (.add .ac .one)).2 = some (.bus .a .ac .one) := by
  decide

end Runs

end Resources
end Microcode
