import Microcode.Resources
import Mathlib.Tactic

/-!
# What the units of a cycle are used for

A `Use` is one thing that one unit does in a cycle, and `Resources.Has` says
whether a cycle has been promised it.  `Claim.ways` lists the ways to meet a
claim, each as a list of uses; only an addition has two of them.

**Results.**
* `Resources.has_of_claim`: a granted claim adds the uses of one of its ways and
  nothing else, so no use is ever taken back.
* `Resources.has_of_claimAll`, `Resources.meets_of_claimAll` and
  `Resources.asked_of_claimAll` say the same of a list of claims: what was held
  stays, every claim is met in the end, and every new use was asked for.
-/

namespace Microcode

/-- One thing that a unit of the data path does in a cycle. -/
inductive Use where
  | onA (r : Register)
  | onB (r : Register)
  | onC (r : Register)
  | alu (op : AluOp)
  | shifter (op : ShiftOp)
  | jump (jump : Jump) (address : UInt8)
  | loadMbr
  | loadMar
  | read
  | write
deriving DecidableEq

/-- What the data path permits: the A side carries what can be read, the B bus
also not `mbr`, and the C bus leads to registers that can be written. -/
def Use.Permitted : Use → Prop
  | onA r => r.isReadable = true
  | onB r => r.isReadable = true ∧ r ≠ .mbr
  | onC r => r.isMutable = true ∧ r ≠ .mbr ∧ r ≠ .alu
  | _ => True

/-- What a destination asks of the output path. -/
def Register.outputUses (dest : Register) : List Use :=
  if dest = .mbr then [.loadMbr]
  else if dest = .alu then []
  else [.onC dest]

/-- The ways to meet a claim. -/
def Claim.ways : Claim → List (List Use)
  | routeA r => [[.onA r]]
  | routeB r => [[.onB r]]
  | add left right => [[.onA left, .onB right], [.onA right, .onB left]]
  | alu op => [[.alu op]]
  | shifter op => [[.shifter op]]
  | output dest => [dest.outputUses]
  | loadMar r => [[.onB r, .loadMar]]
  | read => [[.read]]
  | write => [[.write]]
  | branch jump address => [[.jump jump address]]

/-- Whether some way to meet a claim needs a use. -/
def Claim.Asks (c : Claim) (u : Use) : Prop :=
  ∃ us ∈ c.ways, u ∈ us

namespace Resources

/-- Whether a cycle has been promised a use. -/
def Has (s : Resources) : Use → Prop
  | .onA r => s.a = some r
  | .onB r => s.b = some r
  | .onC r => s.c = some r
  | .alu op => s.alu = some op
  | .shifter op => s.shifter = some op
  | .jump jump address => s.branch = some (jump, address)
  | .loadMbr => s.mbr = true
  | .loadMar => s.mar = true
  | .read => s.rd = true
  | .write => s.wr = true

/-- A claim is met if the cycle has all uses of one way to meet it, and all of
them are permitted. -/
def Meets (s : Resources) (c : Claim) : Prop :=
  ∃ us ∈ c.ways, ∀ u ∈ us, s.Has u ∧ u.Permitted

/-- A fresh cycle has been promised nothing. -/
theorem not_has_fresh
    (u : Use) :
    ¬ fresh.Has u := by
  cases u <;> simp [Has, fresh]

/-- A claim that is met stays met when uses are added. -/
theorem Meets.mono
    {s t : Resources}
    {c : Claim}
    (h : s.Meets c)
    (hle : ∀ u, s.Has u → t.Has u) :
    t.Meets c := by
  obtain ⟨us, hus, hall⟩ := h
  exact ⟨us, hus, fun u hu => ⟨hle u (hall u hu).1, (hall u hu).2⟩⟩

section Steps

variable {s t : Resources}

/-- A unit fits what is wanted if it does nothing else. -/
theorem fits_iff
    {α : Type}
    [DecidableEq α]
    (unit : Option α)
    (wanted : α) :
    fits unit wanted = true ↔ ∀ taken, unit = some taken → taken = wanted := by
  cases unit <;> simp [fits]

/-- A claim on a single unit is granted exactly if the unit fits. -/
theorem occupy_bind_eq_ok_iff
    {α : Type}
    [DecidableEq α]
    (unit : Option α)
    (wanted : α)
    (conflict : α → Conflict)
    (update : Option α → Resources) :
    (do let held ← occupy unit wanted conflict
        pure (update held) : Except Conflict Resources) = .ok t ↔
      fits unit wanted = true ∧ t = update (some wanted) := by
  cases ho : occupy unit wanted conflict with
  | error e =>
      have hfit : ¬ fits unit wanted = true := by
        intro hfit
        have hok := (occupy_eq_ok_iff unit _ wanted conflict).2 ⟨hfit, rfl⟩
        rw [ho] at hok
        cases hok
      simp [hfit, bind, Except.bind]
  | ok held =>
      obtain ⟨hfit, rfl⟩ := (occupy_eq_ok_iff unit held wanted conflict).1 ho
      simp [hfit, bind, Except.bind, pure, Except.pure, eq_comm]

theorem readable_bind_eq_ok_iff
    (r : Register)
    (rest : Except Conflict Resources) :
    (do readable r; rest) = .ok t ↔ r.isReadable = true ∧ rest = .ok t := by
  unfold readable
  by_cases hr : r.isReadable = true
  · simp [hr, bind, Except.bind]
  · simp [hr, bind, Except.bind]

theorem routeA_eq_ok_iff
    (r : Register) :
    s.routeA r = .ok t ↔
      r.isReadable = true ∧ fits s.a r = true ∧ t = { s with a := some r } := by
  unfold routeA
  rw [readable_bind_eq_ok_iff, occupy_bind_eq_ok_iff s.a r (.bus .a r) fun a => { s with a := a }]

theorem routeB_eq_ok_iff
    (r : Register) :
    s.routeB r = .ok t ↔
      r.isReadable = true ∧ r ≠ .mbr ∧ fits s.b r = true ∧ t = { s with b := some r } := by
  unfold routeB
  rw [readable_bind_eq_ok_iff]
  by_cases hr : r = .mbr
  · simp [hr]
  · rw [if_neg hr, occupy_bind_eq_ok_iff s.b r (.bus .b r) fun b => { s with b := b }]
    simp [hr]

theorem claimAlu_eq_ok_iff
    (op : AluOp) :
    s.claimAlu op = .ok t ↔ fits s.alu op = true ∧ t = { s with alu := some op } :=
  occupy_bind_eq_ok_iff s.alu op (.alu op) fun alu => { s with alu := alu }

theorem claimShifter_eq_ok_iff
    (op : ShiftOp) :
    s.claimShifter op = .ok t ↔
      fits s.shifter op = true ∧ t = { s with shifter := some op } :=
  occupy_bind_eq_ok_iff s.shifter op (.shifter op) fun shifter => { s with shifter := shifter }

theorem loadMar_eq_ok_iff
    (r : Register) :
    s.loadMar r = .ok t ↔
      r.isReadable = true ∧ r ≠ .mbr ∧ fits s.b r = true ∧
        t = { s with b := some r, mar := true } := by
  unfold loadMar
  cases hb : s.routeB r with
  | error e =>
      have hnot : ¬ (r.isReadable = true ∧ r ≠ .mbr ∧ fits s.b r = true) := by
        rintro ⟨hr, hmbr, hfit⟩
        have hok := (routeB_eq_ok_iff (s := s) r).2 ⟨hr, hmbr, hfit, rfl⟩
        rw [hb] at hok
        cases hok
      simp only [bind, Except.bind, reduceCtorEq, false_iff]
      rintro ⟨hr, hmbr, hfit, -⟩
      exact hnot ⟨hr, hmbr, hfit⟩
  | ok s' =>
      obtain ⟨hr, hmbr, hfit, rfl⟩ := (routeB_eq_ok_iff r).1 hb
      simp [bind, Except.bind, pure, Except.pure, hr, hmbr, hfit, eq_comm]

/-- The cycle after a destination has been claimed. -/
theorem claimOutput_eq_ok_iff
    (dest : Register) :
    s.claimOutput dest = .ok t ↔
      dest.isMutable = true ∧
        if dest = .mbr then t = { s with mbr := true }
        else if dest = .alu then t = s
        else fits s.c dest = true ∧ t = { s with c := some dest } := by
  unfold claimOutput
  by_cases hd : dest.isMutable = true
  · by_cases hmbr : dest = .mbr
    · simp [hmbr, Register.isMutable, eq_comm]
    · by_cases halu : dest = .alu
      · simp [halu, Register.isMutable, eq_comm]
      · simp only [hd, hmbr, halu, Bool.not_true, Bool.false_eq_true, if_false, true_and]
        exact occupy_bind_eq_ok_iff s.c dest (.outputTaken dest) fun c => { s with c := c }
  · simp [hd]

theorem settle_eq_iff
    (result : Except Conflict Resources) :
    s.settle result = (t, none) ↔ result = .ok t := by
  cases result <;> simp [settle]

theorem routeBoth_eq_iff
    (onA onB : Register) :
    s.routeBoth onA onB = (t, none) ↔
      ∃ s', s.routeA onA = .ok s' ∧ s'.routeB onB = .ok t := by
  unfold routeBoth
  cases hA : s.routeA onA with
  | error e => simp
  | ok s' => simp [settle_eq_iff]

/-- An addition stands on the buses in one of its two orders. -/
theorem placement_eq
    (left right : Register) :
    s.placement left right = (left, right) ∨ s.placement left right = (right, left) := by
  unfold placement
  split
  · exact Or.inl rfl
  · split
    · exact Or.inr rfl
    · split
      · exact Or.inr rfl
      · exact Or.inl rfl

/-- A unit that fits may be set to what is wanted: it then does that, and it did
nothing else before. -/
theorem eq_some_iff_of_fits
    {α : Type}
    [DecidableEq α]
    {unit : Option α}
    {wanted : α}
    (hfit : fits unit wanted = true)
    (x : α) :
    some wanted = some x ↔ unit = some x ∨ x = wanted := by
  rw [fits_iff] at hfit
  constructor
  · intro h
    exact Or.inr (Option.some.inj h).symm
  · rintro (h | rfl)
    · rw [hfit x h]
    · rfl

theorem has_set_a
    {r : Register}
    (hfit : fits s.a r = true)
    (u : Use) :
    Has { s with a := some r } u ↔ s.Has u ∨ u ∈ [Use.onA r] := by
  cases u <;> simp only [Has, eq_some_iff_of_fits hfit] <;> simp

theorem has_set_b
    {r : Register}
    (hfit : fits s.b r = true)
    (u : Use) :
    Has { s with b := some r } u ↔ s.Has u ∨ u ∈ [Use.onB r] := by
  cases u <;> simp only [Has, eq_some_iff_of_fits hfit] <;> simp

theorem has_set_c
    {r : Register}
    (hfit : fits s.c r = true)
    (u : Use) :
    Has { s with c := some r } u ↔ s.Has u ∨ u ∈ [Use.onC r] := by
  cases u <;> simp only [Has, eq_some_iff_of_fits hfit] <;> simp

theorem has_set_alu
    {op : AluOp}
    (hfit : fits s.alu op = true)
    (u : Use) :
    Has { s with alu := some op } u ↔ s.Has u ∨ u ∈ [Use.alu op] := by
  cases u <;> simp only [Has, eq_some_iff_of_fits hfit] <;> simp

theorem has_set_shifter
    {op : ShiftOp}
    (hfit : fits s.shifter op = true)
    (u : Use) :
    Has { s with shifter := some op } u ↔ s.Has u ∨ u ∈ [Use.shifter op] := by
  cases u <;> simp only [Has, eq_some_iff_of_fits hfit] <;> simp

/-- A granted addition puts its registers on the A side and on the B bus. -/
theorem has_of_routeBoth
    {onA onB : Register}
    (h : s.routeBoth onA onB = (t, none)) :
    (onA.isReadable = true ∧ onB.isReadable = true ∧ onB ≠ .mbr) ∧
      ∀ u, t.Has u ↔ s.Has u ∨ u ∈ [Use.onA onA, Use.onB onB] := by
  obtain ⟨s', hA, hB⟩ := (routeBoth_eq_iff onA onB).1 h
  obtain ⟨hrA, hfitA, rfl⟩ := (routeA_eq_ok_iff onA).1 hA
  obtain ⟨hrB, hmbr, hfitB, rfl⟩ := (routeB_eq_ok_iff onB).1 hB
  refine ⟨⟨hrA, hrB, hmbr⟩, fun u => ?_⟩
  rw [has_set_b hfitB, has_set_a hfitA]
  simp [or_assoc]

/-- A granted claim adds the uses of one of its ways, all of them permitted, and
nothing else. -/
theorem has_of_claim
    {c : Claim}
    (h : s.claim c = .ok t) :
    ∃ us ∈ c.ways, (∀ u ∈ us, u.Permitted) ∧ ∀ u, t.Has u ↔ s.Has u ∨ u ∈ us := by
  rw [claim_eq_ok_iff] at h
  cases c with
  | routeA r =>
      obtain ⟨hr, hfit, rfl⟩ := (routeA_eq_ok_iff r).1 ((settle_eq_iff _).1 h)
      exact ⟨_, List.mem_singleton_self _, by simp [Use.Permitted, hr], has_set_a hfit⟩
  | routeB r =>
      obtain ⟨hr, hmbr, hfit, rfl⟩ := (routeB_eq_ok_iff r).1 ((settle_eq_iff _).1 h)
      exact ⟨_, List.mem_singleton_self _, by simp [Use.Permitted, hr, hmbr], has_set_b hfit⟩
  | add left right =>
      simp only [attempt, attemptAdd] at h
      split at h
      · simp at h
      · split at h
        · simp at h
        · obtain ⟨⟨hrA, hrB, hmbr⟩, huses⟩ := has_of_routeBoth h
          -- The two ways of an addition are its two placements.
          rcases placement_eq (s := s) left right with hp | hp
          · rw [hp] at hrA hrB hmbr huses
            exact ⟨_, List.mem_cons_self .., by simp [Use.Permitted, hrA, hrB, hmbr], huses⟩
          · rw [hp] at hrA hrB hmbr huses
            exact ⟨_, List.mem_cons_of_mem _ (List.mem_singleton_self _),
              by simp [Use.Permitted, hrA, hrB, hmbr], huses⟩
  | alu op =>
      obtain ⟨hfit, rfl⟩ := (claimAlu_eq_ok_iff op).1 ((settle_eq_iff _).1 h)
      exact ⟨_, List.mem_singleton_self _, by simp [Use.Permitted], has_set_alu hfit⟩
  | shifter op =>
      obtain ⟨hfit, rfl⟩ := (claimShifter_eq_ok_iff op).1 ((settle_eq_iff _).1 h)
      exact ⟨_, List.mem_singleton_self _, by simp [Use.Permitted], has_set_shifter hfit⟩
  | output dest =>
      obtain ⟨hd, hset⟩ := (claimOutput_eq_ok_iff dest).1 ((settle_eq_iff _).1 h)
      refine ⟨_, List.mem_singleton_self _, ?_⟩
      unfold Register.outputUses
      by_cases hmbr : dest = .mbr
      · rw [if_pos hmbr] at hset
        subst hset
        refine ⟨by simp [hmbr, Use.Permitted], fun u => ?_⟩
        cases u <;> simp [Has, hmbr]
      · by_cases halu : dest = .alu
        · rw [if_neg hmbr, if_pos halu] at hset
          subst hset
          simp [halu]
        · rw [if_neg hmbr, if_neg halu] at hset
          obtain ⟨hfit, rfl⟩ := hset
          rw [if_neg hmbr, if_neg halu]
          exact ⟨by simp [Use.Permitted, hd, hmbr, halu], has_set_c hfit⟩
  | loadMar r =>
      obtain ⟨hr, hmbr, hfit, rfl⟩ := (loadMar_eq_ok_iff r).1 ((settle_eq_iff _).1 h)
      refine ⟨_, List.mem_singleton_self _, by simp [Use.Permitted, hr, hmbr], fun u => ?_⟩
      cases u <;> simp only [Has, eq_some_iff_of_fits hfit] <;> simp
  | read =>
      have hs := (settle_eq_iff _).1 h
      unfold Resources.read at hs
      split at hs
      · simp at hs
      · cases hs
        refine ⟨_, List.mem_singleton_self _, by simp [Use.Permitted], fun u => ?_⟩
        cases u <;> simp [Has]
  | write =>
      have hs := (settle_eq_iff _).1 h
      unfold Resources.write at hs
      split at hs
      · simp at hs
      · cases hs
        refine ⟨_, List.mem_singleton_self _, by simp [Use.Permitted], fun u => ?_⟩
        cases u <;> simp [Has]
  | branch jump address =>
      have hs := (settle_eq_iff _).1 h
      unfold Resources.jump at hs
      split at hs
      · next hfree =>
          cases hs
          have hfit : fits s.branch (jump, address) = true := by
            simp [fits, hfree]
          refine ⟨_, List.mem_singleton_self _, by simp [Use.Permitted], fun u => ?_⟩
          cases u <;> simp only [Has, eq_some_iff_of_fits hfit] <;> simp
      · simp at hs

end Steps

section Runs

/-- One step of a run: the first claim is granted, then the others. -/
theorem claimAll_cons_eq_ok
    {s t : Resources}
    {c : Claim}
    {cs : List Claim}
    (h : s.claimAll (c :: cs) = .ok t) :
    ∃ s', s.claim c = .ok s' ∧ s'.claimAll cs = .ok t := by
  simp only [claimAll] at h
  split at h
  · next s' hs => exact ⟨s', hs, h⟩
  · simp at h

/-- No use is taken back. -/
theorem has_of_claimAll
    {s t : Resources}
    {cs : List Claim}
    (h : s.claimAll cs = .ok t)
    (u : Use)
    (hu : s.Has u) :
    t.Has u := by
  induction cs generalizing s with
  | nil =>
      cases h
      exact hu
  | cons c cs ih =>
      obtain ⟨s', hc, hcs⟩ := claimAll_cons_eq_ok h
      obtain ⟨us, -, -, huses⟩ := has_of_claim hc
      exact ih hcs ((huses u).2 (Or.inl hu))

/-- Every claim of a list that is granted is met in the end. -/
theorem meets_of_claimAll
    {s t : Resources}
    {cs : List Claim}
    (h : s.claimAll cs = .ok t)
    (c : Claim)
    (hc : c ∈ cs) :
    t.Meets c := by
  induction cs generalizing s with
  | nil =>
      simp at hc
  | cons d cs ih =>
      obtain ⟨s', hd, hcs⟩ := claimAll_cons_eq_ok h
      rcases List.mem_cons.1 hc with rfl | hc
      · obtain ⟨us, hus, hok, huses⟩ := has_of_claim hd
        have hmet : s'.Meets c :=
          ⟨us, hus, fun u hu => ⟨(huses u).2 (Or.inr hu), hok u hu⟩⟩
        exact hmet.mono (has_of_claimAll hcs)
      · exact ih hcs hc

/-- Every use that a list of claims adds was asked for. -/
theorem asked_of_claimAll
    {s t : Resources}
    {cs : List Claim}
    (h : s.claimAll cs = .ok t)
    (u : Use)
    (hu : t.Has u) :
    s.Has u ∨ ∃ c ∈ cs, c.Asks u := by
  induction cs generalizing s with
  | nil =>
      cases h
      exact Or.inl hu
  | cons c cs ih =>
      obtain ⟨s', hc, hcs⟩ := claimAll_cons_eq_ok h
      rcases ih hcs with hs' | ⟨d, hd, hask⟩
      · obtain ⟨us, hus, -, huses⟩ := has_of_claim hc
        rcases (huses u).1 hs' with hs | hnew
        · exact Or.inl hs
        · exact Or.inr ⟨c, List.mem_cons_self .., us, hus, hnew⟩
      · exact Or.inr ⟨d, List.mem_cons_of_mem _ hd, hask⟩

end Runs

end Resources
end Microcode
