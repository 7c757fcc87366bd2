import Microcode.Proofs.Encoding.Branches
import Microcode.Proofs.Program.Places

/-!
# Words of instructions at other addresses

**Input.**  Instructions with their words, and another label table in which the targets
of their jumps stand a number of addresses further on.

**Algorithm.**  Only a jump looks at the jump of a cycle, and then only whether there is
one.  So both encodings make the same claims but for the address of the branch, and the
cycles on the way differ in nothing else.

**Results.**
* `claim_withBranch` is the step: claims that are not jumps are granted whatever the jump
  of the cycle is, and leave it as it is.
* `encodeFrom_moved` is the run: the other word is the same, but for the address of its
  branch.
* `encodeAll_moved`: this holds of all words of a program.
-/

namespace Microcode

/-- A word after its program has been moved by some addresses: a branch leads that much
further, and all else is the same. -/
def ControlWord.Relocated (n : Nat) (w w' : ControlWord) : Prop :=
  if w = .halt ∨ w.fields .cond = 0 then w' = w
  else (∀ f, f ≠ .addr → w'.fields f = w.fields f) ∧
    (w'.fields .addr).toNat = (w.fields .addr).toNat + n

/-- No jump on both sides, or the same jump to an address further on. -/
inductive BranchMoved (n : Nat) : Option (Jump × UInt8) → Option (Jump × UInt8) → Prop
  | none : BranchMoved n none none
  | some {jump : Jump} {a a' : UInt8} :
      a'.toNat = a.toNat + n → BranchMoved n (some (jump, a)) (some (jump, a'))

namespace Resources

variable {s t : Resources}

/-- Claims other than jumps are granted whatever the jump of the cycle is. -/
theorem claim_withBranch
    {c : Claim}
    (h : s.claim c = .ok t)
    (hc : ∀ jump address, c ≠ .branch jump address)
    (b : Option (Jump × UInt8)) :
    claim { s with branch := b } c = .ok { t with branch := b } := by
  rw [claim_eq_ok_iff] at h ⊢
  cases c with
  | routeA r =>
      obtain ⟨hr, hfit, rfl⟩ := (routeA_eq_ok_iff r).1 ((settle_eq_iff _).1 h)
      exact (settle_eq_iff _).2 ((routeA_eq_ok_iff r).2 ⟨hr, hfit, rfl⟩)
  | routeB r =>
      obtain ⟨hr, hmbr, hfit, rfl⟩ :=
        (routeB_eq_ok_iff r).1 ((settle_eq_iff _).1 h)
      exact (settle_eq_iff _).2 ((routeB_eq_ok_iff r).2 ⟨hr, hmbr, hfit, rfl⟩)
  | add left right =>
      simp only [attempt, attemptAdd] at h ⊢
      split at h
      · cases h
      · next hleft =>
          split at h
          · cases h
          · next hright =>
              rw [if_neg hleft, if_neg hright]
              obtain ⟨s', hA, hB⟩ := (routeBoth_eq_iff _ _).1 h
              obtain ⟨hrA, hfitA, rfl⟩ := (routeA_eq_ok_iff _).1 hA
              obtain ⟨hrB, hmbr, hfitB, rfl⟩ := (routeB_eq_ok_iff _).1 hB
              exact (routeBoth_eq_iff _ _).2
                ⟨_, (routeA_eq_ok_iff _).2 ⟨hrA, hfitA, rfl⟩,
                  (routeB_eq_ok_iff _).2 ⟨hrB, hmbr, hfitB, rfl⟩⟩
  | alu op =>
      obtain ⟨hfit, rfl⟩ := (claimAlu_eq_ok_iff op).1 ((settle_eq_iff _).1 h)
      exact (settle_eq_iff _).2 ((claimAlu_eq_ok_iff op).2 ⟨hfit, rfl⟩)
  | shifter op =>
      obtain ⟨hfit, rfl⟩ :=
        (claimShifter_eq_ok_iff op).1 ((settle_eq_iff _).1 h)
      exact (settle_eq_iff _).2 ((claimShifter_eq_ok_iff op).2 ⟨hfit, rfl⟩)
  | output dest =>
      obtain ⟨hdest, hset⟩ :=
        (claimOutput_eq_ok_iff dest).1 ((settle_eq_iff _).1 h)
      refine (settle_eq_iff _).2 ((claimOutput_eq_ok_iff dest).2 ⟨hdest, ?_⟩)
      split at hset
      · next hmbr => rw [if_pos hmbr, hset]
      · next hmbr =>
          rw [if_neg hmbr]
          split at hset
          · next halu => rw [if_pos halu, hset]
          · next halu =>
              rw [if_neg halu]
              exact ⟨hset.1, by rw [hset.2]⟩
  | loadMar r =>
      obtain ⟨hr, hmbr, hfit, rfl⟩ :=
        (loadMar_eq_ok_iff r).1 ((settle_eq_iff _).1 h)
      exact (settle_eq_iff _).2 ((loadMar_eq_ok_iff r).2 ⟨hr, hmbr, hfit, rfl⟩)
  | read =>
      have hread := (settle_eq_iff _).1 h
      refine (settle_eq_iff _).2 ?_
      unfold read at hread ⊢
      split at hread
      · cases hread
      · next hwr =>
          cases hread
          exact if_neg hwr
  | write =>
      have hwrite := (settle_eq_iff _).1 h
      refine (settle_eq_iff _).2 ?_
      unfold write at hwrite ⊢
      split at hwrite
      · cases hwrite
      · next hrd =>
          cases hwrite
          exact if_neg hrd
  | branch jump address =>
      exact absurd rfl (hc jump address)

theorem claimAll_withBranch
    {cs : List Claim}
    (h : s.claimAll cs = .ok t)
    (hcs : ∀ c ∈ cs, ∀ jump address, c ≠ .branch jump address)
    (b : Option (Jump × UInt8)) :
    claimAll { s with branch := b } cs = .ok { t with branch := b } := by
  induction cs generalizing s with
  | nil =>
      cases h
      rfl
  | cons c cs ih =>
      obtain ⟨s', hc, hrest⟩ := claimAll_cons_eq_ok h
      rw [claimAll, claim_withBranch hc (hcs c (by simp)) b]
      exact ih hrest fun d hd => hcs d (List.mem_cons_of_mem _ hd)

/-- The word of a cycle with another jump. -/
theorem pack_moved
    {n : Nat}
    {b : Option (Jump × UInt8)}
    {w : ControlWord}
    (hb : BranchMoved n s.branch b)
    (h : s.pack = .ok w) :
    ∃ w', pack { s with branch := b } = .ok w' ∧ w.Relocated n w' := by
  have hw : w.fields = s.fields := Fields.fields_of_pack h
  generalize hs : s.branch = held at hb
  cases hb with
  | none =>
      have hsame : { s with branch := none } = s := by
        rw [← hs]
      have hcond : w.fields .cond = 0 := by
        rw [hw, fields, hs]
      refine ⟨w, by rw [hsame]; exact h, ?_⟩
      rw [ControlWord.Relocated, if_pos (Or.inr hcond)]
  | @some jump a a' ha =>
      have hcond : w.fields .cond = jump.code := by
        rw [hw, fields, hs]
      have hother : ∀ f, f ≠ .addr →
          fields { s with branch := some (jump, a') } f = s.fields f := by
        intro f hf
        cases f with
        | cond => rw [← hw, hcond]; rfl
        | addr => exact absurd rfl hf
        | _ => rfl
      obtain ⟨w', hw'⟩ : ∃ w', pack { s with branch := some (jump, a') } = .ok w' := by
        refine Fields.exists_pack fun f => ?_
        by_cases hf : f = .addr
        · have hlt : a'.toNat < Field.addr.capacity := a'.toNat_lt
          simpa [hf, Fields.overflows, fields] using hlt
        · rw [Fields.overflows, hother f hf]
          exact Fields.overflows_of_pack h f
      have hmoved : w'.fields = _ := Fields.fields_of_pack hw'
      refine ⟨w', hw', ?_⟩
      rw [ControlWord.Relocated, if_neg]
      · refine ⟨fun f hf => by rw [hmoved, hw, hother f hf], ?_⟩
        rw [hmoved, hw, fields, fields, hs]
        exact ha
      · -- The cycle of a word that jumps does not halt, and a jump has a code of its own.
        rintro (hhalt | hzero)
        · exact ne_halt_of_fields hw hhalt
        · rw [hcond] at hzero
          cases jump <;> cases hzero

end Resources

section Demands

variable {labels labels' : LabelTable} {g : Position → Position} {sub : Located Subinstruction}

theorem Expr.claims_move
    (e : Expr) :
    (e.move g).claims = e.claims := by
  cases e with
  | unary op operand => cases operand <;> rfl
  | _ => rfl

theorem assignmentClaims_move
    (dest : Register)
    (e : Expr) :
    assignmentClaims dest (e.move g) = assignmentClaims dest e := by
  unfold assignmentClaims
  rw [Expr.claims_move]
  split
  · cases e <;> rfl
  · rfl

/-- A sub-instruction that is no jump makes the same claims at another place and with
another label table. -/
theorem Subinstruction.HasClaims.moved
    {cs : List Claim}
    (h : Subinstruction.HasClaims labels sub cs)
    (hjump : sub.value.jump? = none) :
    Subinstruction.HasClaims labels' (sub.moveWith g (Subinstruction.move g)) cs := by
  obtain ⟨value, span⟩ := sub
  cases value with
  | goto target => cases hjump
  | branch condition target => cases hjump
  | assign dest source =>
      simp only [Subinstruction.HasClaims, Subinstruction.demand, Located.moveWith,
        Subinstruction.move, Located.move, assignmentClaims_move] at h ⊢
      split at h
      · cases h
      · next hmutable =>
          rw [if_neg hmutable]
          split at h
          · next claims hclaims =>
              cases h
              rfl
          · cases h
  | read => exact h
  | write => exact h
  | halt => exact h

theorem jump?_move
    (sub : Subinstruction) :
    (sub.move g).jump? = sub.jump?.map (Prod.map id (Located.move g)) := by
  cases sub <;> rfl

/-- A jump claims the branch to what the other label table gives. -/
theorem hasClaims_of_jump
    {jump : Jump}
    {target : Located String}
    {address : UInt8}
    (hjump : sub.value.jump? = some (jump, target))
    (haddress : labels'.target? target.value = some address) :
    Subinstruction.HasClaims labels' (sub.moveWith g (Subinstruction.move g))
      [.branch jump address] := by
  have hmoved : (sub.moveWith g (Subinstruction.move g)).value.jump? =
      some (jump, target.move g) := by
    rw [Located.moveWith, jump?_move, hjump]
    rfl
  rw [Subinstruction.HasClaims, demand_of_jump hmoved, jumpDemand, Located.move, haddress]

/-- The demand of a sub-instruction depends on the address of its target only. -/
theorem demand_congr
    (h : ∀ target, sub.value.target? = some target →
      labels'.target? target.value = labels.target? target.value) :
    Subinstruction.demand labels' sub = Subinstruction.demand labels sub := by
  obtain ⟨value, span⟩ := sub
  cases value with
  | goto target => simp only [Subinstruction.demand, jumpDemand, h target rfl]
  | branch condition target => simp only [Subinstruction.demand, jumpDemand, h target rfl]
  | _ => rfl

end Demands

theorem target?_of_jump?
    {sub : Subinstruction}
    {jump : Jump}
    {target : Located String}
    (h : sub.jump? = some (jump, target)) :
    sub.target? = some target := by
  cases sub <;> cases h <;> rfl

section Words

variable {labels labels' : LabelTable} {n : Nat}

/-- Tables of which the second leads the jumps of some sub-instructions further on. -/
def TargetsMoved (n : Nat) (labels labels' : LabelTable) (subs : List (Located Subinstruction)) :
    Prop :=
  ∀ sub ∈ subs, ∀ target, sub.value.target? = some target →
    ∃ a a', labels.target? target.value = some a ∧ labels'.target? target.value = some a' ∧
      a'.toNat = a.toNat + n

/-- The word of sub-instructions whose targets are moved is the same, but for the
address of its branch. -/
theorem encodeFrom_moved
    (g : Position → Position)
    {s : Resources}
    {b : Option (Jump × UInt8)}
    {subs : List (Located Subinstruction)}
    {w : ControlWord}
    (htargets : TargetsMoved n labels labels' subs)
    (hb : BranchMoved n s.branch b)
    (h : encodeFrom labels s subs = .ok w) :
    ∃ w', encodeFrom labels' { s with branch := b }
        (subs.map (Located.moveWith g (Subinstruction.move g))) = .ok w' ∧
      w.Relocated n w' := by
  induction subs generalizing s b with
  | nil =>
      simp only [encodeFrom, Resources.word] at h
      split at h
      · next word hpack =>
          cases h
          obtain ⟨w', hw', hmoved⟩ := Resources.pack_moved hb hpack
          exact ⟨w', by rw [List.map_nil, encodeFrom, Resources.word, hw'], hmoved⟩
      · cases h
  | cons sub subs ih =>
      have hrest := fun x hx => htargets x (List.mem_cons_of_mem sub hx)
      by_cases hhalt : sub.value = .halt
      · rw [encodeFrom_halt _ _ hhalt] at h
        cases h
        refine ⟨.halt, encodeFrom_halt _ _ ?_, ?_⟩
        · simp [Located.moveWith, hhalt, Subinstruction.move]
        · rw [ControlWord.Relocated, if_pos (Or.inl rfl)]
      · obtain ⟨cs, s', hclaims, hs', hmore⟩ := encodeFrom_cons_eq_ok hhalt h
        -- One step of the other encoding, once its claims are known and granted.
        have hstep : ∀ {ds : List Claim} {b' : Option (Jump × UInt8)},
            Subinstruction.HasClaims labels' (sub.moveWith g (Subinstruction.move g)) ds →
            Resources.claimAll { s with branch := b } ds = .ok { s' with branch := b' } →
            BranchMoved n s'.branch b' →
            ∃ w', encodeFrom labels' { s with branch := b }
                ((sub :: subs).map (Located.moveWith g (Subinstruction.move g))) = .ok w' ∧
              w.Relocated n w' := by
          intro ds b' hds hgranted hb'
          obtain ⟨w', hw', hmoved⟩ := ih hrest hb' hmore
          refine ⟨w', ?_, hmoved⟩
          rw [Subinstruction.HasClaims] at hds
          simp only [List.map_cons, encodeFrom, hds, hgranted, hw']
        cases hjump : sub.value.jump? with
        | none =>
            have hother : ∀ c ∈ cs, ∀ jump address, ¬ c.Asks (.jump jump address) :=
              fun c hc => hclaims.not_asks_jump hjump hc
            have hne : ∀ c ∈ cs, ∀ jump address, c ≠ .branch jump address := by
              rintro c hc jump address rfl
              exact hother _ hc jump address (by simp [Claim.Asks, Claim.ways])
            refine hstep (hclaims.moved hjump) (Resources.claimAll_withBranch hs' hne b) ?_
            rw [branch_eq_of_claimAll hs' hother]
            exact hb
        | some pair =>
            obtain ⟨jump, target⟩ := pair
            obtain ⟨address, haddress, rfl⟩ := hclaims.of_jump hjump
            obtain ⟨hfree, rfl⟩ := claimAll_branch_eq_ok_iff.1 hs'
            obtain ⟨a, a', ha, ha', hmoved⟩ := htargets sub (by simp) target
              (target?_of_jump? hjump)
            rw [haddress] at ha
            cases ha
            rw [hfree] at hb
            cases hb
            exact hstep (hasClaims_of_jump hjump ha')
              (claimAll_branch_eq_ok_iff.2 ⟨rfl, rfl⟩) (.some hmoved)

theorem encodeAll_append
    {is js : List Instruction}
    {ws vs : List ControlWord}
    (his : encodeAll labels is = .ok ws)
    (hjs : encodeAll labels js = .ok vs) :
    encodeAll labels (is ++ js) = .ok (ws ++ vs) := by
  induction is generalizing ws with
  | nil =>
      cases his
      exact hjs
  | cons i is ih =>
      obtain ⟨w, rest, hi, hrest, rfl⟩ := encodeAll_cons_eq_ok_iff.1 his
      exact encodeAll_cons_eq_ok_iff.2 ⟨w, rest ++ vs, hi, ih hrest, rfl⟩

theorem encodeFrom_congr
    (s : Resources)
    {subs : List (Located Subinstruction)}
    (h : ∀ sub ∈ subs, Subinstruction.demand labels' sub = Subinstruction.demand labels sub) :
    encodeFrom labels' s subs = encodeFrom labels s subs := by
  induction subs generalizing s with
  | nil =>
      rfl
  | cons sub subs ih =>
      simp only [encodeFrom, h sub (by simp)]
      split
      · rfl
      · rfl
      · split
        · exact ih _ fun x hx => h x (List.mem_cons_of_mem _ hx)
        · rfl

/-- The words of instructions depend on the addresses of their targets only. -/
theorem encodeAll_congr
    {is : List Instruction}
    (h : ∀ i ∈ is, ∀ sub ∈ i.subs, ∀ target, sub.value.target? = some target →
      labels'.target? target.value = labels.target? target.value) :
    encodeAll labels' is = encodeAll labels is := by
  induction is with
  | nil =>
      rfl
  | cons i is ih =>
      have hi : i.encode labels' = i.encode labels :=
        encodeFrom_congr .fresh fun sub hsub => demand_congr (h i (by simp) sub hsub)
      rw [encodeAll, encodeAll, hi, ih fun j hj => h j (List.mem_cons_of_mem _ hj)]

/-- The words of instructions at other places, whose targets are moved, are the same, but
for the addresses of their branches. -/
theorem encodeAll_moved
    (place : Instruction → Instruction)
    (g : Position → Position)
    (hplace : ∀ i, (place i).subs = (i.move g).subs)
    {is : List Instruction}
    {words : List ControlWord}
    (htargets : ∀ i ∈ is, TargetsMoved n labels labels' i.subs)
    (h : encodeAll labels is = .ok words) :
    ∃ words', encodeAll labels' (is.map place) = .ok words' ∧
      List.Forall₂ (ControlWord.Relocated n) words words' := by
  induction is generalizing words with
  | nil =>
      cases h
      exact ⟨[], rfl, .nil⟩
  | cons i is ih =>
      obtain ⟨w, ws, hi, his, rfl⟩ := encodeAll_cons_eq_ok_iff.1 h
      obtain ⟨w', hw', hmoved⟩ := encodeFrom_moved g (htargets i (by simp))
        (BranchMoved.none : BranchMoved n Resources.fresh.branch none) hi
      obtain ⟨ws', hws', hrest⟩ := ih (fun j hj => htargets j (List.mem_cons_of_mem _ hj)) his
      refine ⟨w' :: ws', encodeAll_cons_eq_ok_iff.2 ⟨w', ws', ?_, hws', rfl⟩, .cons hmoved hrest⟩
      rw [Instruction.encode, hplace]
      exact hw'

end Words

end Microcode
