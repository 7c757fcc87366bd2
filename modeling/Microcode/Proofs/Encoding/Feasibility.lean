import Microcode.Proofs.Encoding.Relocation
import Microcode.Proofs.Encoding.Reordering

/-!
# Which instructions have a word

**Input.**  An instruction without `halt` whose additions stand behind its other
sub-instructions.

**Algorithm.**  An `Allotment` gives every shared unit of the data path at most one thing
to do.  If one serves all sub-instructions at once, the encoding follows it: what is
claimed so far stays within it, and so no claim is refused.  The first addition may take
the inputs the other way round.  As only additions come after it, they can be met with
exchanged inputs too, and the encoding follows the exchanged allotment from there on.

**Results.**
* `Follows.step` is the step: a sub-instruction is granted and the rest can be followed.
* `exists_word_of_follows` is the run: the encoding ends with a word.
* `feasible_of_encode`: an instruction with a word is feasible, in whatever order.
* `encode_of_sums_last`: with the additions last, every feasible instruction has a word.
-/

namespace Microcode

section Allotments

/-- What the shared units of a cycle do, at most one thing each.  The A side carries `mbr`
or a register of the buses, the B bus a register of the buses. -/
structure Allotment where
  a : Option Register
  b : Option Register
  c : Option Register
  alu : Option AluOp
  shifter : Option ShiftOp
  a_carries : ∀ r, a = some r → r = .mbr ∨ r.OnBuses
  b_carries : ∀ r, b = some r → r.OnBuses

namespace Allotment

/-- Two registers are the inputs, in either order. -/
def Adds (p : Allotment) (x y : Register) : Prop :=
  (p.a = some x ∧ p.b = some y) ∨ (p.a = some y ∧ p.b = some x)

/-- The demands of the operand of an operation in parentheses. -/
def ServesOperand (p : Allotment) : Operand → Prop
  | .read r => p.a = some r.value
  | .add left right => p.Adds left.value right.value ∧ p.alu = some .add

/-- The demands of an operation in parentheses. -/
def ServesOperation (p : Allotment) : UnaryOp → Prop
  | .leftShift => p.shifter = some .left
  | .rightShift => p.shifter = some .right
  | .invert => p.alu = some .invert

/-- The demands of a right-hand side. -/
def ServesExpr (p : Allotment) : Expr → Prop
  | .read r => p.a = some r.value ∧ p.alu = some .pass ∧ p.shifter = some .keep
  | .add left right => p.Adds left.value right.value ∧ p.alu = some .add
  | .band left right =>
      p.a = some left.value ∧ p.b = some right.value ∧ p.alu = some .band
  | .unary op operand => p.ServesOperand operand ∧ p.ServesOperation op

/-- The demands of a sub-instruction on the shared units: `mar` is loaded over the B bus,
and every other destination but `mbr` and `alu` needs the C bus. -/
def Serves (p : Allotment) : Subinstruction → Prop
  | .assign dest source =>
      if dest.value = .mar then ∀ r, source.value = .read r → p.b = some r.value
      else p.ServesExpr source.value ∧
        (dest.value ≠ .mbr → dest.value ≠ .alu → p.c = some dest.value)
  | _ => True

end Allotment

/-- An instruction whose sub-instructions can be served at once and break no other rule
of the data path. -/
structure Instruction.Feasible (i : Instruction) : Prop where
  allotment : ∃ p : Allotment, ∀ sub ∈ i.subs, p.Serves sub.value
  mutable : ∀ dest e, i.Assigns dest e → dest.isMutable = true
  readable : ∀ dest e, i.Assigns dest e → ∀ r ∈ e.registers, r.isReadable = true
  load : ∀ e, i.Assigns .mar e → ∃ r, e = .read r
  memory : ¬ ((∃ sub ∈ i.subs, sub.value = .read) ∧ ∃ sub ∈ i.subs, sub.value = .write)
  jump : (i.subs.countP fun sub => sub.value.target?.isSome) ≤ 1

/-- Every sub-instruction behind one that adds adds as well. -/
def SumsLast (subs : List (Located Subinstruction)) : Prop :=
  subs.Pairwise fun x y => x.value.addends?.isSome → y.value.addends?.isSome

end Allotments

section Claims

variable {labels : LabelTable} {sub : Located Subinstruction} {cs : List Claim} {t : Resources}

/-- The claims of a right-hand side that adds: the addition, then what leaves the inputs
alone. -/
theorem Expr.claims_of_addends?
    {e : Expr}
    {x y : Register}
    (h : e.addends? = some (x, y)) :
    ∃ cs, e.claims = .add x y :: cs ∧
      ∀ c ∈ cs, (∃ op, c = .alu op) ∨ ∃ op, c = .shifter op := by
  rcases e with _ | _ | _ | ⟨op, _ | _⟩
  · cases h
  · cases h
    exact ⟨_, rfl, by simp⟩
  · cases h
  · cases h
  · cases h
    refine ⟨_, rfl, ?_⟩
    cases op <;> simp [UnaryOp.claim]

/-- The claims of a sub-instruction that adds: the addition, then what leaves the inputs
and the jump alone. -/
theorem Subinstruction.HasClaims.of_addends?
    (h : Subinstruction.HasClaims labels sub cs)
    {x y : Register}
    (hsum : sub.value.addends? = some (x, y)) :
    ∃ rest, cs = .add x y :: rest ∧
      ∀ c ∈ rest, c.offInputs = true ∧ ∀ jump address, c ≠ .branch jump address := by
  cases hvalue : sub.value with
  | assign dest source =>
      rw [hvalue] at hsum
      rcases h.assign_cases hvalue with ⟨-, r, hread, -⟩ | ⟨-, rfl⟩
      · rw [Subinstruction.addends?, hread] at hsum
        cases hsum
      · obtain ⟨rest, hrest, hoff⟩ := Expr.claims_of_addends? hsum
        refine ⟨rest ++ [.output dest.value], by rw [hrest]; rfl, fun c hc => ?_⟩
        rcases List.mem_append.1 hc with hc | hc
        · rcases hoff c hc with ⟨op, rfl⟩ | ⟨op, rfl⟩ <;> exact ⟨rfl, by simp⟩
        · rw [List.mem_singleton.1 hc]
          exact ⟨rfl, by simp⟩
  | _ =>
      rw [hvalue] at hsum
      cases hsum

/-- A cycle with exchanged inputs meets the claims of a sub-instruction that adds. -/
theorem Subinstruction.HasClaims.meets_exchanged
    (h : Subinstruction.HasClaims labels sub cs)
    (hsum : sub.value.addends?.isSome)
    (ht : t.Exchangeable)
    (hmet : ∀ c ∈ cs, t.Meets c) :
    ∀ c ∈ cs, t.exchanged.Meets c := by
  obtain ⟨⟨x, y⟩, hsum⟩ := Option.isSome_iff_exists.1 hsum
  obtain ⟨rest, rfl, hoff⟩ := h.of_addends? hsum
  intro c hc
  rcases List.mem_cons.1 hc with rfl | hrest
  · exact (hmet _ hc).exchanged_of_add ht
  · exact (hmet c hc).exchanged_of_offInputs (hoff c hrest).1

/-- A sub-instruction other than a jump makes no claim to the jump. -/
theorem Subinstruction.HasClaims.ne_branch
    (h : Subinstruction.HasClaims labels sub cs)
    (hjump : sub.value.jump? = none) :
    ∀ c ∈ cs, ∀ jump address, c ≠ .branch jump address := by
  rintro c hc jump address rfl
  exact h.not_asks_jump hjump hc jump address (by simp [Claim.Asks, Claim.ways])

/-- A sub-instruction that does not add makes claims with a single way. -/
theorem Subinstruction.HasClaims.ways_eq
    (h : Subinstruction.HasClaims labels sub cs)
    (hsum : sub.value.addends? = none) :
    ∀ c ∈ cs, ∃ us, c.ways = [us] := by
  intro c hc
  rcases c.ways_eq_or_add with hways | ⟨x, y, rfl⟩
  · exact hways
  · rw [h.addends?_of_mem hc] at hsum
    cases hsum

end Claims

section Runs

variable {labels : LabelTable} {s t : Resources} {sub : Located Subinstruction}
variable {subs : List (Located Subinstruction)}

/-- A cycle from which sub-instructions can be encoded by following another cycle, which
meets all their claims. -/
structure Follows (labels : LabelTable) (s t : Resources)
    (subs : List (Located Subinstruction)) : Prop where
  sound : s.Sound
  exclusive : t.Exclusive
  within : s.Within t
  met : ∀ sub ∈ subs, ∃ cs, Subinstruction.HasClaims labels sub cs ∧ ∀ c ∈ cs, t.Meets c
  sums_last : SumsLast subs
  jump_once : (subs.countP fun sub => sub.value.target?.isSome) ≤ 1
  /-- A jump that has been claimed was the only one. -/
  jump_done : s.branch ≠ none → ∀ sub ∈ subs, sub.value.jump? = none

/-- If the first of some sub-instructions jumps, no other one does. -/
theorem jump?_eq_none_of_jump
    {jump : Jump}
    {target : Located String}
    (hsub : sub.value.jump? = some (jump, target))
    (honce : ((sub :: subs).countP fun sub => sub.value.target?.isSome) ≤ 1) :
    ∀ x ∈ subs, x.value.jump? = none := by
  have htarget : sub.value.target? ≠ none := fun hnone => by
    rw [(target?_eq_none_iff _).1 hnone] at hsub
    cases hsub
  have hzero : (subs.countP fun sub => sub.value.target?.isSome) = 0 := by
    rw [List.countP_cons, if_pos (Option.isSome_iff_ne_none.2 htarget)] at honce
    omega
  intro x hx
  have hx' := List.countP_eq_zero.1 hzero x hx
  exact (target?_eq_none_iff _).1 (by simpa using hx')

/-- One step: the first sub-instruction is granted all it claims, and the others can be
encoded by following the same cycle, or the one with exchanged inputs. -/
theorem Follows.step
    (h : Follows labels s t (sub :: subs)) :
    ∃ cs s' t', Subinstruction.HasClaims labels sub cs ∧ s.claimAll cs = .ok s' ∧
      Follows labels s' t' subs := by
  obtain ⟨cs, hcs, hmet⟩ := h.met sub (by simp)
  have hrest : ∀ x ∈ subs, ∃ ds, Subinstruction.HasClaims labels x ds ∧ ∀ c ∈ ds, t.Meets c :=
    fun x hx => h.met x (List.mem_cons_of_mem _ hx)
  obtain ⟨hlater, hlast⟩ := List.pairwise_cons.1 h.sums_last
  have honce : (subs.countP fun sub => sub.value.target?.isSome) ≤ 1 := by
    have hall := h.jump_once
    rw [List.countP_cons] at hall
    omega
  have hsound : ∀ {s'}, s.claimAll cs = .ok s' → s'.Sound := fun hclaims =>
    sound_of_claimAll h.sound (fun c hc => hcs.not_asks_mar hc) hclaims
  cases hjump : sub.value.jump? with
  | some pair =>
      obtain ⟨jump, target⟩ := pair
      obtain ⟨address, -, rfl⟩ := hcs.of_jump hjump
      have hfree : s.branch = none := by
        by_contra hclaimed
        rw [h.jump_done hclaimed sub (by simp)] at hjump
        cases hjump
      obtain ⟨s', hclaim⟩ := Resources.exists_claim_of_within h.exclusive h.within
        (hmet _ (List.mem_singleton_self _)) fun _ _ _ => hfree
      have hclaims : s.claimAll [.branch jump address] = .ok s' := by
        rw [Resources.claimAll, hclaim]
        rfl
      exact ⟨_, s', t, hcs, hclaims, hsound hclaims, h.exclusive,
        h.within.claim (hmet _ (List.mem_singleton_self _)) ⟨_, rfl⟩ hclaim, hrest, hlast, honce,
        fun _ => jump?_eq_none_of_jump hjump h.jump_once⟩
  | none =>
      have hdone : ∀ {s'}, s.claimAll cs = .ok s' →
          s'.branch ≠ none → ∀ x ∈ subs, x.value.jump? = none := by
        intro s' hclaims hclaimed x hx
        rw [branch_eq_of_claimAll hclaims fun c hc => hcs.not_asks_jump hjump hc] at hclaimed
        exact h.jump_done hclaimed x (List.mem_cons_of_mem _ hx)
      cases hsum : sub.value.addends? with
      | none =>
          obtain ⟨s', hclaims, hwithin⟩ := Resources.exists_claimAll_within h.exclusive h.within
            hmet (hcs.ways_eq hsum) (hcs.ne_branch hjump)
          exact ⟨cs, s', t, hcs, hclaims, hsound hclaims, h.exclusive, hwithin, hrest, hlast,
            honce, hdone hclaims⟩
      | some pair =>
          obtain ⟨x, y⟩ := pair
          obtain ⟨rest, rfl, hoff⟩ := hcs.of_addends? hsum
          obtain ⟨s', hclaims, hwithin | ⟨hwithin, hexchange⟩⟩ :=
            Resources.exists_claimAll_add_within h.exclusive h.within hmet
              (fun c hc => (hoff c hc).1) fun c hc => (hoff c hc).2
          · exact ⟨_, s', t, hcs, hclaims, hsound hclaims, h.exclusive, hwithin, hrest, hlast,
              honce, hdone hclaims⟩
          · -- Only additions are left, and they are met with exchanged inputs too.
            refine ⟨_, s', t.exchanged, hcs, hclaims, hsound hclaims, h.exclusive, hwithin, ?_,
              hlast, honce, hdone hclaims⟩
            intro z hz
            obtain ⟨ds, hds, hmet'⟩ := hrest z hz
            have hz' : z.value.addends?.isSome := hlater z hz (by rw [hsum]; rfl)
            exact ⟨ds, hds, hds.meets_exchanged hz' hexchange hmet'⟩

/-- The run: sub-instructions that can be encoded by following a cycle have a word. -/
theorem exists_word_of_follows
    (h : Follows labels s t subs) :
    ∃ w, encodeFrom labels s subs = .ok w := by
  induction subs generalizing s t with
  | nil =>
      obtain ⟨w, hw⟩ := h.sound.exists_pack
      exact ⟨w, by rw [encodeFrom, Resources.word, hw]⟩
  | cons sub subs ih =>
      obtain ⟨cs, s', t', hcs, hclaims, hfollows⟩ := h.step
      obtain ⟨w, hw⟩ := ih hfollows
      rw [Subinstruction.HasClaims] at hcs
      exact ⟨w, by simp only [encodeFrom, hcs, hclaims, hw]⟩

end Runs

section Serving

variable {p : Allotment} {t : Resources}

/-- The shared units of a cycle do what an allotment says. -/
structure Allotment.Describes (p : Allotment) (t : Resources) : Prop where
  a : t.a = p.a
  b : t.b = p.b
  c : t.c = p.c
  alu : t.alu = p.alu
  shifter : t.shifter = p.shifter

theorem Register.isReadable_of_onBuses
    {r : Register}
    (h : r.OnBuses) :
    r.isReadable = true := by
  obtain ⟨hmar, -, halu⟩ := h
  cases r <;> simp_all [Register.isReadable]

theorem Allotment.permitted_a
    {r : Register}
    (h : p.a = some r) :
    (Use.onA r).Permitted := by
  rcases p.a_carries r h with rfl | hbuses
  · rfl
  · exact Register.isReadable_of_onBuses hbuses

theorem Allotment.permitted_b
    {r : Register}
    (h : p.b = some r) :
    (Use.onB r).Permitted := by
  have hbuses := p.b_carries r h
  exact ⟨Register.isReadable_of_onBuses hbuses, hbuses.2.1⟩

namespace Allotment.Describes

/-- A cycle meets a claim with a single way if it has all uses of that way. -/
theorem meets_single_iff
    {c : Claim}
    {us : List Use}
    (hways : c.ways = [us]) :
    t.Meets c ↔ ∀ u ∈ us, t.Has u ∧ u.Permitted := by
  refine ⟨fun h u hu => has_of_meets_single h hways hu, fun h => ⟨us, ?_, h⟩⟩
  rw [hways]
  exact List.mem_singleton_self us

theorem meets_routeA_iff
    (h : p.Describes t)
    (r : Register) :
    t.Meets (.routeA r) ↔ p.a = some r := by
  rw [meets_single_iff rfl, ← h.a]
  simp only [List.mem_singleton, forall_eq, Resources.Has]
  exact ⟨fun hr => hr.1, fun hr => ⟨hr, permitted_a (h.a ▸ hr)⟩⟩

theorem meets_routeB_iff
    (h : p.Describes t)
    (r : Register) :
    t.Meets (.routeB r) ↔ p.b = some r := by
  rw [meets_single_iff rfl, ← h.b]
  simp only [List.mem_singleton, forall_eq, Resources.Has]
  exact ⟨fun hr => hr.1, fun hr => ⟨hr, permitted_b (h.b ▸ hr)⟩⟩

theorem meets_alu_iff
    (h : p.Describes t)
    (op : AluOp) :
    t.Meets (.alu op) ↔ p.alu = some op := by
  rw [meets_single_iff rfl, ← h.alu]
  simp [Resources.Has, Use.Permitted]

theorem meets_shifter_iff
    (h : p.Describes t)
    (op : ShiftOp) :
    t.Meets (.shifter op) ↔ p.shifter = some op := by
  rw [meets_single_iff rfl, ← h.shifter]
  simp [Resources.Has, Use.Permitted]

theorem meets_add_iff
    (h : p.Describes t)
    (x y : Register) :
    t.Meets (.add x y) ↔ p.Adds x y := by
  have hway : ∀ x y, (∀ u ∈ [Use.onA x, Use.onB y], t.Has u ∧ u.Permitted) ↔
      p.a = some x ∧ p.b = some y := by
    intro x y
    have hA := h.meets_routeA_iff x
    have hB := h.meets_routeB_iff y
    rw [meets_single_iff rfl] at hA hB
    rw [← hA, ← hB]
    simp
  rw [Allotment.Adds, ← hway x y, ← hway y x]
  simp [Resources.Meets, Claim.ways]

/-- A cycle meets the claims of a right-hand side if and only if it serves its demands. -/
theorem meets_claims_iff
    (h : p.Describes t)
    (e : Expr) :
    (∀ c ∈ e.claims, t.Meets c) ↔ p.ServesExpr e := by
  cases e with
  | read r =>
      simp [Expr.claims, ServesExpr, h.meets_routeA_iff, h.meets_alu_iff, h.meets_shifter_iff]
  | add left right =>
      simp [Expr.claims, ServesExpr, h.meets_add_iff, h.meets_alu_iff]
  | band left right =>
      simp [Expr.claims, ServesExpr, h.meets_routeA_iff, h.meets_routeB_iff, h.meets_alu_iff]
  | unary op operand =>
      have hoperand : (∀ c ∈ operand.claims, t.Meets c) ↔ p.ServesOperand operand := by
        cases operand <;>
          simp [Operand.claims, ServesOperand, h.meets_routeA_iff, h.meets_add_iff,
            h.meets_alu_iff]
      have hop : t.Meets op.claim ↔ p.ServesOperation op := by
        cases op
        · exact h.meets_shifter_iff .left
        · exact h.meets_shifter_iff .right
        · exact h.meets_alu_iff .invert
      rw [ServesExpr, ← hoperand, ← hop, Expr.claims]
      simp only [List.mem_append, List.mem_singleton, or_imp, forall_and, forall_eq]

end Allotment.Describes

end Serving

section Words

variable {labels : LabelTable} {i : Instruction} {w : ControlWord} {t : Resources}

/-- What is claimed is the same whether or not a run would go on after a conflict. -/
theorem Resources.attemptAll_of_claimAll
    {s : Resources}
    {cs : List Claim}
    (h : s.claimAll cs = .ok t) :
    s.attemptAll cs = t := by
  induction cs generalizing s with
  | nil =>
      exact Except.ok.inj h
  | cons c cs ih =>
      obtain ⟨s', hc, hcs⟩ := claimAll_cons_eq_ok h
      rw [attemptAll_cons, (claim_eq_ok_iff _ _ _).1 hc]
      exact ih hcs

/-- An instruction with a word does not both read and write memory. -/
theorem memory_of_encode
    (hhalt : ∀ sub ∈ i.subs, sub.value ≠ .halt)
    (h : i.encode labels = .ok w) :
    ¬ ((∃ sub ∈ i.subs, sub.value = .read) ∧ ∃ sub ∈ i.subs, sub.value = .write) := by
  obtain ⟨all, t, hall, -, hfrom, -⟩ := exists_claimAll_of_encodeFrom hhalt h
  have hexclusive : t.Exclusive :=
    Resources.attemptAll_of_claimAll hall ▸
      Resources.exclusive_attemptAll Resources.exclusive_fresh all
  have hmet : ∀ {sub}, sub ∈ i.subs → ∀ {c}, (∀ cs, Subinstruction.HasClaims labels sub cs →
      c ∈ cs) → t.Meets c := by
    intro sub hsub c hc
    obtain ⟨cs, hcs, hmem⟩ := hfrom sub hsub
    exact Resources.meets_of_claimAll hall c (hmem c (hc cs hcs))
  rintro ⟨⟨reader, hreader, hread⟩, writer, hwriter, hwrite⟩
  have hrd : t.Meets .read := hmet hreader fun cs hcs => hcs.memory_iff.1.2 hread
  have hwr : t.Meets .write := hmet hwriter fun cs hcs => hcs.memory_iff.2.2 hwrite
  exact hexclusive ⟨(has_of_meets_single hrd rfl (List.mem_singleton_self _)).1,
    (has_of_meets_single hwr rfl (List.mem_singleton_self _)).1⟩

/-- An instruction with a word jumps at most once. -/
theorem countP_target?_of_encode
    (hhalt : ∀ sub ∈ i.subs, sub.value ≠ .halt)
    (h : i.encode labels = .ok w) :
    (i.subs.countP fun sub => sub.value.target?.isSome) ≤ 1 := by
  rcases branch_of_encode hhalt h with ⟨hnone, -⟩ | ⟨before, sub, after, -, hsubs, hothers, -⟩
  · have hzero : (i.subs.countP fun sub => sub.value.target?.isSome) = 0 :=
      List.countP_eq_zero.2 fun sub hsub => by simp [hnone sub hsub]
    omega
  · have hbefore : (before.countP fun sub => sub.value.target?.isSome) = 0 :=
      List.countP_eq_zero.2 fun x hx => by simp [hothers x (List.mem_append_left _ hx)]
    have hafter : (after.countP fun sub => sub.value.target?.isSome) = 0 :=
      List.countP_eq_zero.2 fun x hx => by simp [hothers x (List.mem_append_right _ hx)]
    rw [hsubs, List.countP_append, List.countP_cons, hbefore, hafter]
    split <;> omega

theorem Subinstruction.HasClaims.isMutable
    {sub : Located Subinstruction}
    {cs : List Claim}
    {dest : Located Register}
    {source : Located Expr}
    (h : Subinstruction.HasClaims labels sub cs)
    (hsub : sub.value = .assign dest source) :
    dest.value.isMutable = true := by
  rw [Subinstruction.HasClaims, Subinstruction.demand, hsub] at h
  by_contra hconstant
  rw [Bool.not_eq_true] at hconstant
  simp [hconstant] at h

/-- The registers that a performed right-hand side names can be read. -/
theorem Performs.isReadable
    (h : Performs labels i.subs t)
    {dest : Register}
    {e : Expr}
    (ha : i.Assigns dest e)
    {r : Register}
    (hr : r ∈ e.registers) :
    r.isReadable = true := by
  by_cases hmar : dest = .mar
  · subst hmar
    obtain ⟨q, rfl, -, -, hpermitted⟩ := h.load ha
    rw [List.mem_singleton.1 hr]
    exact hpermitted.1
  · rcases Expr.mem_registers_iff.1 hr with hleft | hright | ⟨x, hsum⟩ | ⟨x, hsum⟩
    · exact (h.has_left ha hmar hleft).2
    · exact (h.has_right ha hright).2.1
    · rcases h.has_addends ha hsum with ⟨hx, -⟩ | ⟨-, hx⟩
      · exact hx.2
      · exact hx.2.1
    · rcases h.has_addends ha hsum with ⟨-, hx⟩ | ⟨hx, -⟩
      · exact hx.2.1
      · exact hx.2

/-- The allotment of a cycle that performs sub-instructions serves them. -/
theorem Performs.exists_allotment
    (h : Performs labels i.subs t) :
    ∃ p : Allotment, ∀ sub ∈ i.subs, p.Serves sub.value := by
  let p : Allotment := {
    a := t.a
    b := t.b
    c := t.c
    alu := t.alu
    shifter := t.shifter
    a_carries := fun r hr => by
      by_cases hmbr : r = .mbr
      · exact Or.inl hmbr
      · exact Or.inr (Register.onBuses_of_isReadable (h.sound.permitted (.onA r) hr) hmbr)
    b_carries := fun r hr => h.sound.onBuses_b hr }
  have hp : p.Describes t := ⟨rfl, rfl, rfl, rfl, rfl⟩
  refine ⟨p, fun sub hsub => ?_⟩
  cases hvalue : sub.value with
  | assign dest source =>
      have ha : i.Assigns dest.value source.value := ⟨sub, hsub, dest, source, hvalue, rfl, rfl⟩
      rw [Allotment.Serves]
      rcases h.meets_assignment ha with ⟨hmar, r, hread, hload⟩ | ⟨hmar, hmet, hout⟩
      · rw [if_pos hmar]
        intro q hq
        rw [hread] at hq
        cases hq
        exact (has_of_meets_single (u := .onB r.value) hload rfl (by simp)).1
      · rw [if_neg hmar]
        refine ⟨(hp.meets_claims_iff _).1 hmet, fun hmbr halu => ?_⟩
        exact (has_of_meets_single (u := .onC dest.value) hout rfl
          (mem_outputUses_iff.2 (Or.inr ⟨rfl, hmbr, halu⟩))).1
  | _ => trivial

/-- An instruction with a word is feasible, in whatever order its sub-instructions
stand. -/
theorem feasible_of_encode
    (hhalt : ∀ sub ∈ i.subs, sub.value ≠ .halt)
    (h : i.encode labels = .ok w) :
    i.Feasible := by
  obtain ⟨t, -, hper⟩ := exists_performs_of_encode hhalt h
  exact {
    allotment := hper.exists_allotment
    mutable := by
      rintro dest e ⟨sub, hsub, dest, source, hvalue, rfl, rfl⟩
      obtain ⟨cs, hcs, -⟩ := hper.met sub hsub
      exact hcs.isMutable hvalue
    readable := fun dest e ha r hr => hper.isReadable ha hr
    load := fun e ha => by
      obtain ⟨r, hr, -⟩ := hper.load ha
      exact ⟨r, hr⟩
    memory := memory_of_encode hhalt h
    jump := countP_target?_of_encode hhalt h }

end Words

section Targets

variable {labels : LabelTable} {i : Instruction}

/-- Sub-instructions of which at most one jumps agree on the branch of the cycle. -/
theorem exists_branch
    {subs : List (Located Subinstruction)}
    (honce : (subs.countP fun sub => sub.value.target?.isSome) ≤ 1)
    (htargets : ∀ sub ∈ subs, ∀ target, sub.value.target? = some target →
      labels.target? target.value ≠ none) :
    ∃ branch : Option (Jump × UInt8), ∀ sub ∈ subs, ∀ jump target,
      sub.value.jump? = some (jump, target) →
      ∃ address, labels.target? target.value = some address ∧ branch = some (jump, address) := by
  induction subs with
  | nil =>
      exact ⟨none, by simp⟩
  | cons sub subs ih =>
      cases hjump : sub.value.jump? with
      | none =>
          have hfewer : (subs.countP fun sub => sub.value.target?.isSome) ≤ 1 := by
            rw [List.countP_cons] at honce
            omega
          obtain ⟨branch, hbranch⟩ :=
            ih hfewer fun x hx => htargets x (List.mem_cons_of_mem _ hx)
          refine ⟨branch, fun x hx jump target hx' => ?_⟩
          rcases List.mem_cons.1 hx with rfl | hx
          · rw [hjump] at hx'
            cases hx'
          · exact hbranch x hx jump target hx'
      | some pair =>
          obtain ⟨jump, target⟩ := pair
          have hothers := jump?_eq_none_of_jump hjump honce
          obtain ⟨address, haddress⟩ := Option.ne_none_iff_exists'.1
            (htargets sub (by simp) target (target?_of_jump? hjump))
          refine ⟨some (jump, address), fun x hx jump' target' hx' => ?_⟩
          rcases List.mem_cons.1 hx with rfl | hx
          · rw [hjump] at hx'
            cases hx'
            exact ⟨address, haddress, rfl⟩
          · rw [hothers x hx] at hx'
            cases hx'

/-- The cycle of an allotment that also loads `mbr` and `mar`. -/
def Allotment.cycle (p : Allotment) (branch : Option (Jump × UInt8)) (rd wr : Bool) : Resources :=
  { a := p.a, b := p.b, c := p.c, alu := p.alu, shifter := p.shifter, branch := branch,
    mbr := true, mar := true, rd := rd, wr := wr }

theorem Allotment.describes_cycle
    (p : Allotment)
    (branch : Option (Jump × UInt8))
    (rd wr : Bool) :
    p.Describes (p.cycle branch rd wr) :=
  ⟨rfl, rfl, rfl, rfl, rfl⟩

/-- An assignment that is served has claims, and the cycle of the allotment meets them. -/
theorem Allotment.meets_assignment
    {p : Allotment}
    {branch : Option (Jump × UInt8)}
    {rd wr : Bool}
    {sub : Located Subinstruction}
    {dest : Located Register}
    {source : Located Expr}
    (hvalue : sub.value = .assign dest source)
    (hmutable : dest.value.isMutable = true)
    (hload : dest.value = .mar → ∃ r, source.value = .read r)
    (hserves : p.Serves (.assign dest source)) :
    ∃ cs, Subinstruction.HasClaims labels sub cs ∧
      ∀ c ∈ cs, (p.cycle branch rd wr).Meets c := by
  have hp := p.describes_cycle branch rd wr
  rw [Allotment.Serves] at hserves
  by_cases hmar : dest.value = .mar
  · obtain ⟨r, hread⟩ := hload hmar
    rw [if_pos hmar] at hserves
    have hB := hserves r hread
    refine ⟨[.loadMar r.value], ?_, fun c hc => ?_⟩
    · simp [Subinstruction.HasClaims, Subinstruction.demand, hvalue, Register.isMutable,
        assignmentClaims, hmar, hread]
    · rw [List.mem_singleton.1 hc]
      refine ⟨[.onB r.value, .loadMar], List.mem_singleton_self _, fun u hu => ?_⟩
      rcases List.mem_pair.1 hu with rfl | rfl
      · exact ⟨hB, permitted_b hB⟩
      · exact ⟨rfl, trivial⟩
  · rw [if_neg hmar] at hserves
    obtain ⟨hsource, hout⟩ := hserves
    refine ⟨source.value.claims ++ [.output dest.value], ?_, fun c hc => ?_⟩
    · simp [Subinstruction.HasClaims, Subinstruction.demand, hvalue, hmutable, assignmentClaims,
        hmar]
    · rcases List.mem_append.1 hc with hc | hc
      · exact (hp.meets_claims_iff source.value).2 hsource c hc
      · rw [List.mem_singleton.1 hc]
        refine ⟨dest.value.outputUses, List.mem_singleton_self _, fun u hu => ?_⟩
        rcases mem_outputUses_iff.1 hu with ⟨rfl, -⟩ | ⟨rfl, hmbr, halu⟩
        · exact ⟨rfl, trivial⟩
        · exact ⟨hout hmbr halu, hmutable, hmbr, halu⟩

/-- A feasible instruction with its additions last can be encoded by following the cycle
of its allotment. -/
theorem Instruction.Feasible.follows
    (h : i.Feasible)
    (hhalt : ∀ sub ∈ i.subs, sub.value ≠ .halt)
    (htargets : ∀ sub ∈ i.subs, ∀ target, sub.value.target? = some target →
      labels.target? target.value ≠ none)
    (hlast : SumsLast i.subs) :
    ∃ t, Follows labels .fresh t i.subs := by
  obtain ⟨p, hserves⟩ := h.allotment
  obtain ⟨branch, hbranch⟩ := exists_branch h.jump htargets
  let rd := decide (∃ sub ∈ i.subs, sub.value = .read)
  let wr := decide (∃ sub ∈ i.subs, sub.value = .write)
  refine ⟨p.cycle branch rd wr, {
    sound := sound_fresh
    exclusive := fun hboth => h.memory ⟨of_decide_eq_true hboth.1, of_decide_eq_true hboth.2⟩
    within := fun u hu => absurd hu (Resources.not_has_fresh u)
    met := fun sub hsub => ?_
    sums_last := hlast
    jump_once := h.jump
    jump_done := fun hclaimed => absurd rfl hclaimed }⟩
  have hsingle : ∀ {c u}, c.ways = [[u]] → (p.cycle branch rd wr).Has u → u.Permitted →
      ∀ d ∈ [c], (p.cycle branch rd wr).Meets d := by
    intro c u hways hu hpermitted d hd
    rw [List.mem_singleton.1 hd]
    exact ⟨[u], by rw [hways]; simp, by simpa using ⟨hu, hpermitted⟩⟩
  have hjump : ∀ jump target, sub.value.jump? = some (jump, target) →
      ∃ cs, Subinstruction.HasClaims labels sub cs ∧
        ∀ c ∈ cs, (p.cycle branch rd wr).Meets c := by
    intro jump target hvalue
    obtain ⟨address, haddress, hheld⟩ := hbranch sub hsub jump target hvalue
    refine ⟨[.branch jump address], ?_, hsingle rfl hheld trivial⟩
    rw [Subinstruction.HasClaims, demand_of_jump hvalue, jumpDemand, haddress]
  cases hvalue : sub.value with
  | assign dest source =>
      have ha : i.Assigns dest.value source.value := ⟨sub, hsub, dest, source, hvalue, rfl, rfl⟩
      exact Allotment.meets_assignment hvalue (h.mutable _ _ ha)
        (fun hmar => h.load _ (hmar ▸ ha)) (hvalue ▸ hserves sub hsub)
  | goto target => exact hjump .always target (by rw [hvalue]; rfl)
  | branch condition target => exact hjump condition.jump target (by rw [hvalue]; rfl)
  | read =>
      refine ⟨[.read], ?_, hsingle rfl (decide_eq_true ⟨sub, hsub, hvalue⟩) trivial⟩
      rw [Subinstruction.HasClaims, Subinstruction.demand, hvalue]
  | write =>
      refine ⟨[.write], ?_, hsingle rfl (decide_eq_true ⟨sub, hsub, hvalue⟩) trivial⟩
      rw [Subinstruction.HasClaims, Subinstruction.demand, hvalue]
  | halt => exact absurd hvalue (hhalt sub hsub)

/-- Feasibility does not depend on the order of the sub-instructions. -/
theorem Instruction.Feasible.of_perm
    {j : Instruction}
    (h : i.Feasible)
    (hperm : j.subs.Perm i.subs) :
    j.Feasible := by
  have hassigns : ∀ dest e, j.Assigns dest e → i.Assigns dest e := by
    rintro dest e ⟨sub, hsub, hrest⟩
    exact ⟨sub, hperm.mem_iff.1 hsub, hrest⟩
  obtain ⟨p, hserves⟩ := h.allotment
  exact {
    allotment := ⟨p, fun sub hsub => hserves sub (hperm.mem_iff.1 hsub)⟩
    mutable := fun dest e ha => h.mutable dest e (hassigns dest e ha)
    readable := fun dest e ha => h.readable dest e (hassigns dest e ha)
    load := fun e ha => h.load e (hassigns .mar e ha)
    memory := by
      rintro ⟨⟨reader, hreader, hread⟩, writer, hwriter, hwrite⟩
      exact h.memory ⟨⟨reader, hperm.mem_iff.1 hreader, hread⟩,
        writer, hperm.mem_iff.1 hwriter, hwrite⟩
    jump := by
      rw [hperm.countP_eq]
      exact h.jump }

/-- The targets of an instruction with a word have addresses. -/
theorem target?_ne_none_of_encode
    {w : ControlWord}
    (hhalt : ∀ sub ∈ i.subs, sub.value ≠ .halt)
    (h : i.encode labels = .ok w)
    {sub : Located Subinstruction}
    (hsub : sub ∈ i.subs)
    {target : Located String}
    (htarget : sub.value.target? = some target) :
    labels.target? target.value ≠ none := by
  obtain ⟨t, -, hper⟩ := exists_performs_of_encode hhalt h
  obtain ⟨cs, hcs, -⟩ := hper.met sub hsub
  cases hjump : sub.value.jump? with
  | none =>
      rw [(target?_eq_none_iff _).2 hjump] at htarget
      cases htarget
  | some pair =>
      obtain ⟨jump, name⟩ := pair
      obtain ⟨address, haddress, -⟩ := hcs.of_jump hjump
      rw [target?_of_jump? hjump] at htarget
      cases htarget
      rw [haddress]
      simp

end Targets

/-- **With the additions last, only genuine conflicts are reported.**  Let no
sub-instruction of an instruction be a `halt`.

If the targets of its jumps have addresses that fit and no sub-instruction without an
addition stands behind one with an addition, then the instruction has a word if and only
if it is feasible: an allotment of the A side, the B bus, the C bus, the ALU and the
shifter serves all sub-instructions at once, every destination can be written, every
operand can be read, `mar` is loaded from plain registers only, memory is not both read
and written, and there is at most one jump.

So if the instruction has a word, every order of its sub-instructions that puts the
additions last has one. -/
theorem encode_of_sums_last
    (labels : LabelTable)
    (i : Instruction)
    (hhalt : ∀ sub ∈ i.subs, sub.value ≠ .halt) :
    ((∀ sub ∈ i.subs, ∀ target, sub.value.target? = some target →
        ∃ a, labels.address? target.value = some a ∧ a < 256) →
      SumsLast i.subs →
      ((∃ w, i.encode labels = .ok w) ↔ i.Feasible)) ∧
    ∀ j : Instruction, j.subs.Perm i.subs → SumsLast j.subs →
      (∃ w, i.encode labels = .ok w) → ∃ w, j.encode labels = .ok w := by
  constructor
  · intro haddresses hlast
    refine ⟨fun ⟨w, hw⟩ => feasible_of_encode hhalt hw, fun hfeasible => ?_⟩
    obtain ⟨t, ht⟩ := hfeasible.follows hhalt (fun sub hsub target htarget => by
      obtain ⟨a, ha, hlt⟩ := haddresses sub hsub target htarget
      obtain ⟨address, haddress, -⟩ := LabelTable.exists_target? ha hlt
      rw [haddress]
      simp) hlast
    exact exists_word_of_follows ht
  · rintro j hperm hlast ⟨w, hw⟩
    obtain ⟨t, ht⟩ := ((feasible_of_encode hhalt hw).of_perm hperm).follows
      (fun sub hsub => hhalt sub (hperm.mem_iff.1 hsub))
      (fun sub hsub target => target?_ne_none_of_encode hhalt hw (hperm.mem_iff.1 hsub)) hlast
    exact exists_word_of_follows ht

/-- A sum whose first register must be on the B bus for `mar`: it is exchanged if it
stands last, wherever `rd` stands. -/
theorem encode_of_sums_last_load :
    let here {α : Type} (value : α) : Located α := ⟨value, .point ⟨1, 1⟩⟩
    let load := here (.assign (here .mar) (here (.read (here .b))))
    let sum := here (.assign (here .a) (here (.add (here .b) (here .c))))
    let i : Instruction := ⟨none, 0, [load, here .read, sum]⟩
    let j : Instruction := ⟨none, 0, [here .read, load, sum]⟩
    (∀ sub ∈ i.subs, sub.value ≠ .halt) ∧ SumsLast i.subs ∧ SumsLast j.subs ∧
      i.encode ⟨[]⟩ = .ok ⟨0x00DABC00⟩ ∧ i.Feasible ∧ ∃ w, j.encode ⟨[]⟩ = .ok w := by
  intro here load sum i j
  have hhalt : ∀ sub ∈ i.subs, sub.value ≠ .halt := by decide
  have hi : SumsLast i.subs := by
    unfold SumsLast
    decide
  have hj : SumsLast j.subs := by
    unfold SumsLast
    decide
  have hword : i.encode ⟨[]⟩ = .ok ⟨0x00DABC00⟩ := by decide +kernel
  obtain ⟨hiff, hreorder⟩ := encode_of_sums_last ⟨[]⟩ i hhalt
  have htargets : ∀ sub ∈ i.subs, sub.value.target? = none := by decide
  refine ⟨hhalt, hi, hj, hword, (hiff ?_ hi).1 ⟨_, hword⟩, hreorder j (.swap ..) hj ⟨_, hword⟩⟩
  intro sub hsub target htarget
  rw [htargets sub hsub] at htarget
  cases htarget

/-- The same sum takes the B bus for its other register if it stands first. -/
example :
    let here {α : Type} (value : α) : Located α := ⟨value, .point ⟨1, 1⟩⟩
    let load := here (.assign (here .mar) (here (.read (here .b))))
    let sum := here (.assign (here .a) (here (.add (here .b) (here .c))))
    Instruction.encode ⟨[]⟩ ⟨none, 0, [sum, load]⟩ =
      .error (.conflict (here (.bus .b .b .c))) := by
  rfl

end Microcode
