import Microcode.Proofs.Encoding.Safety
import Microcode.Proofs.Program.WellFormed

/-!
# Where the branches of an assembled program lead

**Input.**  A source that is assembled, and one of its instructions that does not
halt.

**Algorithm.**  The encoding of the instruction carries at most one jump: a
sub-instruction either leaves the jump of the cycle as it is, or it is a jump, the
cycle had none before, and the label table gives its address.

**Results.**
* `branch_of_claimAll` is this step and `branch_of_encodeFrom` the run: the cycle
  behind a word jumps if and only if one sub-instruction does.
* `address?_eq_some_iff_label`: the address of a label is the number of the
  instruction that carries it.
* `branch_of_assemble`: the branch of a word leads to the only instruction with the
  label that its instruction jumps to.
-/

namespace Microcode

/-- The jump of a sub-instruction: when it is taken, and its target. -/
def Subinstruction.jump? : Subinstruction → Option (Jump × Located String)
  | goto target => some (.always, target)
  | branch condition target => some (condition.jump, target)
  | _ => none

theorem target?_eq_none_iff
    (sub : Subinstruction) :
    sub.target? = none ↔ sub.jump? = none := by
  cases sub <;> simp [Subinstruction.target?, Subinstruction.jump?]

section Steps

variable {labels : LabelTable} {sub : Located Subinstruction} {cs : List Claim}

/-- A jump asks for what its condition and its target say. -/
theorem demand_of_jump
    {jump : Jump}
    {target : Located String}
    (hjump : sub.value.jump? = some (jump, target)) :
    Subinstruction.demand labels sub = jumpDemand labels jump target.value := by
  obtain ⟨value, span⟩ := sub
  cases value <;> cases hjump <;> rfl

/-- A jump claims the branch to the address of its target. -/
theorem Subinstruction.HasClaims.of_jump
    (h : Subinstruction.HasClaims labels sub cs)
    {jump : Jump}
    {target : Located String}
    (hjump : sub.value.jump? = some (jump, target)) :
    ∃ address, labels.target? target.value = some address ∧ cs = [.branch jump address] := by
  rw [Subinstruction.HasClaims, demand_of_jump hjump, jumpDemand] at h
  split at h
  · next address haddress =>
      cases h
      exact ⟨address, haddress, rfl⟩
  · cases h

/-- Nothing but a jump asks for the jump of a cycle. -/
theorem Subinstruction.HasClaims.not_asks_jump
    (h : Subinstruction.HasClaims labels sub cs)
    (hjump : sub.value.jump? = none)
    {c : Claim}
    (hc : c ∈ cs)
    (jump : Jump)
    (address : UInt8) :
    ¬ c.Asks (.jump jump address) := by
  cases hvalue : sub.value with
  | goto name => simp [hvalue, Subinstruction.jump?] at hjump
  | branch condition name => simp [hvalue, Subinstruction.jump?] at hjump
  | assign dest source =>
      rcases h.assign_cases hvalue with ⟨-, r, -, rfl⟩ | ⟨-, rfl⟩
      · rw [List.mem_singleton.1 hc]
        simp [Claim.Asks, Claim.ways]
      · rcases List.mem_append.1 hc with hc | hc
        · rcases claim_cases_of_mem_claims hc with
            ⟨r, rfl⟩ | ⟨r, rfl⟩ | ⟨l, r, rfl⟩ | ⟨op, rfl⟩ | ⟨op, rfl⟩ <;>
            simp [Claim.Asks, Claim.ways]
        · rw [List.mem_singleton.1 hc]
          simp [Claim.Asks, Claim.ways, mem_outputUses_iff]
  | read =>
      simp only [Subinstruction.HasClaims, Subinstruction.demand, hvalue, Except.ok.injEq,
        Demand.claims.injEq] at h
      rw [← h, List.mem_singleton] at hc
      simp [hc, Claim.Asks, Claim.ways]
  | write =>
      simp only [Subinstruction.HasClaims, Subinstruction.demand, hvalue, Except.ok.injEq,
        Demand.claims.injEq] at h
      rw [← h, List.mem_singleton] at hc
      simp [hc, Claim.Asks, Claim.ways]
  | halt =>
      exact absurd hvalue (value_ne_halt_of_claims h)

variable {s t : Resources}

/-- Claims that do not ask for the jump leave it as it is. -/
theorem branch_eq_of_claimAll
    (h : s.claimAll cs = .ok t)
    (hcs : ∀ c ∈ cs, ∀ jump address, ¬ c.Asks (.jump jump address)) :
    t.branch = s.branch := by
  refine Option.ext fun pair => ?_
  obtain ⟨jump, address⟩ := pair
  constructor
  · intro ht
    rcases Resources.asked_of_claimAll h (.jump jump address) ht with hs | ⟨c, hc, hask⟩
    · exact hs
    · exact absurd hask (hcs c hc jump address)
  · intro hs
    exact Resources.has_of_claimAll h (.jump jump address) hs

/-- A branch is granted to a cycle without one. -/
theorem claimAll_branch_eq_ok_iff
    {jump : Jump}
    {address : UInt8} :
    s.claimAll [.branch jump address] = .ok t ↔
      s.branch = none ∧ t = { s with branch := some (jump, address) } := by
  have hclaim : s.claimAll [.branch jump address] = s.jump jump address := by
    simp only [Resources.claimAll, Resources.claim, Resources.attempt]
    cases s.jump jump address <;> rfl
  rw [hclaim, Resources.jump]
  cases s.branch with
  | none => simp [eq_comm]
  | some pair => simp

/-- One sub-instruction leaves the jump of the cycle as it is, or it is the first
jump. -/
theorem branch_of_claimAll
    (hclaims : Subinstruction.HasClaims labels sub cs)
    (h : s.claimAll cs = .ok t) :
    (sub.value.jump? = none ∧ t.branch = s.branch) ∨
      ∃ jump target address, sub.value.jump? = some (jump, target) ∧ s.branch = none ∧
        labels.target? target.value = some address ∧ t.branch = some (jump, address) := by
  cases hjump : sub.value.jump? with
  | none =>
      exact Or.inl ⟨rfl, branch_eq_of_claimAll h fun c hc => hclaims.not_asks_jump hjump hc⟩
  | some pair =>
      obtain ⟨jump, target⟩ := pair
      obtain ⟨address, haddress, rfl⟩ := hclaims.of_jump hjump
      obtain ⟨hfree, rfl⟩ := claimAll_branch_eq_ok_iff.1 h
      exact Or.inr ⟨jump, target, address, rfl, hfree, haddress, rfl⟩

end Steps

section Runs

variable {labels : LabelTable}

/-- Sub-instructions of which exactly one jumps, to an address of the table. -/
def JumpsOnce (labels : LabelTable) (subs : List (Located Subinstruction))
    (jump : Jump) (address : UInt8) : Prop :=
  ∃ before sub after target, subs = before ++ sub :: after ∧
    (∀ x ∈ before ++ after, x.value.jump? = none) ∧
    sub.value.jump? = some (jump, target) ∧ labels.target? target.value = some address

/-- The cycle behind a word holds the only jump of its sub-instructions, or the one
that it had before. -/
theorem branch_of_encodeFrom
    {s : Resources}
    {subs : List (Located Subinstruction)}
    {w : ControlWord}
    (hhalt : ∀ sub ∈ subs, sub.value ≠ .halt)
    (h : encodeFrom labels s subs = .ok w) :
    ∃ t : Resources, t.pack = .ok w ∧
      (((∀ sub ∈ subs, sub.value.jump? = none) ∧ t.branch = s.branch) ∨
        (s.branch = none ∧ ∃ jump address, JumpsOnce labels subs jump address ∧
          t.branch = some (jump, address))) := by
  induction subs generalizing s with
  | nil =>
      refine ⟨s, ?_, Or.inl ⟨by simp, rfl⟩⟩
      simp only [encodeFrom, Resources.word] at h
      split at h
      · next word hpack => rwa [← Except.ok.inj h]
      · cases h
  | cons sub subs ih =>
      obtain ⟨cs, s', hclaims, hs', hrest⟩ := encodeFrom_cons_eq_ok (hhalt sub (by simp)) h
      obtain ⟨t, hpack, hbranch⟩ := ih (fun x hx => hhalt x (List.mem_cons_of_mem _ hx)) hrest
      refine ⟨t, hpack, ?_⟩
      rcases branch_of_claimAll hclaims hs' with
        ⟨hsub, hsame⟩ | ⟨jump, target, address, hsub, hfree, haddress, hnew⟩
      · rcases hbranch with ⟨hsubs, ht⟩ | ⟨hfree, jump, address, honce, ht⟩
        · refine Or.inl ⟨?_, ht.trans hsame⟩
          simpa using And.intro hsub hsubs
        · obtain ⟨before, x, after, target, rfl, hothers, hx, haddress⟩ := honce
          refine Or.inr ⟨hsame.symm.trans hfree, jump, address, ?_, ht⟩
          refine ⟨sub :: before, x, after, target, rfl, ?_, hx, haddress⟩
          simpa using And.intro hsub hothers
      · -- The jump is taken, so no later sub-instruction jumps.
        rcases hbranch with ⟨hsubs, ht⟩ | ⟨hnone, -⟩
        · exact Or.inr ⟨hfree, jump, address,
            ⟨[], sub, subs, target, rfl, by simpa using hsubs, hsub, haddress⟩, ht.trans hnew⟩
        · rw [hnew] at hnone
          cases hnone

/-- Every word is the encoding of the instruction with its number. -/
theorem exists_word_of_encodeAll
    {is : List Instruction}
    {words : List ControlWord}
    (h : encodeAll labels is = .ok words)
    {n : Nat}
    {i : Instruction}
    (hi : is[n]? = some i) :
    ∃ w, words[n]? = some w ∧ i.encode labels = .ok w := by
  induction is generalizing words n with
  | nil =>
      cases hi
  | cons j is ih =>
      obtain ⟨w, rest, hw, hrest, rfl⟩ := encodeAll_cons_eq_ok_iff.1 h
      cases n with
      | zero =>
          cases hi
          exact ⟨w, rfl, hw⟩
      | succ n =>
          exact ih hrest hi

end Runs

section Programs

variable {p : Program}

/-- The instruction of a number defines a label. -/
def Program.Labels (p : Program) (n : Nat) (name : String) : Prop :=
  ∃ i, p.instructions[n]? = some i ∧ i.label.map Located.value = some name

/-- Every instruction has its number as address. -/
def Program.Numbered (p : Program) : Prop :=
  ∀ (n : Nat) (i : Instruction), p.instructions[n]? = some i → i.address = n

/-- A definition is a label at the instruction of its address. -/
theorem Program.Numbered.labels_iff
    (h : p.Numbered)
    (n : Nat)
    (name : String) :
    p.Labels n name ↔ ∃ d ∈ p.definitions, d.label.value = name ∧ d.address = n := by
  constructor
  · rintro ⟨i, hi, hname⟩
    obtain ⟨label, hlabel, rfl⟩ := Option.map_eq_some_iff.1 hname
    refine ⟨⟨label, i.address⟩, List.mem_filterMap.2 ⟨i, List.mem_of_getElem? hi, ?_⟩, rfl,
      h n i hi⟩
    simp [hlabel]
  · rintro ⟨d, hd, rfl, rfl⟩
    obtain ⟨i, hi, hdefined⟩ := List.mem_filterMap.1 hd
    obtain ⟨label, hlabel, rfl⟩ := Option.map_eq_some_iff.1 hdefined
    obtain ⟨n, hn⟩ := List.mem_iff_getElem?.1 hi
    refine ⟨i, ?_, by simp [hlabel]⟩
    rwa [h n i hn]

/-- The address of a label is the number of the instruction that carries it. -/
theorem address?_eq_some_iff_label
    (hwell : p.WellFormed)
    (honce : p.DefinesOnce)
    (name : String)
    (n : Nat) :
    p.labelTable.address? name = some n ↔ p.Labels n name := by
  have hnumbered : p.Numbered := fun n i hi => (hwell n i hi).address_eq
  rw [Program.address?_eq_some_iff honce, hnumbered.labels_iff]

/-- The table of a resolved program leads a jump to the only instruction with the
label of its target. -/
theorem existsUnique_label_of_target?
    {labels : LabelTable}
    (hwell : p.WellFormed)
    (h : p.resolve = .ok labels)
    {name : String}
    {address : UInt8}
    (htarget : labels.target? name = some address) :
    p.Labels address.toNat name ∧ ∀ n, p.Labels n name → n = address.toNat := by
  obtain ⟨hduplicate, -, -, rfl⟩ := Program.resolve_eq_ok_iff_errors.1 h
  have honce := Program.duplicateErrors_eq_nil_iff.1 hduplicate
  have ha := (LabelTable.target?_eq_some_iff _ _ _).1 htarget
  refine ⟨(address?_eq_some_iff_label hwell honce _ _).1 ha, fun n hn => ?_⟩
  have hother := (address?_eq_some_iff_label hwell honce _ _).2 hn
  rw [ha] at hother
  exact (Option.some.inj hother).symm

/-- **Branches lead to their labels.**  A source that is assembled spells a program
with one word for each instruction.  The word of an instruction that does not halt
has no branch if no sub-instruction jumps.  Otherwise exactly one of them jumps, the
condition is 3 for `goto`, 2 for `if z` and 1 for `if n`, and the address is the
number of an instruction, the only one that carries the label of the target. -/
theorem branch_of_assemble
    (s : Source)
    (asm : Assembly)
    (hasm : s.assemble = .ok asm) :
    ∃ p, s.program = .ok p ∧ asm.words.length = p.instructions.length ∧
      ∀ (n : Nat) (i : Instruction), p.instructions[n]? = some i →
        (∀ sub ∈ i.subs, sub.value ≠ .halt) →
        ∃ w, asm.words[n]? = some w ∧
          (((∀ sub ∈ i.subs, sub.value.target? = none) ∧
              w.fields .cond = 0 ∧ w.fields .addr = 0) ∨
            ∃ before sub after target, i.subs = before ++ sub :: after ∧
              (∀ x ∈ before ++ after, x.value.target? = none) ∧
              ((sub.value = .goto target ∧ w.fields .cond = 3) ∨
                (sub.value = .branch .zero target ∧ w.fields .cond = 2) ∨
                (sub.value = .branch .negative target ∧ w.fields .cond = 1)) ∧
              ∃ j, (w.fields .addr).toNat = j ∧ j < asm.words.length ∧ j ≤ 255 ∧
                p.Labels j target.value ∧ ∀ k, p.Labels k target.value → k = j) := by
  obtain ⟨p, hresolved, hemit⟩ := assemble_eq_ok_iff.1 hasm
  obtain ⟨hprogram, hlabels⟩ := resolved_eq_ok_iff.1 hresolved
  have hlength := length_of_encodeAll hemit
  refine ⟨p, hprogram, hlength, fun n i hi hhalt => ?_⟩
  obtain ⟨w, hw, hencode⟩ := exists_word_of_encodeAll hemit hi
  obtain ⟨t, hpack, hbranch⟩ := branch_of_encodeFrom hhalt hencode
  have hfields : w.fields = t.fields := Fields.fields_of_pack hpack
  refine ⟨w, hw, ?_⟩
  rcases hbranch with ⟨hnone, ht⟩ | ⟨-, jump, address, honce, ht⟩
  · have hfree : t.branch = none := ht
    refine Or.inl ⟨fun sub hsub => (target?_eq_none_iff _).2 (hnone sub hsub), ?_, ?_⟩
    · rw [hfields, Resources.fields, hfree]
    · rw [hfields, Resources.fields, hfree]
  · obtain ⟨before, sub, after, target, hsubs, hothers, hsub, haddress⟩ := honce
    have hcond : w.fields .cond = jump.code := by
      rw [hfields, Resources.fields, ht]
    have haddr : w.fields .addr = address := by
      rw [hfields, Resources.fields, ht]
    obtain ⟨hlabel, hunique⟩ :=
      existsUnique_label_of_target? (wellFormed_of_program hprogram) hlabels haddress
    refine Or.inr ⟨before, sub, after, target, hsubs,
      fun x hx => (target?_eq_none_iff _).2 (hothers x hx), ?_,
      address.toNat, by rw [haddr], ?_, Nat.le_of_lt_succ address.toNat_lt, hlabel, hunique⟩
    · rw [hcond]
      cases hvalue : sub.value with
      | goto name =>
          simp only [hvalue, Subinstruction.jump?, Option.some.injEq, Prod.mk.injEq] at hsub
          obtain ⟨rfl, rfl⟩ := hsub
          exact Or.inl ⟨rfl, rfl⟩
      | branch condition name =>
          simp only [hvalue, Subinstruction.jump?, Option.some.injEq, Prod.mk.injEq] at hsub
          obtain ⟨rfl, rfl⟩ := hsub
          cases condition with
          | zero => exact Or.inr (Or.inl ⟨rfl, rfl⟩)
          | negative => exact Or.inr (Or.inr ⟨rfl, rfl⟩)
      | assign dest source => simp [hvalue, Subinstruction.jump?] at hsub
      | read => simp [hvalue, Subinstruction.jump?] at hsub
      | write => simp [hvalue, Subinstruction.jump?] at hsub
      | halt => simp [hvalue, Subinstruction.jump?] at hsub
    · obtain ⟨dest, hdest, -⟩ := hlabel
      rw [hlength]
      exact (List.getElem?_eq_some_iff.1 hdest).1

/-- A jump to the label `0`, which the second instruction carries, leads to address 1. -/
theorem branch_of_assemble_numeric :
    let s : Source := ⟨"numeric", "rd;\n0: goto 0;"⟩
    s.assemble = .ok ⟨[⟨0x00400000⟩, ⟨0x60000001⟩], ⟨[("0", 1)]⟩⟩ ∧
      ∃ p, s.program = .ok p ∧ p.Labels 1 "0" ∧ (∀ k, p.Labels k "0" → k = 1) ∧
        (ControlWord.mk 0x60000001).fields .cond = 3 ∧
        (ControlWord.mk 0x60000001).fields .addr = 1 := by
  intro s
  have hasm : s.assemble = .ok ⟨[⟨0x00400000⟩, ⟨0x60000001⟩], ⟨[("0", 1)]⟩⟩ := by decide +kernel
  have hprogram : s.program = .ok ⟨[⟨none, 0, [⟨.read, ⟨⟨1, 1⟩, ⟨1, 2⟩⟩⟩]⟩,
      ⟨some ⟨"0", .point ⟨2, 1⟩⟩, 1, [⟨.goto ⟨"0", .point ⟨2, 9⟩⟩, ⟨⟨2, 4⟩, ⟨2, 9⟩⟩⟩]⟩]⟩ := by
    decide +kernel
  obtain ⟨p, hp, -, hbranch⟩ := branch_of_assemble s _ hasm
  rw [hprogram] at hp
  cases hp
  obtain ⟨w, hw, hcases⟩ := hbranch 1 _ rfl (by decide)
  cases hw
  rcases hcases with ⟨hnone, -⟩ | ⟨before, sub, after, target, hsubs, -, hcond, j, rfl, -, -,
    hlabel, hunique⟩
  · cases hnone _ (List.mem_singleton_self _)
  · have hmem : sub ∈ before ++ sub :: after := by simp
    rw [← hsubs] at hmem
    cases List.mem_singleton.1 hmem
    rcases hcond with ⟨hgoto, hcond⟩ | ⟨hzero, -⟩ | ⟨hnegative, -⟩
    · cases hgoto
      exact ⟨hasm, _, hprogram, hlabel, hunique, hcond, by decide⟩
    · cases hzero
    · cases hnegative

end Programs

end Microcode
