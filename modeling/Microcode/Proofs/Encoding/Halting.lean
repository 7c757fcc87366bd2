import Microcode.Proofs.Encoding.Branches

/-!
# The halting word

**Input.**  Instructions, some of which hold a `halt`, and any label table.

**Algorithm.**  Up to a `halt` the sub-instructions are performed on a cycle one after
the other, as in every instruction, and a conflict among them is reported.  At the
`halt` the cycle is given up for the halting word.  No cycle is packed to that word,
because the shifter has no operation of code 3.

**Results.**
* `encodeFrom_append`: the encoding performs what stands before a `halt`, then goes on.
* `defect_of_performAll`: it fails there with a conflict, unless a target is missing.
* `halt_word_iff`: the halting word stands for `halt` and for nothing else, and only
  what stands before a `halt` can keep it from its word.
-/

namespace Microcode

section Performing

variable {labels : LabelTable}

/-- The cycle after a sub-instruction; a `halt` claims nothing. -/
def Resources.perform (labels : LabelTable) (s : Resources) (sub : Located Subinstruction) :
    Except Fault Resources :=
  match Subinstruction.demand labels sub with
  | .error fault => .error fault
  | .ok .stop => .ok s
  | .ok (.claims claims) =>
      match s.claimAll claims with
      | .ok t => .ok t
      | .error conflict => .error (.conflict ⟨conflict, sub.span⟩)

/-- The cycle after several sub-instructions, or the first fault. -/
def Resources.performAll (labels : LabelTable) (s : Resources) :
    List (Located Subinstruction) → Except Fault Resources
  | [] => .ok s
  | sub :: subs =>
      match s.perform labels sub with
      | .error fault => .error fault
      | .ok t => t.performAll labels subs

/-- One step of an encoding: a sub-instruction other than `halt` is performed, and the
rest is encoded. -/
theorem encodeFrom_cons
    (s : Resources)
    {sub : Located Subinstruction}
    (subs : List (Located Subinstruction))
    (hsub : sub.value ≠ .halt) :
    encodeFrom labels s (sub :: subs) =
      match s.perform labels sub with
      | .error fault => .error fault
      | .ok t => encodeFrom labels t subs := by
  rw [encodeFrom, Resources.perform]
  cases hdemand : Subinstruction.demand labels sub with
  | error fault => rfl
  | ok demand =>
      cases demand with
      | stop => exact absurd hdemand (demand_ne_stop hsub)
      | claims claims => cases hclaims : s.claimAll claims <;> simp only [hclaims]

/-- The encoding performs the sub-instructions in front of the first `halt`, then goes
on with the cycle that they lead to. -/
theorem encodeFrom_append
    (s : Resources)
    {before : List (Located Subinstruction)}
    (rest : List (Located Subinstruction))
    (hbefore : ∀ sub ∈ before, sub.value ≠ .halt) :
    encodeFrom labels s (before ++ rest) =
      match s.performAll labels before with
      | .error fault => .error fault
      | .ok t => encodeFrom labels t rest := by
  induction before generalizing s with
  | nil =>
      rfl
  | cons sub before ih =>
      rw [List.cons_append, encodeFrom_cons s _ (hbefore sub (by simp)), Resources.performAll]
      cases s.perform labels sub with
      | error fault => rfl
      | ok t => exact ih t fun x hx => hbefore x (List.mem_cons_of_mem _ hx)

/-- Sub-instructions fail to be performed with a conflict, unless the target of one of
them is missing. -/
theorem defect_of_performAll
    {s : Resources}
    {subs : List (Located Subinstruction)}
    {cause : Defect}
    (h : s.performAll labels subs = .error (.defect cause)) :
    ∃ sub ∈ subs, ∃ target, sub.value.target? = some target ∧
      labels.target? target.value = none := by
  induction subs generalizing s with
  | nil =>
      cases h
  | cons sub subs ih =>
      rw [Resources.performAll] at h
      cases hsub : s.perform labels sub with
      | ok t =>
          rw [hsub] at h
          obtain ⟨x, hx, hlacks⟩ := ih h
          exact ⟨x, List.mem_cons_of_mem _ hx, hlacks⟩
      | error fault =>
          rw [hsub] at h
          cases h
          rw [Resources.perform] at hsub
          split at hsub
          · next fault hdemand =>
              cases hsub
              exact ⟨sub, by simp, (demand_eq_defect hdemand).2⟩
          · cases hsub
          · split at hsub <;> cases hsub

/-- A `halt` makes the word the halting one, if there is a word at all. -/
theorem eq_halt_of_encodeFrom
    {s : Resources}
    {subs : List (Located Subinstruction)}
    {w : ControlWord}
    (h : encodeFrom labels s subs = .ok w)
    (hhalt : ∃ sub ∈ subs, sub.value = .halt) :
    w = .halt := by
  induction subs generalizing s with
  | nil =>
      obtain ⟨sub, hsub, -⟩ := hhalt
      cases hsub
  | cons sub subs ih =>
      by_cases hsub : sub.value = .halt
      · rw [encodeFrom_halt s subs hsub] at h
        exact (Except.ok.inj h).symm
      · obtain ⟨cs, s', -, -, hrest⟩ := encodeFrom_cons_eq_ok hsub h
        obtain ⟨x, hx, hvalue⟩ := hhalt
        rcases List.mem_cons.1 hx with rfl | hx
        · exact absurd hvalue hsub
        · exact ih hrest ⟨x, hx, hvalue⟩

/-- An instruction has the halting word if and only if it holds a `halt`. -/
theorem eq_halt_iff_of_encode
    {i : Instruction}
    {w : ControlWord}
    (h : i.encode labels = .ok w) :
    w = .halt ↔ ∃ sub ∈ i.subs, sub.value = .halt := by
  refine ⟨fun hw => ?_, eq_halt_of_encodeFrom h⟩
  by_contra hnone
  have hfree : ∀ sub ∈ i.subs, sub.value ≠ .halt := fun sub hsub hvalue =>
    hnone ⟨sub, hsub, hvalue⟩
  obtain ⟨t, hpack, -⟩ := exists_performs_of_encode hfree h
  exact ne_halt_of_fields (Fields.fields_of_pack hpack) hw

end Performing

/-- **The halting word stands for `halt` and for nothing else.**  If a program has
words with some label table, all bits of the word of an instruction are set if and only
if the instruction holds a `halt`.

Let the targets before the first `halt` of an instruction have addresses.  Then the
instruction has a word if and only if the sub-instructions before that `halt` can be
performed on a fresh cycle without a conflict, and nothing of this depends on what
follows the `halt`. -/
theorem halt_word_iff
    (labels : LabelTable) :
    (∀ (p : Program) (words : List ControlWord), p.emit labels = .ok words →
      ∀ (n : Nat) (i : Instruction), p.instructions[n]? = some i →
        ∃ w, words[n]? = some w ∧ (w.bits = 0xFFFFFFFF ↔ ∃ sub ∈ i.subs, sub.value = .halt)) ∧
    ∀ (i : Instruction) (before after : List (Located Subinstruction))
      (stop : Located Subinstruction),
      i.subs = before ++ stop :: after → stop.value = .halt →
      (∀ sub ∈ before, sub.value ≠ .halt) →
      (∀ sub ∈ before, ∀ target, sub.value.target? = some target →
        labels.target? target.value ≠ none) →
      ((∃ w, i.encode labels = .ok w) ↔
        ∀ e, Resources.fresh.performAll labels before ≠ .error (.conflict e)) ∧
      ∀ after', Instruction.encode labels { i with subs := before ++ stop :: after' } =
        i.encode labels := by
  refine ⟨fun p words hemit n i hi => ?_, fun i before after stop hsubs hstop hbefore htargets => ?_⟩
  · obtain ⟨w, hw, hencode⟩ := exists_word_of_encodeAll hemit hi
    refine ⟨w, hw, ?_⟩
    rw [← eq_halt_iff_of_encode hencode, ControlWord.halt]
    obtain ⟨bits⟩ := w
    rw [ControlWord.mk.injEq]
  · have hword : ∀ rest, encodeFrom labels .fresh (before ++ stop :: rest) =
        match Resources.fresh.performAll labels before with
        | .error fault => .error fault
        | .ok _ => .ok .halt := by
      intro rest
      rw [encodeFrom_append _ _ hbefore]
      cases Resources.fresh.performAll labels before with
      | error fault => rfl
      | ok t => exact encodeFrom_halt t rest hstop
    refine ⟨?_, fun after' => ?_⟩
    · rw [Instruction.encode, hsubs, hword]
      cases hperform : Resources.fresh.performAll labels before with
      | ok t => simp
      | error fault =>
          cases fault with
          | conflict e => simp
          | defect cause =>
              obtain ⟨sub, hsub, target, htarget, hlacks⟩ := defect_of_performAll hperform
              exact absurd hlacks (htargets sub hsub target htarget)
    · rw [Instruction.encode, Instruction.encode, hsubs, hword, hword]

/-- A jump in front of a `halt` needs its target only, and a second one behind it is not
looked at. -/
theorem halt_word_iff_jump :
    let place : Span := .point .start
    let jump : Located Subinstruction := ⟨.goto ⟨"a", place⟩, place⟩
    let stop : Located Subinstruction := ⟨.halt, place⟩
    let i : Instruction := ⟨some ⟨"a", place⟩, 0, [jump, stop, jump]⟩
    let labels : LabelTable := ⟨[("a", 0)]⟩
    (Program.mk [i]).emit labels = .ok [.halt] ∧
      (∃ w, [ControlWord.halt][0]? = some w ∧
        (w.bits = 0xFFFFFFFF ↔ ∃ sub ∈ i.subs, sub.value = .halt)) ∧
      ((∃ w, i.encode labels = .ok w) ↔
        ∀ e, Resources.fresh.performAll labels [jump] ≠ .error (.conflict e)) ∧
      ∀ after', Instruction.encode labels { i with subs := [jump] ++ stop :: after' } =
        i.encode labels := by
  intro place jump stop i labels
  have hemit : (Program.mk [i]).emit labels = .ok [.halt] := rfl
  have hjump : ∀ sub ∈ [jump], sub.value ≠ .halt := by simp [jump]
  have htarget : ∀ sub ∈ [jump], ∀ target, sub.value.target? = some target →
      labels.target? target.value ≠ none := by
    have hfound : labels.target? "a" ≠ none := by decide
    simpa [jump, Subinstruction.target?] using hfound
  obtain ⟨hwords, hstop⟩ := halt_word_iff labels
  exact ⟨hemit, hwords ⟨[i]⟩ _ hemit 0 i rfl, hstop i [jump] [jump] stop rfl rfl hjump htarget⟩

/-- A conflict in front of a `halt` is found, and one behind it is not. -/
example :
    let place : Span := .point .start
    let instruction (subs : List Subinstruction) : Instruction :=
      ⟨none, 0, subs.map fun sub => ⟨sub, place⟩⟩
    (instruction [.read, .write, .halt]).encode ⟨[]⟩ =
        .error (.conflict ⟨.readWrite, place⟩) ∧
      (instruction [.read, .halt, .write]).encode ⟨[]⟩ = .ok .halt := by
  exact ⟨rfl, rfl⟩

end Microcode
