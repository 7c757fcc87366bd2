import Microcode.Proofs.Locations

/-!
# What the spans of a program cover

**Input.**  Tokens that are read as a program.

**Relation.**  `Laid ts is` takes the tokens `ts` apart: line ends, and the lines of the
instructions `is`.  A line is a label with its `:`, if there is one, and the tokens of each
sub-instruction with its `;`.  `ReadFrom` says what a sub-instruction has of its tokens:
their span, the span of what stands behind `:=`, and each register and label where its
token stands.

**Results.**
* `Action.readFrom` and `Lines.laid`: the tokens of a derivation are laid so.
* `Laid.pairwise`: sub-instructions are in the order of their tokens.
* `program_extents`: every program is read from tokens that are laid so, and the
  sub-instructions of a source stand on single lines, one behind the other.
-/

namespace Microcode

open Grammar

/-- The register of a token, where the token stands. -/
def Located.register? (t : Located Token) : Option (Located Register) :=
  match t.value with
  | .register r => some ⟨r, t.span⟩
  | _ => none

/-- The name of a token that is a label, where the token stands. -/
def Located.label? (t : Located Token) : Option (Located String) :=
  match t.value with
  | .label name => some ⟨name, t.span⟩
  | _ => none

/-- The registers of an operand, where they stand. -/
def Operand.mentions : Operand → List (Located Register)
  | read r => [r]
  | add left right => [left, right]

/-- The registers of a right-hand side, where they stand. -/
def Expr.mentions : Expr → List (Located Register)
  | read r => [r]
  | add left right => [left, right]
  | band left right => [left, right]
  | unary _ operand => operand.mentions

/-- The registers of a sub-instruction, where they stand. -/
def Subinstruction.mentions : Subinstruction → List (Located Register)
  | assign dest source => dest :: source.value.mentions
  | _ => []

/-- The right-hand side of an assignment covers what stands behind the `:=`. -/
def CoversRight (source : Located Expr) (us : List (Located Token)) : Prop :=
  ∃ (left right : List (Located Token)) (sign : Span) (hne : right ≠ []),
    us = left ++ ⟨.assign, sign⟩ :: right ∧ (∀ u ∈ left ++ right, u.value ≠ .assign) ∧
      source.span = covering right hne

/-- A sub-instruction and the tokens that it is read from, without their `;`. -/
structure ReadFrom (sub : Located Subinstruction) (us : List (Located Token)) : Prop where
  ne_nil : us ≠ []
  inside : ∀ u ∈ us, u.value ≠ .semicolon ∧ u.value ≠ .colon ∧ u.value ≠ .newline
  span_eq : sub.span = covering us ne_nil
  registers_eq : us.filterMap Located.register? = sub.value.mentions
  labels_eq : us.filterMap Located.label? = sub.value.target?.toList
  source : ∀ dest source, sub.value = .assign dest source → CoversRight source us

/-- The label of a line and the tokens that it is read from. -/
inductive LabelLaid : List (Located Token) → Option (Located String) → Prop
  | none : LabelLaid [] none
  | some {name : Located String} {colon : Span} :
      LabelLaid [⟨.label name.value, name.span⟩, ⟨.colon, colon⟩] (some name)

/-- Sub-instructions and the tokens that they are read from, each with its `;`. -/
inductive SubsLaid : List (Located Token) → List (Located Subinstruction) → Prop
  | nil : SubsLaid [] []
  | cons {sub : Located Subinstruction} {subs : List (Located Subinstruction)}
      {us ts : List (Located Token)} {semicolon : Span} :
      ReadFrom sub us → SubsLaid ts subs →
      SubsLaid (us ++ ⟨.semicolon, semicolon⟩ :: ts) (sub :: subs)

/-- Instructions and the tokens that they are read from, with line ends between them. -/
inductive Laid : List (Located Token) → List Instruction → Prop
  | done : Laid [] []
  | newline {span : Span} {ts : List (Located Token)} {is : List Instruction} :
      Laid ts is → Laid (⟨.newline, span⟩ :: ts) is
  | line {i : Instruction} {is : List Instruction} {us vs ts : List (Located Token)} :
      LabelLaid us i.label → SubsLaid vs i.subs →
      (∀ t, ts.head? = some t → t.value = .newline) → Laid ts is →
      Laid (us ++ vs ++ ts) (i :: is)

/-- The sub-instructions of a program, line by line. -/
def Program.subs (p : Program) : List (Located Subinstruction) :=
  p.instructions.flatMap Instruction.subs

namespace Grammar

section Registers

theorem Reg.filterMap_register?
    (r : Reg) :
    r.tokens.filterMap Located.register? = [r.register] := by
  cases r <;> rfl

theorem Sum.filterMap_register?
    (s : Sum) :
    s.tokens.filterMap Located.register? = s.operand.mentions := by
  cases s with
  | single r => exact r.filterMap_register?
  | plus left sign right =>
      rw [Sum.tokens, List.filterMap_append, left.filterMap_register?,
        List.filterMap_cons_none rfl, right.filterMap_register?]
      rfl

theorem RightSide.filterMap_register?
    (s : RightSide) :
    s.tokens.filterMap Located.register? = s.expr.mentions := by
  cases s with
  | sum s =>
      rw [RightSide.tokens, s.filterMap_register?]
      cases s <;> rfl
  | band keyword opening left comma right closing =>
      rw [RightSide.tokens, List.filterMap_cons_none rfl, List.filterMap_cons_none rfl,
        List.filterMap_append, left.filterMap_register?, List.filterMap_cons_none rfl,
        List.filterMap_append, right.filterMap_register?]
      rfl
  | unary op keyword opening operand closing =>
      rw [RightSide.tokens, List.filterMap_cons_none rfl, List.filterMap_cons_none rfl,
        List.filterMap_append, operand.filterMap_register?]
      exact List.append_nil _

theorem filterMap_label?_of_isPart
    {ts : List (Located Token)}
    (h : ∀ t ∈ ts, IsPart t.value) :
    ts.filterMap Located.label? = [] := by
  rw [List.filterMap_eq_nil_iff]
  intro t ht
  have hpart := h t ht
  unfold Located.label?
  split
  · next hvalue =>
      rw [hvalue] at hpart
      exact absurd hpart id
  · rfl

theorem ne_assign_of_isPart
    {t : Token}
    (h : IsPart t) :
    t ≠ .assign := by
  rintro rfl
  exact h

end Registers

section Lines

/-- An action is read from its tokens. -/
theorem Action.readFrom
    (a : Action) :
    ReadFrom a.located a.tokens where
  ne_nil := a.tokens_ne_nil
  inside := a.inside
  span_eq := rfl
  registers_eq := by
    cases a with
    | assign dest sign source =>
        rw [Action.tokens, List.filterMap_append, dest.filterMap_register?,
          List.filterMap_cons_none rfl, source.filterMap_register?]
        rfl
    | _ => rfl
  labels_eq := by
    cases a with
    | assign dest sign source =>
        rw [Action.tokens, List.filterMap_append, filterMap_label?_of_isPart dest.isPart,
          List.filterMap_cons_none rfl, filterMap_label?_of_isPart source.isPart]
        rfl
    | _ => rfl
  source := by
    intro reg right h
    cases a with
    | assign dest sign source =>
        cases h
        refine ⟨dest.tokens, source.tokens, sign, source.tokens_ne_nil, rfl, ?_, rfl⟩
        rw [List.forall_mem_append]
        exact ⟨fun t ht => ne_assign_of_isPart (dest.isPart t ht),
          fun t ht => ne_assign_of_isPart (source.isPart t ht)⟩
    | _ => cases h

theorem subsLaid_actionTokens
    (as : List (Action × Span)) :
    SubsLaid (actionTokens as) (as.map fun a => a.1.located) := by
  induction as with
  | nil => exact .nil
  | cons a as ih => exact .cons a.1.readFrom ih

theorem labelLaid_labelTokens
    (label : Option (Located String × Span)) :
    LabelLaid (labelTokens label) (label.map Prod.fst) := by
  cases label with
  | none => exact .none
  | some label => exact .some

theorem laid_newlines
    (spans : List Span)
    {ts : List (Located Token)}
    {is : List Instruction}
    (h : Laid ts is) :
    Laid (newlines spans ++ ts) is := by
  induction spans with
  | nil => exact h
  | cons span spans ih => exact .newline ih

/-- Instructions are read from the tokens of their lines. -/
theorem Lines.laid
    (lines : Lines)
    (address : Nat) :
    Laid lines.tokens (lines.instructions address) := by
  induction lines generalizing address with
  | done =>
      exact .done
  | last line =>
      have hlaid := Laid.line (i := line.instruction address) (labelLaid_labelTokens line.label)
        (subsLaid_actionTokens line.actions) (by simp) .done
      rwa [List.append_nil] at hlaid
  | ended line newline more rest ih =>
      rw [Lines.tokens, List.append_assoc]
      refine .line (i := line.instruction address) (labelLaid_labelTokens line.label)
        (subsLaid_actionTokens line.actions) ?_ (laid_newlines (newline :: more) (ih _))
      intro t ht
      cases ht
      rfl

end Lines

end Grammar

section Order

variable {ts us : List (Located Token)} {sub : Located Subinstruction}

/-- A sub-instruction starts and ends with tokens. -/
theorem ReadFrom.exists_ends
    (h : ReadFrom sub us) :
    ∃ t ∈ us, ∃ u ∈ us, sub.span.first = t.span.first ∧ sub.span.last = u.span.last :=
  ⟨_, List.head_mem h.ne_nil, _, List.getLast_mem h.ne_nil, by rw [h.span_eq]; rfl,
    by rw [h.span_eq]; rfl⟩

theorem SubsLaid.exists_ends
    {subs : List (Located Subinstruction)}
    (h : SubsLaid ts subs)
    (hsub : sub ∈ subs) :
    ∃ t ∈ ts, ∃ u ∈ ts, sub.span.first = t.span.first ∧ sub.span.last = u.span.last := by
  induction h with
  | nil =>
      cases hsub
  | @cons first subs us ts semicolon hread h ih =>
      rcases List.mem_cons.1 hsub with rfl | hsub
      · obtain ⟨t, ht, u, hu, hends⟩ := hread.exists_ends
        exact ⟨t, List.mem_append_left _ ht, u, List.mem_append_left _ hu, hends⟩
      · obtain ⟨t, ht, u, hu, hends⟩ := ih hsub
        refine ⟨t, ?_, u, ?_, hends⟩ <;> simp [*]

theorem Laid.exists_ends
    {is : List Instruction}
    (h : Laid ts is)
    (hsub : sub ∈ is.flatMap Instruction.subs) :
    ∃ t ∈ ts, ∃ u ∈ ts, sub.span.first = t.span.first ∧ sub.span.last = u.span.last := by
  induction h with
  | done =>
      cases hsub
  | newline h ih =>
      obtain ⟨t, ht, u, hu, hends⟩ := ih hsub
      exact ⟨t, List.mem_cons_of_mem _ ht, u, List.mem_cons_of_mem _ hu, hends⟩
  | @line i is us vs ts hlabel hsubs hnext h ih =>
      rw [List.flatMap_cons] at hsub
      rcases List.mem_append.1 hsub with hsub | hsub
      · obtain ⟨t, ht, u, hu, hends⟩ := hsubs.exists_ends hsub
        refine ⟨t, ?_, u, ?_, hends⟩ <;> simp [*]
      · obtain ⟨t, ht, u, hu, hends⟩ := ih hsub
        refine ⟨t, ?_, u, ?_, hends⟩ <;> simp [*]

/-- Where tokens are in order, so are the sub-instructions of a line. -/
theorem SubsLaid.pairwise
    {subs : List (Located Subinstruction)}
    (h : SubsLaid ts subs)
    (hts : ts.Pairwise fun t u => t.span.last < u.span.first) :
    subs.Pairwise fun a b => a.span.last < b.span.first := by
  induction h with
  | nil =>
      exact .nil
  | @cons first subs us ts semicolon hread h ih =>
      obtain ⟨-, hrest, hcross⟩ := List.pairwise_append.1 hts
      refine .cons (fun sub hsub => ?_) (ih (List.pairwise_cons.1 hrest).2)
      obtain ⟨-, -, t, ht, -, hlast⟩ := hread.exists_ends
      obtain ⟨u, hu, -, -, hfirst, -⟩ := h.exists_ends hsub
      rw [hlast, hfirst]
      exact hcross t ht u (List.mem_cons_of_mem _ hu)

/-- Where tokens are in order, so are all sub-instructions. -/
theorem Laid.pairwise
    {is : List Instruction}
    (h : Laid ts is)
    (hts : ts.Pairwise fun t u => t.span.last < u.span.first) :
    (is.flatMap Instruction.subs).Pairwise fun a b => a.span.last < b.span.first := by
  induction h with
  | done =>
      exact .nil
  | newline h ih =>
      exact ih (List.pairwise_cons.1 hts).2
  | @line i is us vs ts hlabel hsubs hnext h ih =>
      obtain ⟨hline, hrest, hcross⟩ := List.pairwise_append.1 hts
      rw [List.flatMap_cons, List.pairwise_append]
      refine ⟨hsubs.pairwise (List.pairwise_append.1 hline).2.1, ih hrest, ?_⟩
      intro a ha b hb
      obtain ⟨-, -, t, ht, -, hlast⟩ := hsubs.exists_ends ha
      obtain ⟨u, hu, -, -, hfirst, -⟩ := h.exists_ends hb
      rw [hlast, hfirst]
      exact hcross t (List.mem_append_right _ ht) u hu

end Order

section Programs

/-- **Spans cover the tokens that they come from.**  The tokens of a program are laid
out in its instructions: a sub-instruction spans its tokens up to its `;`, a right-hand
side spans those behind the `:=`, and registers, labels and targets stand where their
tokens do.  So the sub-instructions of a source lie on single lines, in their order and
apart from each other. -/
theorem program_extents :
    (∀ (ts : List (Located Token)) (start : Span) (p : Program),
      Program.ofTokens ts start = .ok p → Laid ts p.instructions) ∧
    ∀ (s : Source) (p : Program), s.program = .ok p →
      (∀ sub ∈ p.subs, s.Shows sub.span) ∧
        p.subs.Pairwise fun a b => a.span.last < b.span.first := by
  have hlaid : ∀ (ts : List (Located Token)) (start : Span) (p : Program),
      Program.ofTokens ts start = .ok p → Laid ts p.instructions := by
    intro ts start p h
    obtain ⟨⟨lead, lines⟩, rfl, rfl⟩ := ofTokens_eq_ok_iff.1 h
    exact laid_newlines lead (lines.laid 0)
  refine ⟨hlaid, fun s p h => ⟨?_, ?_⟩⟩
  · intro sub hsub
    obtain ⟨i, hi, hmem⟩ := List.mem_flatMap.1 hsub
    exact (shownIn_of_program h).sub i hi sub hmem
  · obtain ⟨ts, hts, hp⟩ := program_eq_ok_iff.1 h
    exact (hlaid ts _ p hp).pairwise (placed_of_tokens hts).pairwise

/-- A label, and a right-hand side with parentheses inside and around its sum. -/
theorem program_extents_parentheses :
    let s : Source := ⟨"m", "x: (a) := inv((b)+c); goto x;"⟩
    ∃ ts p, s.tokens = .ok ts ∧ Program.ofTokens ts (.point .start) = .ok p ∧
      p.subs.map Located.span = [⟨⟨1, 4⟩, ⟨1, 20⟩⟩, ⟨⟨1, 23⟩, ⟨1, 28⟩⟩] ∧
      Laid ts p.instructions ∧ (∀ sub ∈ p.subs, s.Shows sub.span) ∧
      p.subs.Pairwise fun a b => a.span.last < b.span.first := by
  intro s
  let sum : Operand := .add ⟨.b, .point ⟨1, 16⟩⟩ ⟨.c, .point ⟨1, 19⟩⟩
  let p : Program :=
    ⟨[{ label := some ⟨"x", .point ⟨1, 1⟩⟩
        address := 0
        subs := [⟨.assign ⟨.a, .point ⟨1, 5⟩⟩ ⟨.unary .invert sum, ⟨⟨1, 11⟩, ⟨1, 20⟩⟩⟩,
            ⟨⟨1, 4⟩, ⟨1, 20⟩⟩⟩,
          ⟨.goto ⟨"x", .point ⟨1, 28⟩⟩, ⟨⟨1, 23⟩, ⟨1, 28⟩⟩⟩] }]⟩
  have hp : s.program = .ok p := by decide +kernel
  obtain ⟨ts, hts, hparse⟩ := program_eq_ok_iff.1 hp
  obtain ⟨hshows, hpairwise⟩ := program_extents.2 s p hp
  exact ⟨ts, p, hts, hparse, rfl, program_extents.1 ts _ p hparse, hshows, hpairwise⟩

end Programs

end Microcode
