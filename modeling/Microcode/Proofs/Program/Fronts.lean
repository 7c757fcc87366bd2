import Microcode.Proofs.Program.Verdicts
import Microcode.Proofs.Source.Lines

/-!
# Where the tokens of a program can break off

**Input.**  A list of tokens that may stop anywhere.

A `Front` is what the parser has behind it when it is about to read an action: line
ends, whole lines with their line ends, and the label and the actions of a line that is
not complete.  `Viable tokens start`: some tokens complete the list to a program.

**Algorithm.**  The loop over the lines and the loop over the actions of a line only
look at what is ahead of them.  So they run over a front and then do what they would do
on the rest alone.

**Results.**
* `ofTokens_eq_error_iff`: tokens are no program if and only if, behind whole lines,
  the rule for a line fails.
* `ofTokens_eq_error_of_front`: behind a front, the tokens are no program if the rule
  for the rest of its line fails.
* `exists_front_of_viable`: in tokens that can be completed to a program, the keyword of
  an operation stands behind a front, a register and `:=`.
-/

namespace Microcode

open Grammar

/-- A list of tokens that some tokens complete to a program. -/
def Viable (tokens : List (Located Token)) (start : Span) : Prop :=
  ∃ more p, Program.ofTokens (tokens ++ more) start = .ok p

namespace Grammar

/-- A line with the line ends behind it. -/
structure ClosedLine where
  line : Line
  newline : Span
  more : List Span

def ClosedLine.tokens (l : ClosedLine) : List (Located Token) :=
  l.line.tokens ++ newlines (l.newline :: l.more)

/-- Line ends and then closed lines. -/
def wholeLines (lead : List Span) (closed : List ClosedLine) : List (Located Token) :=
  newlines lead ++ closed.flatMap ClosedLine.tokens

/-- A program up to the start of an action: whole lines, and the label and the actions of
a line that is not complete. -/
structure Front where
  lead : List Span
  closed : List ClosedLine
  label : Option (Located String × Span)
  actions : List (Action × Span)

namespace Front

def tokens (f : Front) : List (Located Token) :=
  wholeLines f.lead f.closed ++ (labelTokens f.label ++ actionTokens f.actions)

/-- The slots that are taken in the last line. -/
def slots (f : Front) : Nat :=
  f.label.toList.length + f.actions.length

/-- The last line has begun. -/
def Begun (f : Front) : Prop :=
  f.label ≠ none ∨ f.actions ≠ []

/-- A front with one more action. -/
def push (f : Front) (a : Action) (semicolon : Span) : Front :=
  { f with actions := f.actions ++ [(a, semicolon)] }

end Front

theorem actionTokens_append
    (as bs : List (Action × Span)) :
    actionTokens (as ++ bs) = actionTokens as ++ actionTokens bs := by
  induction as with
  | nil =>
      rfl
  | cons a as ih =>
      obtain ⟨a, semicolon⟩ := a
      simp [actionTokens, ih]

theorem Front.tokens_push
    (f : Front)
    (a : Action)
    (semicolon : Span) :
    (f.push a semicolon).tokens = f.tokens ++ (a.tokens ++ [⟨.semicolon, semicolon⟩]) := by
  simp [Front.tokens, Front.push, actionTokens_append, actionTokens]

theorem Front.slots_push
    (f : Front)
    (a : Action)
    (semicolon : Span) :
    (f.push a semicolon).slots = f.slots + 1 := by
  simp [Front.slots, Front.push, Nat.add_assoc]

theorem length_toList_le_one
    {α : Type}
    (o : Option α) :
    o.toList.length ≤ 1 := by
  cases o <;> simp

/-- Closed lines in front of other lines. -/
def closeLines (closed : List ClosedLine) (rest : Lines) : Lines :=
  closed.foldr (fun l lines => .ended l.line l.newline l.more lines) rest

theorem tokens_closeLines
    (closed : List ClosedLine)
    (rest : Lines) :
    (closeLines closed rest).tokens = closed.flatMap ClosedLine.tokens ++ rest.tokens := by
  induction closed with
  | nil =>
      rfl
  | cons l closed ih =>
      have hcons : (closeLines (l :: closed) rest).tokens =
          l.tokens ++ (closeLines closed rest).tokens := rfl
      rw [hcons, ih, List.flatMap_cons, List.append_assoc]

/-- The front of a line behind whole lines can be completed. -/
theorem viable_of_line
    {lead : List Span}
    {closed : List ClosedLine}
    {before more : List (Located Token)}
    {line : Line}
    (start : Span)
    (h : line.tokens = before ++ more) :
    Viable (wholeLines lead closed ++ before) start := by
  refine ⟨more, _, ofTokens_eq_ok_iff.2 ⟨⟨lead, closeLines closed (.last line)⟩, ?_, rfl⟩⟩
  rw [Derivation.tokens, tokens_closeLines, Lines.tokens, h, wholeLines]
  simp only [List.append_assoc]

end Grammar

namespace Parser

variable {α β : Type} {c d : Cursor} {e : Located ParseError}

section Runs

theorem bind_eq_error_of_yields
    {p : Parser α}
    {f : α → Parser β}
    {a : α}
    (hp : Yields p c a d)
    (hf : f a d = .error e) :
    (p >>= f) c = .error e := by
  rw [Yields] at hp
  rw [bind_apply, hp]
  exact hf

theorem bind_eq_error
    {p : Parser α}
    {f : α → Parser β}
    (hp : p c = .error e) :
    (p >>= f) c = .error e := by
  rw [bind_apply, hp]

/-- One round of the loop over the lines, if it fails. -/
theorem instructions_eq_error
    {address : Nat}
    (h : instructions address c = .error e) :
    (skipNewlines c).rest ≠ [] ∧
      (instruction address (skipNewlines c) = .error e ∨
        ∃ i c', Yields (instruction address) (skipNewlines c) i c' ∧
          instructions (address + 1) c' = .error e) := by
  rw [instructions] at h
  split at h
  · cases h
  · next hempty =>
      refine ⟨by simpa using hempty, ?_⟩
      split at h
      · next error herror =>
          cases h
          exact Or.inl herror
      · next i c' hi =>
          split at h
          · next error hmore =>
              cases h
              exact Or.inr ⟨i, c', hi, hmore⟩
          · cases h

/-- One round of the loop over the lines fails if the rule for a line does. -/
theorem instructions_eq_error_of_instruction
    {address : Nat}
    (hne : (skipNewlines c).rest ≠ [])
    (h : instruction address (skipNewlines c) = .error e) :
    instructions address c = .error e := by
  rw [instructions, if_neg (by simpa using hne)]
  split
  · next error herror =>
      rw [h] at herror
      cases herror
      rfl
  · next heq =>
      rw [h] at heq
      cases heq

theorem instructions_eq_error_of_more
    {address : Nat}
    {i : Instruction}
    (hne : (skipNewlines c).rest ≠ [])
    (hi : Yields (instruction address) (skipNewlines c) i d)
    (h : instructions (address + 1) d = .error e) :
    instructions address c = .error e := by
  rw [Yields] at hi
  rw [instructions, if_neg (by simpa using hne)]
  split
  · next herror =>
      rw [hi] at herror
      cases herror
  · next heq =>
      rw [hi] at heq
      cases heq
      rw [h]

theorem ne_nil_of_not_atEnd
    {ts : List (Located Token)}
    (h : ¬ AtEnd ts) :
    ts ≠ [] := by
  rintro rfl
  exact h (Or.inl rfl)

/-- The loop over the lines runs over whole lines. -/
theorem instructions_eq_error_of_wholeLines
    {lead : List Span}
    {closed : List ClosedLine}
    {address : Nat}
    (htakes : Takes (wholeLines lead closed) c d)
    (hd : ¬ AtEnd d.rest)
    (h : instruction (address + closed.length) d = .error e) :
    instructions address c = .error e := by
  induction closed generalizing c lead address with
  | nil =>
      have hlead : Takes (newlines lead) c d := by
        simpa [wholeLines] using htakes
      have hskip := skipNewlines_of_takes hlead fun hnewline => hd (Or.inr hnewline)
      refine instructions_eq_error_of_instruction ?_ ?_
      · rw [hskip]
        exact ne_nil_of_not_atEnd hd
      · rw [hskip]
        exact h
  | cons l closed ih =>
      have hsplit : wholeLines lead (l :: closed) =
          newlines lead ++ (l.line.tokens ++ wholeLines (l.newline :: l.more) closed) := by
        simp [wholeLines, ClosedLine.tokens]
      rw [hsplit] at htakes
      obtain ⟨c₁, hlead, h₁⟩ := takes_append.1 htakes
      obtain ⟨c₂, hline, hmore⟩ := takes_append.1 h₁
      have hfirst : ¬ AtEnd c₁.rest := by
        rw [hline.1]
        exact l.line.not_atEnd _
      have hend : AtEnd c₂.rest := by
        rw [hmore.1]
        exact Or.inr rfl
      have hskip := skipNewlines_of_takes hlead fun hnewline => hfirst (Or.inr hnewline)
      refine instructions_eq_error_of_more (i := l.line.instruction address) (d := c₂) ?_ ?_ ?_
      · rw [hskip]
        exact ne_nil_of_not_atEnd hfirst
      · rw [hskip]
        exact yields_instruction.2 ⟨l.line, rfl, hline, hend⟩
      · refine ih hmore ?_
        rwa [Nat.add_assoc, Nat.add_comm 1]

/-- If the loop over the lines fails, so does the rule for a line behind whole lines. -/
theorem exists_wholeLines_of_instructions
    {c₀ : Cursor}
    (lead : List Span)
    (closed : List ClosedLine)
    (htakes : Takes (wholeLines lead closed) c₀ (skipNewlines c))
    (h : instructions closed.length c = .error e) :
    ∃ closed' d, Takes (wholeLines lead closed') c₀ d ∧ ¬ AtEnd d.rest ∧
      instruction closed'.length d = .error e := by
  induction hn : c.rest.length using Nat.strong_induction_on generalizing c closed with
  | _ n ih =>
      obtain ⟨spans, -, hstop⟩ := takes_skipNewlines c
      obtain ⟨hne, hcases⟩ := instructions_eq_error h
      rcases hcases with herror | ⟨i, c', hi, hmore⟩
      · refine ⟨closed, skipNewlines c, htakes, ?_, herror⟩
        rintro (hnone | hnewline)
        · exact hne (by simpa [ahead] using hnone)
        · exact hstop hnewline
      · obtain ⟨line, -, hline, hend⟩ := yields_instruction.1 hi
        obtain ⟨spans', hspans', hstop'⟩ := takes_skipNewlines c'
        -- The next round finds a line, so a line end stands behind this one.
        cases spans' with
        | nil =>
            have hsame := takes_nil.1 hspans'
            have hne' := (instructions_eq_error hmore).1
            rw [hsame] at hne' hstop'
            rcases hend with hnone | hnewline
            · exact absurd (by simpa [ahead] using hnone) hne'
            · exact absurd hnewline hstop'
        | cons newline more =>
            have hlt : c'.rest.length < n := by
              have hadvance := advances_instruction _ _ _ _ hi
              have hle := length_skipNewlines_le c
              omega
            have hclosed : Takes (wholeLines lead (closed ++ [⟨line, newline, more⟩])) c₀
                (skipNewlines c') := by
              have hall := takes_append.2 ⟨_, htakes, takes_append.2 ⟨_, hline, hspans'⟩⟩
              simpa [wholeLines, ClosedLine.tokens] using hall
            exact ih _ hlt _ hclosed (by simpa using hmore) rfl

/-- **Tokens are no program** if and only if the rule for a line fails behind whole
lines. -/
theorem ofTokens_eq_error_iff
    {tokens : List (Located Token)}
    {start : Span} :
    Program.ofTokens tokens start = .error e ↔
      ∃ lead closed d, Takes (wholeLines lead closed) ⟨tokens, start⟩ d ∧ ¬ AtEnd d.rest ∧
        instruction closed.length d = .error e := by
  have hloop : Program.ofTokens tokens start = .error e ↔
      instructions 0 ⟨tokens, start⟩ = .error e := by
    unfold Program.ofTokens
    cases instructions 0 ⟨tokens, start⟩ <;> simp
  rw [hloop]
  constructor
  · intro h
    obtain ⟨lead, hlead, -⟩ := takes_skipNewlines ⟨tokens, start⟩
    obtain ⟨closed, d, hrest⟩ := exists_wholeLines_of_instructions lead []
      (by simpa [wholeLines] using hlead) h
    exact ⟨lead, closed, d, hrest⟩
  · rintro ⟨lead, closed, d, htakes, hd, h⟩
    refine instructions_eq_error_of_wholeLines htakes hd ?_
    rwa [Nat.zero_add]

theorem not_atEnd_actionTokens
    {rest : List (Located Token)}
    (as : List (Action × Span))
    (h : ¬ AtEnd rest) :
    ¬ AtEnd (actionTokens as ++ rest) := by
  cases as with
  | nil => exact h
  | cons a as => exact (ahead_actionTokens (by simp) rest).1

/-- The loop over the actions of a line runs over actions. -/
theorem subinstructions_eq_error_of_actions
    {as : List (Action × Span)}
    {free : Nat}
    (htakes : Takes (actionTokens as) c d)
    (hd : ¬ AtEnd d.rest)
    (h : subinstructions free d = .error e) :
    subinstructions (as.length + free) c = .error e := by
  induction as generalizing c with
  | nil =>
      obtain rfl := takes_nil.1 htakes
      rwa [List.length_nil, Nat.zero_add]
  | cons a as ih =>
      obtain ⟨a, semicolon⟩ := a
      obtain ⟨c₁, ha, h₁⟩ := takes_append.1 htakes
      obtain ⟨c₂, hsemicolon, has⟩ := takes_cons.1 h₁
      have hstops : ActionStops c₁ a := by
        apply actionStops_of_ahead
        rw [hsemicolon.ahead_cons]
        simp
      have hmore : ¬ AtEnd c₂.rest := by
        rw [has.1]
        exact not_atEnd_actionTokens as hd
      have hfree : ((a, semicolon) :: as).length + free = (as.length + free) + 1 := by
        simp only [List.length_cons]
        omega
      rw [hfree, subinstructions]
      refine bind_eq_error_of_yields (yields_subinstruction.2 ⟨a, rfl, ha, hstops⟩) ?_
      refine bind_eq_error_of_yields (yields_expect.2 ⟨semicolon, hsemicolon⟩ : Yields _ _ () _) ?_
      cases hahead : ahead c₂.rest with
      | none => exact absurd (Or.inl hahead) hmore
      | some t =>
          rw [peek_bind_apply, hahead]
          cases t with
          | newline => exact absurd (Or.inr hahead) hmore
          | _ => exact bind_eq_error (ih has)

/-- The label of a line is read, if there is one. -/
theorem yields_definition_of_takes
    {label : Option (Located String × Span)}
    (htakes : Takes (labelTokens label) c d)
    (hd : label = none → ∀ name, ahead d.rest ≠ some (.label name)) :
    Yields definition c (label.map Prod.fst) d := by
  cases label with
  | none =>
      obtain rfl := takes_nil.1 htakes
      exact yields_definition.2 (Or.inl ⟨rfl, rfl, hd rfl⟩)
  | some p => exact yields_definition.2 (Or.inr ⟨p.1, p.2, rfl, htakes⟩)

/-- Behind a front, the tokens are no program if the rule for the rest of its line
fails. -/
theorem ofTokens_eq_error_of_front
    {f : Front}
    {rest : List (Located Token)}
    {start : Span}
    (free : Nat)
    (hslots : f.slots + free = Instruction.slots)
    (hrest : ¬ AtEnd rest)
    (hlabel : f.Begun ∨ ∀ name, ahead rest ≠ some (.label name))
    (h : ∀ last, subinstructions free ⟨rest, last⟩ = .error e) :
    Program.ofTokens (f.tokens ++ rest) start = .error e := by
  obtain ⟨lead, closed, label, actions⟩ := f
  have hc : (⟨(Front.mk lead closed label actions).tokens ++ rest, start⟩ : Cursor).rest =
      wholeLines lead closed ++ (labelTokens label ++ (actionTokens actions ++ rest)) := by
    simp [Front.tokens]
  obtain ⟨d, hwhole, hd⟩ := exists_takes hc
  obtain ⟨d₁, hlabelled, hd₁⟩ := exists_takes hd
  obtain ⟨d₂, hactions, hd₂⟩ := exists_takes hd₁
  have hdef : Yields definition d (label.map Prod.fst) d₁ := by
    refine yields_definition_of_takes hlabelled ?_
    rintro rfl
    rw [hd₁]
    cases actions with
    | nil => exact hlabel.resolve_left (by simp [Front.Begun])
    | cons a actions => exact (ahead_actionTokens (by simp) rest).2
  have hfree : (if (label.map Prod.fst).isSome then Instruction.slots - 1 else Instruction.slots) =
      actions.length + free := by
    cases label with
    | none => simpa [Front.slots] using hslots.symm
    | some p =>
        simp only [Front.slots, Option.toList_some, List.length_singleton] at hslots
        simp only [Option.map_some, Option.isSome_some, if_true]
        omega
  have hloop : subinstructions (actions.length + free) d₁ = .error e := by
    refine subinstructions_eq_error_of_actions hactions (by rwa [hd₂]) ?_
    rw [← hd₂] at h
    exact h d₂.last
  refine ofTokens_eq_error_iff.2 ⟨lead, closed, d, hwhole, ?_, ?_⟩
  · rw [hd]
    cases label with
    | none => exact not_atEnd_actionTokens actions hrest
    | some p => simp [labelTokens, AtEnd]
  · refine bind_eq_error_of_yields hdef (bind_eq_error ?_)
    rw [hfree]
    exact hloop

end Runs

end Parser

namespace Grammar

section Keywords

variable {before after : List (Located Token)} {k : Keyword} {span : Span}

/-- A token that is not in the first of two lists stands in the second. -/
theorem exists_of_append_eq
    {ts us xs ys : List (Located Token)}
    {t : Located Token}
    (h : ts ++ us = xs ++ t :: ys)
    (ht : t ∉ ts) :
    ∃ ws, xs = ts ++ ws ∧ us = ws ++ t :: ys := by
  rcases append_eq_append_cons h with ⟨zs, rfl, -⟩ | hws
  · exact absurd (by simp) ht
  · exact hws

theorem Reg.keyword_not_mem
    (r : Reg) :
    ⟨.keyword k, span⟩ ∉ r.tokens := by
  cases r <;> simp [Reg.tokens]

theorem Sum.keyword_not_mem
    (s : Sum) :
    ⟨.keyword k, span⟩ ∉ s.tokens := by
  cases s with
  | single r => exact r.keyword_not_mem
  | plus left sign right =>
      simp [Sum.tokens, left.keyword_not_mem, right.keyword_not_mem]

/-- The only keyword of a right-hand side is its first token. -/
theorem RightSide.eq_nil_of_keyword
    {source : RightSide}
    (h : source.tokens = before ++ ⟨.keyword k, span⟩ :: after) :
    before = [] := by
  cases before with
  | nil => rfl
  | cons t before =>
      have hmem : ⟨.keyword k, span⟩ ∈ source.tokens.tail := by simp [h]
      cases source with
      | sum s => exact absurd (List.mem_of_mem_tail hmem) s.keyword_not_mem
      | band keyword opening left comma right closing =>
          simp [RightSide.tokens, left.keyword_not_mem, right.keyword_not_mem] at hmem
      | unary op keyword opening operand closing =>
          simp [RightSide.tokens, operand.keyword_not_mem] at hmem

/-- The keyword of an operation in an action stands behind a register and `:=`. -/
theorem Action.exists_assign_of_keyword
    {a : Action}
    {op : ParamOp}
    (h : a.tokens = before ++ ⟨.keyword op.keyword, span⟩ :: after) :
    ∃ (dest : Reg) (sign : Span), before = dest.tokens ++ [⟨.assign, sign⟩] := by
  have hmem : (⟨.keyword op.keyword, span⟩ : Located Token) ∈ a.tokens := by simp [h]
  cases a with
  | assign dest sign source =>
      obtain ⟨ws, rfl, hws⟩ := exists_of_append_eq h dest.keyword_not_mem
      cases ws with
      | nil => cases hws
      | cons w ws =>
          obtain ⟨rfl, hsource⟩ := List.cons.inj hws
          rw [RightSide.eq_nil_of_keyword hsource]
          exact ⟨dest, sign, rfl⟩
  | branch ifWord condition thenWord gotoWord target =>
      exfalso
      obtain ⟨wanted, conditionSpan⟩ := condition
      rcases op with _ | op
      · cases wanted <;>
          simp [Action.tokens, jumpTokens, ParamOp.keyword, Condition.keyword] at hmem
      · cases wanted <;> cases op <;>
          simp [Action.tokens, jumpTokens, ParamOp.keyword, Condition.keyword] at hmem
  | _ =>
      exfalso
      rcases op with _ | op
      · simp [Action.tokens, jumpTokens, ParamOp.keyword] at hmem
      · cases op <;> simp [Action.tokens, jumpTokens, ParamOp.keyword] at hmem

theorem exists_actions_of_keyword
    {as : List (Action × Span)}
    {op : ParamOp}
    (h : actionTokens as = before ++ ⟨.keyword op.keyword, span⟩ :: after) :
    ∃ (front : List (Action × Span)) (dest : Reg) (sign : Span), front.length < as.length ∧
      before = actionTokens front ++ (dest.tokens ++ [⟨.assign, sign⟩]) := by
  induction as generalizing before with
  | nil =>
      simp [actionTokens] at h
  | cons a as ih =>
      obtain ⟨a, semicolon⟩ := a
      rcases append_eq_append_cons h with ⟨zs, ha, -⟩ | ⟨ws, rfl, hws⟩
      · obtain ⟨dest, sign, rfl⟩ := Action.exists_assign_of_keyword ha
        exact ⟨[], dest, sign, by simp, rfl⟩
      · cases ws with
        | nil => cases hws
        | cons w ws =>
            obtain ⟨rfl, hmore⟩ := List.cons.inj hws
            obtain ⟨front, dest, sign, hlt, rfl⟩ := ih hmore
            exact ⟨(a, semicolon) :: front, dest, sign, by simpa using hlt,
              by simp [actionTokens]⟩

theorem Line.exists_front_of_keyword
    {line : Line}
    {op : ParamOp}
    (h : line.tokens = before ++ ⟨.keyword op.keyword, span⟩ :: after) :
    ∃ (f : Front) (dest : Reg) (sign : Span), f.lead = [] ∧ f.slots < Instruction.slots ∧
      before = f.tokens ++ (dest.tokens ++ [⟨.assign, sign⟩]) := by
  have hlabel : ⟨.keyword op.keyword, span⟩ ∉ labelTokens line.label := by
    cases line.label <;> simp [labelTokens]
  obtain ⟨ws, rfl, hws⟩ := exists_of_append_eq h hlabel
  obtain ⟨front, dest, sign, hlt, rfl⟩ := exists_actions_of_keyword hws
  have hslots : line.label.toList.length + front.length < Instruction.slots := by
    have hle := line.slots_le
    omega
  exact ⟨⟨[], [], line.label, front⟩, dest, sign, rfl, hslots,
    by simp [Front.tokens, wholeLines, newlines]⟩

theorem keyword_not_mem_newlines
    (spans : List Span) :
    ⟨.keyword k, span⟩ ∉ newlines spans := by
  simp [newlines]

/-- The keyword of an operation in some lines stands behind closed lines, the front of a
line, a register and `:=`. -/
theorem Lines.exists_front_of_keyword
    {lines : Lines}
    {op : ParamOp}
    (h : lines.tokens = before ++ ⟨.keyword op.keyword, span⟩ :: after) :
    ∃ (f : Front) (dest : Reg) (sign : Span), f.lead = [] ∧ f.slots < Instruction.slots ∧
      before = f.tokens ++ (dest.tokens ++ [⟨.assign, sign⟩]) := by
  induction lines generalizing before with
  | done =>
      simp [Lines.tokens] at h
  | last line => exact line.exists_front_of_keyword h
  | ended line newline more rest ih =>
      rw [Lines.tokens, List.append_assoc] at h
      rcases append_eq_append_cons h with ⟨zs, hline, -⟩ | ⟨ws, rfl, hws⟩
      · exact line.exists_front_of_keyword hline
      · obtain ⟨ws', rfl, hrest⟩ := exists_of_append_eq hws (keyword_not_mem_newlines _)
        obtain ⟨f, dest, sign, hlead, hlt, rfl⟩ := ih hrest
        refine ⟨{ f with closed := ⟨line, newline, more⟩ :: f.closed }, dest, sign, hlead, hlt, ?_⟩
        simp [Front.tokens, wholeLines, ClosedLine.tokens, hlead, newlines]

end Keywords

end Grammar

/-- In tokens that can be completed to a program, the keyword of an operation stands
behind a front, a register and `:=`. -/
theorem exists_front_of_viable
    {before after : List (Located Token)}
    {op : ParamOp}
    {span start : Span}
    (h : Viable (before ++ ⟨.keyword op.keyword, span⟩ :: after) start) :
    ∃ (f : Front) (dest : Reg) (sign : Span), f.slots < Instruction.slots ∧
      before = f.tokens ++ (dest.tokens ++ [⟨.assign, sign⟩]) := by
  obtain ⟨more, p, hp⟩ := h
  obtain ⟨⟨lead, lines⟩, htokens, -⟩ := ofTokens_eq_ok_iff.1 hp
  rw [List.append_assoc] at htokens
  obtain ⟨ws, rfl, hws⟩ := exists_of_append_eq htokens (keyword_not_mem_newlines lead)
  obtain ⟨f, dest, sign, hlead, hlt, rfl⟩ := Lines.exists_front_of_keyword hws
  exact ⟨{ f with lead := lead }, dest, sign, hlt,
    by simp [Front.tokens, wholeLines, hlead, newlines]⟩

end Microcode
