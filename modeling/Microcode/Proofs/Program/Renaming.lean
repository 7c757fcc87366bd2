import Microcode.Program.Parser
import Microcode.Proofs.Program.Writing
import Microcode.Proofs.Token.Renaming

/-!
# Parsing does not look at the names of labels

**Input.**  A list of tokens and a map of names.

**Relation.**  `relabel f` renames every label of a value by `f` and forgets all
places.  On tokens this is a `Transport`, so it makes no difference whether tokens
are relabelled before they are read or the result after it.

**Results.**
* `instruction_relabelled`: relabelled tokens of a line give the relabelled
  instruction or the relabelled error.
* `ofTokens_relabel`: relabelled tokens give the relabelled program or the
  relabelled error.
* `definitions_relabel` and `targets_relabel`: the labels of a relabelled program.
* `mem_labelNames_of_ofTokens`: the names in a program are names of its tokens.
-/

namespace Microcode

/-- Changes both the values and the errors of results. -/
def mapResult {ε ε' α β : Type} (onError : ε → ε') (onOk : α → β) : Except ε α → Except ε' β
  | .error e => .error (onError e)
  | .ok a => .ok (onOk a)

section Relabelling

/-- The changed value, put at the start of a source. -/
def Located.relabel {α β : Type} (g : α → β) (l : Located α) : Located β :=
  ⟨g l.value, .point .start⟩

def Subinstruction.relabel (f : String → String) : Subinstruction → Subinstruction
  | assign dest source => .assign dest.unlocated (source.relabel Expr.unlocated)
  | goto target => .goto (target.relabel f)
  | branch condition target => .branch condition (target.relabel f)
  | read => .read
  | write => .write
  | halt => .halt

def Instruction.relabel (f : String → String) (i : Instruction) : Instruction where
  label := i.label.map (Located.relabel f)
  address := i.address
  subs := i.subs.map (Located.relabel (Subinstruction.relabel f))

/-- The program with other labels and without the places that it was read from. -/
def Program.relabel (f : String → String) (p : Program) : Program :=
  ⟨p.instructions.map (Instruction.relabel f)⟩

def Cursor.relabel (f : String → String) (c : Cursor) : Cursor :=
  ⟨c.rest.map (Located.relabel (Token.rename f)), .point .start⟩

end Relabelling

namespace Transport

variable (f : String → String)

/-- Every label is renamed, and everything is put at the start of a source. -/
def relabel : Transport where
  name := f
  span _ := .point .start
  near _ s' := s' = .point .start
  near_span _ := rfl
  through_span h _ := by rw [h]; rfl

theorem operand_relabel
    (operand : Operand) :
    (relabel f).operand operand = operand.unlocated := by
  cases operand <;> rfl

theorem expr_relabel
    (expr : Expr) :
    (relabel f).expr expr = expr.unlocated := by
  cases expr with
  | unary op operand => exact congrArg (Expr.unary op) (operand_relabel f operand)
  | _ => rfl

theorem subinstruction_relabel
    (sub : Subinstruction) :
    (relabel f).subinstruction sub = sub.relabel f := by
  cases sub with
  | assign dest source =>
      exact congrArg (fun e => Subinstruction.assign dest.unlocated ⟨e, .point .start⟩)
        (expr_relabel f source.value)
  | _ => rfl

theorem instruction_relabel
    (i : Instruction) :
    (relabel f).instruction i = i.relabel f := by
  have hsubs : (relabel f).located (relabel f).subinstruction =
      Located.relabel (Subinstruction.relabel f) := by
    funext sub
    exact congrArg (Located.mk · _) (subinstruction_relabel f sub.value)
  rw [instruction, hsubs]
  rfl

end Transport

namespace Parser

open Grammar

section Instructions

/-- The tokens up to the first line end, and the tokens from there on. -/
theorem exists_line
    (ts : List (Located Token)) :
    ∃ line tail, ts = line ++ tail ∧ (∀ t ∈ line, t.value ≠ .newline) ∧ AtEnd tail := by
  induction ts with
  | nil => exact ⟨[], [], rfl, by simp, Or.inl rfl⟩
  | cons t ts ih =>
      by_cases ht : t.value = .newline
      · exact ⟨[], t :: ts, rfl, by simp, Or.inr (congrArg some ht)⟩
      · obtain ⟨line, tail, rfl, hline, hend⟩ := ih
        exact ⟨t :: line, tail, rfl, by simpa [ht] using hline, hend⟩

theorem ends_relabel
    {f : String → String}
    {tail : List (Located Token)}
    (h : AtEnd tail) :
    Ends (.relabel f) tail (tail.map (Located.relabel (Token.rename f))) := by
  cases tail with
  | nil => exact Or.inr ⟨rfl, rfl⟩
  | cons t ts =>
      have ht : t.value = .newline := by simpa [AtEnd] using h
      refine Or.inl ⟨t, ts, _, _, rfl, rfl, ht, ?_, rfl⟩
      exact (rename_eq_iff (by simp) t.value).2 ht

/-- **The rule for an instruction does not look at the names of labels**: on relabelled
tokens it gives the relabelled instruction or the relabelled error. -/
theorem instruction_relabelled
    (f : String → String)
    (address : Nat)
    (c : Cursor) :
    instruction address (c.relabel f) =
      mapResult (Located.relabel (ParseError.rename f))
        (Prod.map (Instruction.relabel f) (Cursor.relabel f)) (instruction address c) := by
  obtain ⟨line, tail, hrest, hline, hend⟩ := exists_line c.rest
  have halike : Alike (.relabel f) tail (tail.map (Located.relabel (Token.rename f))) c
      (c.relabel f) :=
    { ends := ends_relabel hend
      line := ⟨line, hline, hrest, by rw [Cursor.relabel, hrest, List.map_append]; rfl⟩
      near_last := fun _ => rfl }
  rcases agree_instruction halike address address with
    ⟨e, ⟨value, span⟩, he, he', hvalue, hspan⟩ |
      ⟨i, ⟨_, last⟩, ⟨_, last'⟩, hi, hi', rfl, rfl, hlast⟩
  · rw [he, he']
    cases hvalue
    cases hspan
    rfl
  · obtain ⟨parsed, rfl, -⟩ := yields_instruction.1 hi
    rw [Transport.instruction_relabel] at hi'
    rw [hi, hi']
    cases hlast
    rfl

end Instructions

section Programs

theorem skipNewlines_relabel
    (f : String → String)
    (c : Cursor) :
    skipNewlines (c.relabel f) = (skipNewlines c).relabel f := by
  obtain ⟨rest, span⟩ := c
  show skipNewlines.go _ _ = (skipNewlines.go rest span).relabel f
  induction rest generalizing span with
  | nil =>
      rfl
  | cons t ts ih =>
      by_cases ht : t.value = .newline
      · have hplain : skipNewlines.go (t :: ts) span = skipNewlines.go ts t.span := if_pos ht
        rw [hplain, ← ih t.span]
        exact if_pos ((rename_eq_iff (by simp) _).2 ht)
      · have hplain : skipNewlines.go (t :: ts) span = ⟨t :: ts, span⟩ := if_neg ht
        rw [hplain]
        exact if_neg fun h => ht ((rename_eq_iff (by simp) _).1 h)

/-- One round of the loop over the lines. -/
theorem instructions_eq
    (address : Nat)
    (c : Cursor) :
    instructions address c =
      if (skipNewlines c).rest.isEmpty then .ok []
      else
        (instruction address (skipNewlines c)).bind fun result =>
          (instructions (address + 1) result.2).map (result.1 :: ·) := by
  rw [instructions]
  split
  · rfl
  · cases instruction address (skipNewlines c) with
    | error e => rfl
    | ok result =>
        simp only [Except.bind]
        cases instructions (address + 1) result.2 <;> rfl

theorem isEmpty_relabel
    (f : String → String)
    (c : Cursor) :
    (c.relabel f).rest.isEmpty = c.rest.isEmpty := by
  simp [Cursor.relabel]

/-- All instructions up to the end of the tokens are read naturally. -/
theorem instructions_relabel
    (f : String → String)
    (address : Nat)
    (c : Cursor) :
    instructions address (c.relabel f) =
      mapResult (Located.relabel (ParseError.rename f)) (List.map (Instruction.relabel f))
        (instructions address c) := by
  fun_induction instructions address c with
  | case1 address c hend =>
      rw [instructions_eq, skipNewlines_relabel, isEmpty_relabel]
      exact if_pos hend
  | case2 address c hend e hline =>
      rw [instructions_eq, skipNewlines_relabel, isEmpty_relabel, if_neg hend,
        instruction_relabelled, hline]
      rfl
  | case3 address c hend i c' hline e hrest ih =>
      rw [instructions_eq, skipNewlines_relabel, isEmpty_relabel, if_neg hend,
        instruction_relabelled, hline]
      show (instructions (address + 1) (c'.relabel f)).map _ = _
      rw [ih, hrest]
      rfl
  | case4 address c hend i c' hline is hrest ih =>
      rw [instructions_eq, skipNewlines_relabel, isEmpty_relabel, if_neg hend,
        instruction_relabelled, hline]
      show (instructions (address + 1) (c'.relabel f)).map _ = _
      rw [ih, hrest]
      rfl

end Programs

end Parser

section Programs

variable {f : String → String} {ts : List (Located Token)} {start : Span} {p : Program}

/-- **Parsing is natural in the names of labels**: relabelled tokens give the relabelled
program or the relabelled error. -/
theorem ofTokens_relabel
    (f : String → String)
    (ts : List (Located Token))
    (start : Span) :
    Program.ofTokens (ts.map (Located.relabel (Token.rename f))) (.point .start) =
      mapResult (Located.relabel (ParseError.rename f)) (Program.relabel f)
        (Program.ofTokens ts start) := by
  have h : Parser.instructions 0 ⟨ts.map (Located.relabel (Token.rename f)), .point .start⟩ = _ :=
    Parser.instructions_relabel f 0 ⟨ts, start⟩
  rw [Program.ofTokens, h, Program.ofTokens]
  cases Parser.instructions 0 ⟨ts, start⟩ <;> rfl

/-- The definition with another name and without its place. -/
def Definition.relabel (f : String → String) (d : Definition) : Definition :=
  ⟨d.label.relabel f, d.address⟩

theorem definitions_relabel
    (f : String → String)
    (p : Program) :
    (p.relabel f).definitions = p.definitions.map (Definition.relabel f) := by
  simp only [Program.definitions, Program.relabel, List.filterMap_map, List.map_filterMap]
  refine List.filterMap_congr fun i _ => ?_
  simp only [Function.comp_apply, Instruction.relabel, Option.map_map]
  rfl

theorem target?_relabel
    (f : String → String)
    (sub : Subinstruction) :
    (sub.relabel f).target? = sub.target?.map (Located.relabel f) := by
  cases sub <;> rfl

theorem targets_relabel
    (f : String → String)
    (p : Program) :
    (p.relabel f).targets = p.targets.map (Located.relabel f) := by
  simp only [Program.targets, Program.relabel, List.flatMap_map, List.map_flatMap]
  refine List.flatMap_congr fun i _ => ?_
  simp only [Instruction.relabel, List.filterMap_map, List.map_filterMap]
  exact List.filterMap_congr fun sub _ => target?_relabel f sub.value

/-- The names of the labels that a program defines or jumps to. -/
def Program.names (p : Program) : Set String :=
  {name | (∃ d ∈ p.definitions, d.label.value = name) ∨ ∃ t ∈ p.targets, t.value = name}

theorem map_relabel_congr
    {g : String → String}
    (h : ∀ name ∈ labelNames ts, f name = g name) :
    ts.map (Located.relabel (Token.rename f)) = ts.map (Located.relabel (Token.rename g)) := by
  refine List.map_congr_left fun t ht => congrArg (Located.mk · _) ?_
  cases hvalue : t.value with
  | label name => exact congrArg Token.label (h name ⟨t, ht, hvalue⟩)
  | _ => rfl

/-- The names in a program are names of its tokens. -/
theorem mem_labelNames_of_ofTokens
    (h : Program.ofTokens ts start = .ok p)
    {name : String}
    (hname : name ∈ p.names) :
    name ∈ labelNames ts := by
  by_contra hnone
  -- No token notices if this name is changed, so the program must not notice it either.
  have htokens : ts.map (Located.relabel (Token.rename (Function.update id name (name ++ "x")))) =
      ts.map (Located.relabel (Token.rename id)) := by
    refine map_relabel_congr fun other hother => Function.update_of_ne ?_ _ _
    rintro rfl
    exact hnone hother
  have hsame : p.relabel (Function.update id name (name ++ "x")) = p.relabel id := by
    have hchanged := ofTokens_relabel (Function.update id name (name ++ "x")) ts start
    rw [htokens, ofTokens_relabel id ts start, h] at hchanged
    exact (Except.ok.inj hchanged).symm
  have hfixed : Function.update id name (name ++ "x") name = name := by
    rcases hname with ⟨d, hd, rfl⟩ | ⟨t, ht, rfl⟩
    · have hdefinitions := congrArg Program.definitions hsame
      rw [definitions_relabel, definitions_relabel] at hdefinitions
      have hd' := List.map_inj_left.1 hdefinitions d hd
      exact congrArg (fun e => e.label.value) hd'
    · have htargets := congrArg Program.targets hsame
      rw [targets_relabel, targets_relabel] at htargets
      exact congrArg Located.value (List.map_inj_left.1 htargets t ht)
  rw [Function.update_self] at hfixed
  simp at hfixed

end Programs

end Microcode
