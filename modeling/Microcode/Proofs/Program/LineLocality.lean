import Microcode.Proofs.Program.Places
import Microcode.Proofs.Program.WellFormed
import Microcode.Proofs.Token.Lines

/-!
# A program is read line by line

**Input.**  A source, and each of its lines as a source by itself.

**Algorithm.**  Neither the lexer nor the parser works line by line.  The tokens of a
source are those of its lines with line ends between them.  The parser reads one
instruction from a line that has tokens, passes over a line that has none, and then
stands in front of the next line as it would at the start of a source.

**Results.**
* `instructions_line` is one line of the loop over instructions.
* `instructions_of_spells` and `error_of_spells` are all lines.
* `program_by_lines`: a source has the lexical error of its first line that has one,
  or else the syntax error of its first line that has one, or else the instructions of
  its lines.
-/

namespace Microcode

section Joining

/-- Instructions numbered from an address on. -/
def renumber (address : Nat) (is : List Instruction) : List Instruction :=
  is.mapIdx fun k i => { i with address := address + k }

/-- The instructions of programs that are read from one line each, moved to the lines
from a number on. -/
def joinFrom (n : Nat) (ps : List Program) : List Instruction :=
  (ps.mapIdx fun k p => p.instructions.map (Instruction.move (.onLine (n + k)))).flatten

/-- One program after the other, each on a line of its own. -/
def Program.join (ps : List Program) : Program :=
  ⟨renumber 0 (joinFrom 1 ps)⟩

theorem renumber_append
    (address : Nat)
    (is js : List Instruction) :
    renumber address (is ++ js) = renumber address is ++ renumber (address + is.length) js := by
  simp only [renumber, List.mapIdx_append, Nat.add_assoc, Nat.add_comm is.length]

theorem joinFrom_cons
    (n : Nat)
    (p : Program)
    (ps : List Program) :
    joinFrom n (p :: ps) =
      p.instructions.map (Instruction.move (.onLine n)) ++ joinFrom (n + 1) ps := by
  simp only [joinFrom, List.mapIdx_cons, List.flatten_cons, Nat.add_zero, Nat.add_assoc,
    Nat.add_comm 1]

theorem joinFrom_append
    (n : Nat)
    (ps qs : List Program) :
    joinFrom n (ps ++ qs) = joinFrom n ps ++ joinFrom (n + ps.length) qs := by
  simp only [joinFrom, List.mapIdx_append, List.flatten_append, Nat.add_assoc,
    Nat.add_comm ps.length]

end Joining

namespace Parser

section Lines

/-- The instructions at a cursor depend on what follows the line ends in front. -/
theorem instructions_congr
    {c c' : Cursor}
    (h : skipNewlines c = skipNewlines c')
    (address : Nat) :
    instructions address c = instructions address c' := by
  rw [instructions, instructions.eq_def address c', h]

theorem instructions_newline
    {newline : Located Token}
    (hnewline : newline.value = .newline)
    (tokens : List (Located Token))
    (last : Span)
    (address : Nat) :
    instructions address ⟨newline :: tokens, last⟩ =
      instructions address ⟨tokens, newline.span⟩ := by
  refine instructions_congr ?_ address
  simp [skipNewlines, skipNewlines.go, hnewline]

theorem instructions_nil
    (last : Span)
    (address : Nat) :
    instructions address ⟨[], last⟩ = .ok [] := by
  rw [instructions]
  rfl

/-- An instruction in front is the first of the instructions. -/
theorem instructions_cons
    {t : Located Token}
    (ht : t.value ≠ .newline)
    (tokens : List (Located Token))
    (last : Span)
    (address : Nat) :
    instructions address ⟨t :: tokens, last⟩ =
      match instruction address ⟨t :: tokens, last⟩ with
      | .error e => .error e
      | .ok (i, c) => (instructions (address + 1) c).map (i :: ·) := by
  have hskip : skipNewlines ⟨t :: tokens, last⟩ = ⟨t :: tokens, last⟩ := by
    simp [skipNewlines, skipNewlines.go, ht]
  rw [instructions, hskip]
  simp only [List.isEmpty_cons, Bool.false_eq_true, if_false]
  split
  · next heq => rw [heq]
  · next i c heq =>
      rw [heq]
      show _ = (instructions (address + 1) c).map (i :: ·)
      cases instructions (address + 1) c <;> rfl

/-- One line of the loop: the error of the line by itself, at its place, or the
instructions of the line by itself in front of those of the other lines. -/
theorem instructions_line
    {n column : Nat}
    {ts : List (Located Token)}
    {newline : Located Token}
    (hts : ∀ t ∈ ts, t.value ≠ .newline)
    (hnewline : newline.value = .newline)
    (hfirst : newline.span.first = ⟨n, column⟩)
    (address : Nat)
    (tokens : List (Located Token))
    (last : Span) :
    (∃ e e', Program.ofTokens (ts ++ [⟨.newline, .point ⟨1, column⟩⟩]) (.point .start) = .error e ∧
      instructions address ⟨ts.map (Located.move (.onLine n)) ++ newline :: tokens, last⟩ =
        .error e' ∧
      e'.value = e.value ∧ e'.span.first = e.span.first.onLine n) ∨
    ∃ p, Program.ofTokens (ts ++ [⟨.newline, .point ⟨1, column⟩⟩]) (.point .start) = .ok p ∧
      p.instructions.length ≤ 1 ∧
      instructions address ⟨ts.map (Located.move (.onLine n)) ++ newline :: tokens, last⟩ =
        (instructions (address + p.instructions.length) ⟨tokens, newline.span⟩).map
          (renumber address (p.instructions.map (Instruction.move (.onLine n))) ++ ·) := by
  have hend : ∀ (a : Nat) (last : Span),
      instructions a ⟨[⟨.newline, .point ⟨1, column⟩⟩], last⟩ = .ok [] := by
    intro a last
    rw [instructions_newline rfl, instructions_nil]
  cases ts with
  | nil =>
      refine Or.inr ⟨⟨[]⟩, ?_, by simp, ?_⟩
      · rw [Program.ofTokens, List.nil_append, hend]
      · rw [List.map_nil, List.nil_append, instructions_newline hnewline]
        cases instructions address ⟨tokens, newline.span⟩ <;> rfl
  | cons t ts =>
      have ht : t.value ≠ .newline := hts t (by simp)
      have hmoved : (t.move (.onLine n)).value ≠ .newline := ht
      have hcases := @instruction_moved (.onLine n) (t :: ts) ⟨.newline, .point ⟨1, column⟩⟩ newline
        hts rfl hnewline hfirst [] tokens (.point .start) last 0 address
      simp only [List.cons_append, List.map_cons] at hcases
      rw [Program.ofTokens, List.cons_append, instructions_cons ht, List.map_cons,
        List.cons_append, instructions_cons hmoved]
      rcases hcases with ⟨e, e', he, he', hvalue, hplace⟩ | ⟨i, stop, stop', hi, hi'⟩
      · rw [he, he']
        exact Or.inl ⟨e, e', rfl, rfl, hvalue, hplace⟩
      · rw [hi, hi']
        refine Or.inr ⟨⟨[i]⟩, ?_, by simp, ?_⟩
        · simp only [hend]
          rfl
        · simp only [instructions_newline hnewline]
          rfl

end Lines

end Parser

section Runs

/-- The program of a line by itself. -/
def lineProgram (line : List Char) : Except (Located ParseError) Program :=
  Program.ofTokens (lineReading line).tokens (.point .start)

/-- A line that is a program by itself. -/
def Holds (line : List Char) (p : Program) : Prop :=
  (lineReading line).error = none ∧ lineProgram line = .ok p

theorem Reads.lineProgram_eq
    {line : List Char}
    {ts : List (Located Token)}
    (h : Reads line ts) :
    lineProgram line =
      Program.ofTokens (ts ++ [⟨.newline, .point ⟨1, line.length + 1⟩⟩]) (.point .start) := by
  rw [lineProgram, h.2.2]

theorem lineProgram_nil :
    lineProgram [] = .ok ⟨[]⟩ := by
  rw [reads_nil.lineProgram_eq, Program.ofTokens, List.nil_append,
    Parser.instructions_newline rfl, Parser.instructions_nil]

/-- Lines that are programs by themselves give the instructions of these programs. -/
theorem instructions_of_spells
    {n : Nat}
    {lines : List (List Char)}
    {tokens : List (Located Token)}
    (h : Spells n lines tokens)
    {ps : List Program}
    (hps : List.Forall₂ (fun line p => lineProgram line = .ok p) lines ps)
    (address : Nat)
    (last : Span) :
    Parser.instructions address ⟨tokens, last⟩ = .ok (renumber address (joinFrom n ps)) := by
  induction h generalizing ps address last with
  | done =>
      cases hps
      exact Parser.instructions_nil last address
  | line hreads hnewline hfirst _ ih =>
      cases hps with
      | cons hp hps =>
          rw [hreads.lineProgram_eq] at hp
          rcases Parser.instructions_line hreads.1 hnewline hfirst address _ last with
            ⟨e, e', he, -⟩ | ⟨p, hok, -, hstep⟩
          · rw [hp] at he
            cases he
          · rw [hp] at hok
            cases hok
            rw [hstep, ih hps, joinFrom_cons, renumber_append, List.length_map]
            rfl
  | merged _ ih =>
      cases hps with
      | cons hp hps =>
          rw [lineProgram_nil] at hp
          cases hp
          rw [ih hps, joinFrom_cons]
          rfl

/-- The first line that is no program by itself gives its error. -/
theorem error_of_spells
    {n : Nat}
    {lines : List (List Char)}
    {tokens : List (Located Token)}
    (h : Spells n lines tokens)
    {before after : List (List Char)}
    {line : List Char}
    {e : Located ParseError}
    (hlines : lines = before ++ line :: after)
    (hok : ∀ l ∈ before, ∃ p, lineProgram l = .ok p)
    (herror : lineProgram line = .error e)
    (address : Nat)
    (last : Span) :
    ∃ e', Parser.instructions address ⟨tokens, last⟩ = .error e' ∧ e'.value = e.value ∧
      e'.span.first = e.span.first.onLine (n + before.length) := by
  induction h generalizing before address last with
  | done =>
      simp at hlines
  | @line n first lines ts tokens newline hreads hnewline hfirst _ ih =>
      have hcases := Parser.instructions_line hreads.1 hnewline hfirst address tokens last
      rw [← hreads.lineProgram_eq] at hcases
      cases before with
      | nil =>
          obtain ⟨rfl, rfl⟩ := List.cons.inj hlines
          rcases hcases with ⟨e₁, e', he₁, he', hvalue, hplace⟩ | ⟨p, hp, -⟩
          · rw [herror] at he₁
            cases he₁
            exact ⟨e', he', hvalue, hplace⟩
          · rw [herror] at hp
            cases hp
      | cons l before =>
          obtain ⟨rfl, hrest⟩ := List.cons.inj hlines
          obtain ⟨p, hp⟩ := hok _ (List.mem_cons_self ..)
          rcases hcases with ⟨e₁, -, he₁, -⟩ | ⟨q, -, -, hstep⟩
          · rw [hp] at he₁
            cases he₁
          · obtain ⟨e', he', hvalue, hplace⟩ := ih hrest
              (fun l hl => hok l (List.mem_cons_of_mem _ hl)) (address + q.instructions.length) _
            refine ⟨e', ?_, hvalue, ?_⟩
            · rw [hstep, he']
              rfl
            · rw [hplace, List.length_cons, Nat.add_assoc, Nat.add_comm 1]
  | merged _ ih =>
      cases before with
      | nil =>
          obtain ⟨rfl, rfl⟩ := List.cons.inj hlines
          rw [lineProgram_nil] at herror
          cases herror
      | cons l before =>
          obtain ⟨e', he', hvalue, hplace⟩ := ih (List.cons.inj hlines).2
            (fun l hl => hok l (List.mem_cons_of_mem _ hl)) address last
          refine ⟨e', he', hvalue, ?_⟩
          rw [hplace, List.length_cons, Nat.add_assoc, Nat.add_comm 1]

end Runs

section Sources

variable {s : Source}

/-- A line by itself has a lexical error, or it has the program of the line or its
error. -/
theorem program_alone
    {line : List Char}
    (hend : '\n' ∉ line) :
    (s.alone line).program =
      match (lineReading line).error with
      | some e => .error (.lex e)
      | none =>
          match lineProgram line with
          | .error e => .error (.parse e)
          | .ok p => .ok p := by
  rw [Source.program, tokens_alone hend]
  cases (lineReading line).error with
  | some e => rfl
  | none =>
      by_cases hline : line = []
      · subst hline
        rw [lineProgram_nil, if_pos rfl]
        simp only [Program.ofTokens, Parser.instructions_nil]
      · rw [if_neg hline]
        rfl

theorem lex_alone_iff
    {line : List Char}
    (hend : '\n' ∉ line)
    (e : Located LexError) :
    (s.alone line).program = .error (.lex e) ↔ (lineReading line).error = some e := by
  rw [program_alone hend]
  cases (lineReading line).error with
  | some e' => simp
  | none => cases lineProgram line <;> simp

theorem parse_alone_iff
    {line : List Char}
    (hend : '\n' ∉ line)
    (e : Located ParseError) :
    (s.alone line).program = .error (.parse e) ↔
      (lineReading line).error = none ∧ lineProgram line = .error e := by
  rw [program_alone hend]
  cases (lineReading line).error with
  | some e' => simp
  | none => cases lineProgram line <;> simp

theorem ok_alone_iff
    {line : List Char}
    (hend : '\n' ∉ line)
    (p : Program) :
    (s.alone line).program = .ok p ↔ Holds line p := by
  unfold Holds
  rw [program_alone hend]
  cases (lineReading line).error with
  | some e' => simp
  | none => cases lineProgram line <;> simp

/-- The first line with a lexical error stops the reading of a source. -/
theorem program_of_lex_error
    {before after : List (List Char)}
    {line : List Char}
    {e : Located LexError}
    (hlines : s.lines = before ++ line :: after)
    (hok : ∀ l ∈ before, (lineReading l).error = none)
    (herror : (lineReading line).error = some e) :
    s.program = .error (.lex (e.move (.onLine (before.length + 1)))) := by
  rw [Source.program, error_of_lines hlines hok herror]

/-- The first line with a syntax error does so if no line has a lexical error. -/
theorem program_of_parse_error
    {before after : List (List Char)}
    {line : List Char}
    {e : Located ParseError}
    (hread : ∀ l ∈ s.lines, (lineReading l).error = none)
    (hlines : s.lines = before ++ line :: after)
    (hok : ∀ l ∈ before, ∃ p, lineProgram l = .ok p)
    (herror : lineProgram line = .error e) :
    ∃ e', s.program = .error (.parse e') ∧ e'.value = e.value ∧
      e'.span.first = e.span.first.onLine (before.length + 1) := by
  obtain ⟨tokens, htokens, hspells⟩ := spells_of_lines hread
  obtain ⟨e', he', hvalue, hplace⟩ := error_of_spells hspells hlines hok herror 0 (.point .start)
  refine ⟨e', ?_, hvalue, by rw [hplace, Nat.add_comm 1]⟩
  rw [Source.program, htokens]
  simp only [Program.ofTokens, he']

/-- A source of programs is their join. -/
theorem program_of_lines
    {ps : List Program}
    (h : List.Forall₂ Holds s.lines ps) :
    s.program = .ok (.join ps) := by
  obtain ⟨hread, hps⟩ := (List.forall₂_and_left s.lines ps).1 h
  obtain ⟨tokens, htokens, hspells⟩ := spells_of_lines hread
  rw [Source.program, htokens]
  simp only [Program.ofTokens, instructions_of_spells hspells hps]
  rfl

/-- A line holds at most one instruction. -/
theorem Holds.length_le
    {line : List Char}
    {p : Program}
    (h : Holds line p)
    (hend : '\n' ∉ line) :
    p.instructions.length ≤ 1 := by
  obtain ⟨hread, hp⟩ := h
  rcases run_line_cases hend with ⟨e, he, -⟩ | ⟨ts, hreads, -⟩
  · rw [hread] at he
    cases he
  · have hcases := @Parser.instructions_line 1 (line.length + 1) ts
      ⟨.newline, .point ⟨1, line.length + 1⟩⟩ hreads.1 rfl rfl 0 [] (.point .start)
    rw [← hreads.lineProgram_eq, hp] at hcases
    rcases hcases with ⟨e, -, he, -⟩ | ⟨q, hq, hle, -⟩
    · cases he
    · cases hq
      exact hle

theorem exists_programs
    {lines : List (List Char)}
    {holds : List Char → Program → Prop}
    (h : ∀ l ∈ lines, ∃ p, holds l p) :
    ∃ ps, List.Forall₂ holds lines ps := by
  have : Nonempty Program := ⟨⟨[]⟩⟩
  choose! f hf using h
  exact ⟨lines.map f, List.forall₂_map_right_iff.2 (List.forall₂_same.2 hf)⟩

/-- If not every line has a property, there is a first one that lacks it. -/
theorem exists_first_not
    {P : List Char → Prop}
    {lines : List (List Char)}
    (h : ¬ ∀ l ∈ lines, P l) :
    ∃ before line after, lines = before ++ line :: after ∧ (∀ l ∈ before, P l) ∧ ¬ P line := by
  induction lines with
  | nil =>
      simp at h
  | cons l lines ih =>
      by_cases hl : P l
      · obtain ⟨before, line, after, rfl, hbefore, hline⟩ := ih (by simpa [hl] using h)
        exact ⟨l :: before, line, after, rfl, by simpa [hl] using hbefore, hline⟩
      · exact ⟨[], l, lines, rfl, by simp, hl⟩

/-- Every line of a source that is a program is one by itself. -/
theorem exists_holds_of_program
    {p : Program}
    (h : s.program = .ok p) :
    ∃ ps, List.Forall₂ Holds s.lines ps ∧ p = .join ps := by
  have hread : ∀ l ∈ s.lines, (lineReading l).error = none := by
    by_contra hall
    obtain ⟨before, line, after, hlines, hbefore, hline⟩ := exists_first_not hall
    obtain ⟨e, he⟩ := Option.ne_none_iff_exists'.1 hline
    rw [program_of_lex_error hlines hbefore he] at h
    cases h
  have hparse : ∀ l ∈ s.lines, ∃ p, lineProgram l = .ok p := by
    by_contra hall
    obtain ⟨before, line, after, hlines, hbefore, hline⟩ := exists_first_not hall
    cases hp : lineProgram line with
    | ok p => exact hline ⟨p, hp⟩
    | error e =>
        obtain ⟨e', he', -⟩ := program_of_parse_error hread hlines hbefore hp
        rw [he'] at h
        cases h
  obtain ⟨ps, hps⟩ := exists_programs fun l hl =>
    (hparse l hl).imp fun p hp => (⟨hread l hl, hp⟩ : Holds l p)
  refine ⟨ps, hps, ?_⟩
  rw [program_of_lines hps] at h
  exact (Except.ok.inj h).symm

/-- **A source is read line by line.**  Compare a source with its lines, each as a source
by itself.

If some line has a lexical error, so has the source: that of the first such line, at its
column and on the number of the line, whatever the syntax of the lines before it.  Or
else, if some line has a syntax error, so has the source: that of the first such line,
with the same start.  Or else every line has at most one instruction, and the program of
the source is the join of theirs, renumbered, with all places on the numbers of the
lines. -/
theorem program_by_lines
    (s : Source) :
    (∀ before line after e, s.lines = before ++ line :: after →
      (∀ l ∈ before, ∀ e', (s.alone l).program ≠ .error (.lex e')) →
      (s.alone line).program = .error (.lex e) →
      s.program = .error (.lex (e.move (.onLine (before.length + 1))))) ∧
    ((∀ l ∈ s.lines, ∀ e, (s.alone l).program ≠ .error (.lex e)) →
      (∀ before line after e, s.lines = before ++ line :: after →
        (∀ l ∈ before, ∀ e', (s.alone l).program ≠ .error (.parse e')) →
        (s.alone line).program = .error (.parse e) →
        ∃ e', s.program = .error (.parse e') ∧ e'.value = e.value ∧
          e'.span.first = e.span.first.onLine (before.length + 1)) ∧
      ((∀ l ∈ s.lines, ∀ e, (s.alone l).program ≠ .error (.parse e)) →
        ∃ ps, List.Forall₂ (fun l p => (s.alone l).program = .ok p ∧ p.instructions.length ≤ 1)
            s.lines ps ∧
          s.program = .ok (.join ps))) := by
  have hend : ∀ l ∈ s.lines, '\n' ∉ l := fun l => not_mem_of_mem_lines
  have hread : ∀ l ∈ s.lines, (∀ e, (s.alone l).program ≠ .error (.lex e)) →
      (lineReading l).error = none := by
    intro l hl hlex
    cases herror : (lineReading l).error with
    | none => rfl
    | some e => exact absurd ((lex_alone_iff (hend l hl) e).2 herror) (hlex e)
  have hparse : ∀ l ∈ s.lines, (lineReading l).error = none →
      (∀ e, (s.alone l).program ≠ .error (.parse e)) → ∃ p, lineProgram l = .ok p := by
    intro l hl hnone hshape
    cases hp : lineProgram l with
    | ok p => exact ⟨p, rfl⟩
    | error e => exact absurd ((parse_alone_iff (hend l hl) e).2 ⟨hnone, hp⟩) (hshape e)
  refine ⟨fun before line after e hlines hbefore herror => ?_, fun hlex => ⟨?_, fun hshape => ?_⟩⟩
  · have hmem : ∀ l ∈ before, l ∈ s.lines := fun l hl => by simp [hlines, hl]
    have hline : line ∈ s.lines := by simp [hlines]
    exact program_of_lex_error hlines (fun l hl => hread l (hmem l hl) (hbefore l hl))
      ((lex_alone_iff (hend line hline) e).1 herror)
  · intro before line after e hlines hbefore herror
    have hmem : ∀ l ∈ before, l ∈ s.lines := fun l hl => by simp [hlines, hl]
    have hline : line ∈ s.lines := by simp [hlines]
    have hall : ∀ l ∈ s.lines, (lineReading l).error = none := fun l hl => hread l hl (hlex l hl)
    exact program_of_parse_error hall hlines
      (fun l hl => hparse l (hmem l hl) (hall l (hmem l hl)) (hbefore l hl))
      ((parse_alone_iff (hend line hline) e).1 herror).2
  · have hholds : ∀ l ∈ s.lines, ∃ p, Holds l p ∧ p.instructions.length ≤ 1 := by
      intro l hl
      have hnone := hread l hl (hlex l hl)
      obtain ⟨p, hp⟩ := hparse l hl hnone (hshape l hl)
      exact ⟨p, ⟨hnone, hp⟩, Holds.length_le ⟨hnone, hp⟩ (hend l hl)⟩
    obtain ⟨ps, hps⟩ := exists_programs (fun l hl => (hholds l hl).imp fun p hp => And.intro hl hp)
    refine ⟨ps, hps.imp fun l p hp => ⟨(ok_alone_iff (hend l hp.1) p).2 hp.2.1, hp.2.2⟩,
      program_of_lines (hps.imp fun l p hp => hp.2.1)⟩

/-- A bad character on the second line is found before the missing `;` on the first; if
the line above is empty, the missing `;` is found on the second line. -/
theorem program_by_lines_two :
    let s : Source := ⟨"two", "rd\n?"⟩
    let t : Source := ⟨"two", "\nrd"⟩
    (s.lines = [['r', 'd'], ['?']] ∧
      (s.alone ['r', 'd']).program =
        .error (.parse ⟨.unexpected (.token .semicolon) .newline, .point ⟨1, 3⟩⟩) ∧
      (s.alone ['?']).program = .error (.lex ⟨.badChar '?', .point ⟨1, 1⟩⟩) ∧
      s.program = .error (.lex ⟨.badChar '?', .point ⟨2, 1⟩⟩)) ∧
    t.lines = [[], ['r', 'd']] ∧ (t.alone []).program = .ok ⟨[]⟩ ∧
      ∃ e, t.program = .error (.parse e) ∧ e.value = .unexpected (.token .semicolon) .newline ∧
        e.span.first = ⟨2, 3⟩ := by
  intro s t
  constructor
  · have hlines : s.lines = [['r', 'd'], ['?']] := by decide
    have hfirst : (s.alone ['r', 'd']).program =
        .error (.parse ⟨.unexpected (.token .semicolon) .newline, .point ⟨1, 3⟩⟩) := by decide +kernel
    have hsecond : (s.alone ['?']).program = .error (.lex ⟨.badChar '?', .point ⟨1, 1⟩⟩) := by decide +kernel
    refine ⟨hlines, hfirst, hsecond, ?_⟩
    refine (program_by_lines s).1 [['r', 'd']] ['?'] [] _ hlines ?_ hsecond
    intro l hl e
    rw [List.mem_singleton.1 hl, hfirst]
    simp
  · have hlines : t.lines = [[], ['r', 'd']] := by decide
    have hfirst : (t.alone []).program = .ok ⟨[]⟩ := by decide +kernel
    have hsecond : (t.alone ['r', 'd']).program =
        .error (.parse ⟨.unexpected (.token .semicolon) .newline, .point ⟨1, 3⟩⟩) := by decide +kernel
    refine ⟨hlines, hfirst, ((program_by_lines t).2 ?_).1 [[]] ['r', 'd'] [] _ hlines ?_ hsecond⟩
    · intro l hl e
      rw [hlines] at hl
      simp only [List.mem_cons, List.not_mem_nil, or_false] at hl
      rcases hl with rfl | rfl
      · simp [hfirst]
      · simp [hsecond]
    · intro l hl e
      rw [List.mem_singleton.1 hl, hfirst]
      simp

end Sources

end Microcode
