import Microcode.Proofs.Source.Lines
import Microcode.Proofs.Token.Reading
import Mathlib.Data.List.TakeWhile

/-!
# Tokens are read line by line

**Input.**  Lines of characters, each followed by its end.

**Algorithm.**  The lexer knows nothing of lines: it takes all line ends of a run
as one token, carries a context from token to token, and looks ahead.  Still, a
step on a line takes characters of this line only and does not depend on what
stands behind its end, and a line end leaves the context in which a source starts.

**Results.**
* `next?_line` is the step: it is the same on every line and whatever follows.
* `run_line` is the run up to the end of the line.
* `error_of_lines` and `spells_of_lines`: the first line that cannot be read by
  itself stops the lexer; if there is none, the tokens of the source are those of
  its lines.
* `getLast?_ne_return`: a text that can be read does not end in a carriage return, so a
  line end behind it changes none of its lines.
-/

namespace Microcode

section Steps

/-- What is taken and what is left while a condition holds that a line end breaks. -/
theorem takeWhile_append_newline
    {p : Char → Bool}
    (hp : p '\n' = false)
    (cs rest : List Char) :
    (cs ++ '\n' :: rest).takeWhile p = cs.takeWhile p ∧
      (cs ++ '\n' :: rest).dropWhile p = cs.dropWhile p ++ '\n' :: rest := by
  induction cs with
  | nil =>
      simp [hp]
  | cons c cs ih =>
      by_cases hc : p c = true
      · simp [hc, ih]
      · simp [hc]

/-- What follows a word is looked for on its line only. -/
theorem ofChars_append_newline
    (cs rest : List Char) :
    Follow.ofChars (cs ++ '\n' :: rest) = Follow.ofChars (cs ++ ['\n']) := by
  unfold Follow.ofChars
  rw [(takeWhile_append_newline (by decide) cs rest).2,
    (takeWhile_append_newline (by decide) cs []).2]
  rcases cs.dropWhile isBlank with _ | ⟨c, _ | ⟨d, ds⟩⟩
  · rfl
  · by_cases hc : c = ':' <;> simp [hc]
  · by_cases hc : c = ':'
    · by_cases hd : d = '=' <;> simp [hc, hd]
    · simp [hc]

theorem classify_ne_newline
    (context : Context)
    (word : String)
    (follow : Follow) :
    context.classify word follow ≠ .ok .newline := by
  have hlabel : labelOf word ≠ .ok .newline := by
    unfold labelOf
    split <;> simp
  have hregister : ∀ error, registerOf error word ≠ .ok .newline := by
    intro error
    unfold registerOf
    split <;> simp
  unfold Context.classify
  split
  · simp
  · split
    · exact hregister _
    · exact hlabel
    · exact hlabel
    · exact hlabel
    · exact hregister _

/-- The first token of a line is read off the line, whatever stands behind its end. -/
theorem exists_read?_of_line
    (context : Context)
    {line : List Char}
    (hne : line ≠ [])
    (hend : '\n' ∉ line) :
    ∃ text more result, line = text ++ more ∧ text ≠ [] ∧ result ≠ .ok .newline ∧
      ∀ rest, context.read? (line ++ '\n' :: rest) = some (text, result) := by
  fun_cases Context.read? context line with
  | case1 => exact absurd rfl hne
  | case2 cs => exact ⟨[';'], cs, _, rfl, by simp, by simp, fun _ => rfl⟩
  | case3 cs => exact ⟨[','], cs, _, rfl, by simp, by simp, fun _ => rfl⟩
  | case4 cs => exact ⟨['('], cs, _, rfl, by simp, by simp, fun _ => rfl⟩
  | case5 cs => exact ⟨[')'], cs, _, rfl, by simp, by simp, fun _ => rfl⟩
  | case6 cs => exact ⟨['+'], cs, _, rfl, by simp, by simp, fun _ => rfl⟩
  | case7 cs => exact ⟨[':', '='], cs, _, rfl, by simp, by simp, fun _ => rfl⟩
  | case8 cs hcs =>
      refine ⟨[':'], cs, .ok .colon, rfl, by simp, by simp, fun rest => ?_⟩
      cases cs with
      | nil => rfl
      | cons d cs =>
          have hd : d ≠ '=' := fun hd => hcs cs (by rw [hd])
          simp [Context.read?, hd]
  | case9 cs => exact absurd (List.mem_cons_self ..) hend
  | case10 c cs _ _ _ _ _ _ _ _ hword =>
      refine ⟨c :: cs.takeWhile isWordChar, cs.dropWhile isWordChar,
        context.classify (String.ofList (c :: cs.takeWhile isWordChar))
          (Follow.ofChars (cs.dropWhile isWordChar ++ ['\n'])),
        by simp, by simp, classify_ne_newline _ _ _, fun rest => ?_⟩
      obtain ⟨htake, hdrop⟩ := takeWhile_append_newline (p := isWordChar) (by decide) cs rest
      rw [← ofChars_append_newline _ rest, ← hdrop, ← htake]
      exact read?_word context hword _
  | case11 c cs h1 h2 h3 h4 h5 _ h6 h7 hword =>
      refine ⟨[c], cs, .error (.badChar c), rfl, by simp, by simp, fun rest => ?_⟩
      rw [List.cons_append]
      generalize cs ++ '\n' :: rest = ds
      unfold Context.read?
      split
      case h_10 heq =>
          cases heq
          rw [if_neg hword]
      all_goals
          cases ‹c :: ds = _›
      all_goals
          contradiction

/-- The lexer behind the end of a line, which takes the line ends that follow at
once. -/
def Lexer.afterLine (n : Nat) (rest : List Char) : Lexer :=
  ⟨rest.dropWhile (· == '\n'), (Position.mk (n + 1) 1).advance (rest.takeWhile (· == '\n')),
    .lineStart⟩

/-- The token of a line end and of the line ends that follow it at once. -/
def newlineAt (place : Position) (rest : List Char) : Located Token :=
  ⟨.newline, .cover place ('\n' :: rest.takeWhile (· == '\n'))⟩

theorem next?_newline
    (n column : Nat)
    (context : Context)
    (rest : List Char) :
    Lexer.next? ⟨'\n' :: rest, ⟨n, column⟩, context⟩ =
      some (.ok (newlineAt ⟨n, column⟩ rest), .afterLine n rest) := by
  have hread : context.read? ('\n' :: rest) =
      some ('\n' :: rest.takeWhile (· == '\n'), .ok .newline) := rfl
  have hdrop : ('\n' :: rest).drop ('\n' :: rest.takeWhile (· == '\n')).length =
      rest.dropWhile (· == '\n') := by
    rw [List.length_cons, List.drop_succ_cons]
    calc rest.drop (rest.takeWhile (· == '\n')).length
        = (rest.takeWhile (· == '\n') ++ rest.dropWhile (· == '\n')).drop
            (rest.takeWhile (· == '\n')).length := by rw [List.takeWhile_append_dropWhile]
      _ = rest.dropWhile (· == '\n') := List.drop_left
  rw [next?_of_ok (by decide) hread, hdrop]
  rfl

/-- A step on a line is the same on every line and whatever follows: it reaches the
end of the line, or stops with an error, or takes a token and leaves a shorter
line. -/
theorem next?_line
    (context : Context)
    (column : Nat)
    {line : List Char}
    (hend : '\n' ∉ line) :
    (∀ n rest, Lexer.next? ⟨line ++ '\n' :: rest, ⟨n, column⟩, context⟩ =
      some (.ok (newlineAt ⟨n, column + line.length⟩ rest), .afterLine n rest)) ∨
    (∃ error a, ∀ n rest, ∃ l', Lexer.next? ⟨line ++ '\n' :: rest, ⟨n, column⟩, context⟩ =
      some (.error ⟨error, .point ⟨n, a⟩⟩, l')) ∨
    ∃ token a b more column', token ≠ .newline ∧ '\n' ∉ more ∧ more.length < line.length ∧
      column' + more.length = column + line.length ∧
      ∀ n rest, Lexer.next? ⟨line ++ '\n' :: rest, ⟨n, column⟩, context⟩ =
        some (.ok ⟨token, ⟨n, a⟩, ⟨n, b⟩⟩,
          ⟨more ++ '\n' :: rest, ⟨n, column'⟩, .after token⟩) := by
  induction line generalizing column with
  | nil =>
      exact Or.inl fun n rest => next?_newline n column context rest
  | cons c line ih =>
      obtain ⟨hc, hline⟩ := not_or.1 (fun hmem => hend (List.mem_cons.2 hmem))
      by_cases hb : isBlank c = true
      · have hblank : ∀ n rest, Lexer.next? ⟨c :: line ++ '\n' :: rest, ⟨n, column⟩, context⟩ =
            Lexer.next? ⟨line ++ '\n' :: rest, ⟨n, column + 1⟩, context⟩ := by
          intro n rest
          have hafter : (Position.mk n column).after c = ⟨n, column + 1⟩ := by
            simp [Position.after, Ne.symm hc]
          rw [List.cons_append, next?_blank hb, hafter]
        have hlength : column + 1 + line.length = column + (c :: line).length := by
          simp only [List.length_cons]
          omega
        simp only [hblank, ← hlength]
        rcases ih (column + 1) hline with hstop | herror | hstep
        · exact Or.inl hstop
        · exact Or.inr (Or.inl herror)
        · obtain ⟨token, a, b, more, column', htoken, hmore, hlt, hcolumn, hnext⟩ := hstep
          exact Or.inr (Or.inr ⟨token, a, b, more, column', htoken, hmore,
            Nat.lt_succ_of_lt hlt, hcolumn, hnext⟩)
      · obtain ⟨text, more, result, hsplit, hne, hresult, hread⟩ :=
          exists_read?_of_line context (List.cons_ne_nil c line) hend
        have hblank : ¬ (c = ' ' ∨ c = '\t') := fun h => hb ((isBlank_iff c).2 h)
        simp only [List.cons_append] at hread ⊢
        cases result with
        | error error =>
            exact Or.inr (Or.inl ⟨error, column, fun n rest =>
              ⟨_, next?_of_error hblank (hread rest) _⟩⟩)
        | ok token =>
            have htext : '\n' ∉ text := fun hmem => hend (hsplit ▸ List.mem_append_left _ hmem)
            have hmore : '\n' ∉ more := fun hmem => hend (hsplit ▸ List.mem_append_right _ hmem)
            have hinit : '\n' ∉ text.dropLast := fun hmem => htext (List.dropLast_subset _ hmem)
            have hlength : text.length + more.length = (c :: line).length := by
              rw [hsplit, List.length_append]
            have hpos := List.length_pos_iff.2 hne
            refine Or.inr (Or.inr ⟨token, column, column + text.dropLast.length, more,
              column + text.length, fun htoken => hresult (by rw [htoken]), hmore, by omega,
              by omega, fun n rest => ?_⟩)
            have hdrop : (c :: (line ++ '\n' :: rest)).drop text.length = more ++ '\n' :: rest := by
              rw [← List.cons_append, hsplit, List.append_assoc, List.drop_left]
            rw [next?_of_ok hblank (hread rest), hdrop,
              Position.advance_of_not_mem _ htext, Span.cover, Position.advance_of_not_mem _ hinit]

end Steps

section Runs

/-- A run on a line is the same on every line and whatever follows: it stops with an
error, or it reads the tokens of the line, its end, and goes on behind it. -/
theorem run_line
    (context : Context)
    (column : Nat)
    {line : List Char}
    (hend : '\n' ∉ line) :
    (∃ error a, ∀ n rest, (Lexer.run ⟨line ++ '\n' :: rest, ⟨n, column⟩, context⟩).error =
      some ⟨error, .point ⟨n, a⟩⟩) ∨
    ∃ ts : List (Located Token), (∀ t ∈ ts, t.value ≠ .newline) ∧
      ∀ n rest, ∃ final, Lexer.run ⟨line ++ '\n' :: rest, ⟨n, column⟩, context⟩ =
        ⟨ts.map (Located.move (.onLine n)) ++ newlineAt ⟨n, column + line.length⟩ rest ::
          (Lexer.afterLine n rest).run.tokens, (Lexer.afterLine n rest).run.error, final⟩ := by
  rcases next?_line context column hend with hstop | ⟨error, a, herror⟩ |
    ⟨token, a, b, more, column', htoken, hmore, hlt, hcolumn, hnext⟩
  · exact Or.inr ⟨[], by simp, fun n rest => ⟨_, run_of_ok (hstop n rest)⟩⟩
  · refine Or.inl ⟨error, a, fun n rest => ?_⟩
    obtain ⟨l', hl'⟩ := herror n rest
    rw [run_of_error hl']
  · rcases run_line (.after token) column' hmore with ⟨error, a', herror⟩ | ⟨ts, hts, hrun⟩
    · refine Or.inl ⟨error, a', fun n rest => ?_⟩
      rw [run_of_ok (hnext n rest)]
      exact herror n rest
    · refine Or.inr ⟨⟨token, ⟨1, a⟩, ⟨1, b⟩⟩ :: ts, ?_, fun n rest => ?_⟩
      · simpa using And.intro htoken hts
      · obtain ⟨final, hfinal⟩ := hrun n rest
        refine ⟨final, ?_⟩
        rw [run_of_ok (hnext n rest), hfinal, hcolumn]
        rfl
termination_by line.length

/-- What the lexer reads of a line by itself. -/
def lineReading (line : List Char) : Reading :=
  (Lexer.ofChars (line ++ ['\n'])).run

/-- The tokens of a line that can be read by itself, without its end. -/
def Reads (line : List Char) (ts : List (Located Token)) : Prop :=
  (∀ t ∈ ts, t.value ≠ .newline) ∧ (lineReading line).error = none ∧
    (lineReading line).tokens = ts ++ [⟨.newline, .point ⟨1, line.length + 1⟩⟩]

theorem move_onLine_onLine
    (n : Nat)
    (ts : List (Located Token)) :
    (ts.map (Located.move (.onLine 1))).map (Located.move (.onLine n)) =
      ts.map (Located.move (.onLine n)) := by
  rw [List.map_map]
  rfl

theorem run_afterLine_nil
    (n : Nat) :
    (Lexer.afterLine n []).run = ⟨[], none, .afterLine n []⟩ :=
  run_of_none rfl

/-- A line that can be read by itself is read so on every line, and the lexer goes on
behind it; the error of a line that cannot be read stops it there. -/
theorem run_line_cases
    {line : List Char}
    (hend : '\n' ∉ line) :
    (∃ e, (lineReading line).error = some e ∧
      ∀ n rest, (Lexer.run ⟨line ++ '\n' :: rest, ⟨n, 1⟩, .lineStart⟩).error =
        some (e.move (.onLine n))) ∨
    ∃ ts, Reads line ts ∧
      ∀ n rest, ∃ final, Lexer.run ⟨line ++ '\n' :: rest, ⟨n, 1⟩, .lineStart⟩ =
        ⟨ts.map (Located.move (.onLine n)) ++ newlineAt ⟨n, line.length + 1⟩ rest ::
          (Lexer.afterLine n rest).run.tokens, (Lexer.afterLine n rest).run.error, final⟩ := by
  rcases run_line .lineStart 1 hend with ⟨error, a, herror⟩ | ⟨ts, hts, hrun⟩
  · exact Or.inl ⟨_, herror 1 [], fun n rest => herror n rest⟩
  · simp only [Nat.add_comm 1] at hrun
    refine Or.inr ⟨ts.map (Located.move (.onLine 1)), ⟨by simpa [Located.move] using hts, ?_⟩, ?_⟩
    · obtain ⟨final, hfinal⟩ := hrun 1 []
      rw [run_afterLine_nil] at hfinal
      have halone : lineReading line = _ := hfinal
      rw [halone]
      exact ⟨rfl, rfl⟩
    · intro n rest
      rw [move_onLine_onLine]
      exact hrun n rest

end Runs

section Sources

/-- The tokens of some lines, the first of which has a number.  The end of an empty
line may be taken together with the line end before it. -/
inductive Spells : Nat → List (List Char) → List (Located Token) → Prop
  | done {n : Nat} : Spells n [] []
  | line {n : Nat} {line : List Char} {lines : List (List Char)} {ts tokens : List (Located Token)}
      {newline : Located Token} :
      Reads line ts → newline.value = .newline → newline.span.first = ⟨n, line.length + 1⟩ →
      Spells (n + 1) lines tokens →
      Spells n (line :: lines) (ts.map (Located.move (.onLine n)) ++ newline :: tokens)
  | merged {n : Nat} {lines : List (List Char)} {tokens : List (Located Token)} :
      Spells (n + 1) lines tokens → Spells n ([] :: lines) tokens

/-- Behind a line end, an empty line is passed over and any other line is read from
its start. -/
theorem afterLine_joinLines_cons
    (n : Nat)
    {line : List Char}
    (hend : '\n' ∉ line)
    (lines : List (List Char)) :
    (line = [] ∧
      Lexer.afterLine n (joinLines (line :: lines)) = .afterLine (n + 1) (joinLines lines)) ∨
      Lexer.afterLine n (joinLines (line :: lines)) =
        ⟨line ++ '\n' :: joinLines lines, ⟨n + 1, 1⟩, .lineStart⟩ := by
  cases line with
  | nil =>
      exact Or.inl ⟨rfl, by simp [Lexer.afterLine, joinLines, Position.after]⟩
  | cons c line =>
      have hc : c ≠ '\n' := fun hc => hend (by simp [hc])
      exact Or.inr (by simp [Lexer.afterLine, joinLines, hc])

theorem reads_nil :
    Reads [] [] := by
  have hrun : lineReading [] = _ := run_of_ok (next?_newline 1 1 .lineStart [])
  rw [Reads, hrun, run_afterLine_nil]
  exact ⟨by simp, rfl, rfl⟩

/-- Behind a line end, lines that can be read by themselves give their tokens. -/
theorem spells_afterLine
    (n : Nat)
    {lines : List (List Char)}
    (hend : ∀ line ∈ lines, '\n' ∉ line)
    (hok : ∀ line ∈ lines, (lineReading line).error = none) :
    (Lexer.afterLine n (joinLines lines)).run.error = none ∧
      Spells (n + 1) lines (Lexer.afterLine n (joinLines lines)).run.tokens := by
  induction lines generalizing n with
  | nil =>
      have hrun : (Lexer.afterLine n (joinLines [])).run = _ := run_afterLine_nil n
      rw [hrun]
      exact ⟨rfl, .done⟩
  | cons line lines ih =>
      have hline := hend line (by simp)
      obtain ⟨herror, hspells⟩ := ih (n + 1) (fun l hl => hend l (by simp [hl]))
        (fun l hl => hok l (by simp [hl]))
      rcases afterLine_joinLines_cons n hline lines with ⟨rfl, hsame⟩ | hstart
      · rw [hsame]
        exact ⟨herror, .merged hspells⟩
      · rcases run_line_cases hline with ⟨e, he, -⟩ | ⟨ts, hreads, hrun⟩
        · rw [hok line (by simp)] at he
          cases he
        · obtain ⟨final, hfinal⟩ := hrun (n + 1) (joinLines lines)
          rw [hstart, hfinal]
          exact ⟨herror, .line hreads rfl rfl hspells⟩

/-- Behind a line end, the first line that cannot be read by itself stops the lexer. -/
theorem error_afterLine
    (n : Nat)
    {before after : List (List Char)}
    {line : List Char}
    {e : Located LexError}
    (hend : ∀ l ∈ before ++ line :: after, '\n' ∉ l)
    (hok : ∀ l ∈ before, (lineReading l).error = none)
    (herror : (lineReading line).error = some e) :
    (Lexer.afterLine n (joinLines (before ++ line :: after))).run.error =
      some (e.move (.onLine (n + 1 + before.length))) := by
  induction before generalizing n with
  | nil =>
      have hline := hend line (by simp)
      rcases afterLine_joinLines_cons n hline after with ⟨rfl, -⟩ | hstart
      · rw [reads_nil.2.1] at herror
        cases herror
      · rcases run_line_cases hline with ⟨e', he', hrun⟩ | ⟨ts, hreads, -⟩
        · rw [herror] at he'
          cases he'
          rw [List.nil_append, hstart]
          exact hrun (n + 1) _
        · rw [hreads.2.1] at herror
          cases herror
  | cons first before ih =>
      have hfirst := hend first (by simp)
      have hrest := ih (n + 1) (fun l hl => hend l (List.mem_cons_of_mem _ hl))
        (fun l hl => hok l (by simp [hl]))
      have hnumber : n + 1 + (first :: before).length = n + 1 + 1 + before.length := by
        simp only [List.length_cons]
        omega
      rw [hnumber, List.cons_append]
      rcases afterLine_joinLines_cons n hfirst (before ++ line :: after) with ⟨-, hsame⟩ | hstart
      · rw [hsame]
        exact hrest
      · rcases run_line_cases hfirst with ⟨e', he', -⟩ | ⟨ts, hreads, hrun⟩
        · rw [hok first (by simp)] at he'
          cases he'
        · obtain ⟨final, hfinal⟩ := hrun (n + 1) (joinLines (before ++ line :: after))
          rw [hstart, hfinal]
          exact hrest

/-- A source starts like what stands behind a line end, except that an empty first line
has a token. -/
theorem run_ofChars_joinLines
    {lines : List (List Char)}
    (hend : ∀ line ∈ lines, '\n' ∉ line) :
    Lexer.ofChars (joinLines lines) = .afterLine 0 (joinLines lines) ∨
      ∃ others final, lines = [] :: others ∧
        Lexer.afterLine 0 (joinLines lines) = .afterLine 1 (joinLines others) ∧
        (Lexer.ofChars (joinLines lines)).run =
          ⟨newlineAt .start (joinLines others) :: (Lexer.afterLine 1 (joinLines others)).run.tokens,
            (Lexer.afterLine 1 (joinLines others)).run.error, final⟩ := by
  cases lines with
  | nil =>
      exact Or.inl rfl
  | cons line lines =>
      rcases afterLine_joinLines_cons 0 (hend line (by simp)) lines with ⟨rfl, hsame⟩ | hstart
      · exact Or.inr ⟨lines, _, rfl, hsame, run_of_ok (next?_newline 1 1 .lineStart _)⟩
      · refine Or.inl (Eq.trans ?_ hstart.symm)
        simp [Lexer.ofChars, joinLines, Position.start]

variable {s : Source}

theorem not_mem_of_mem_lines
    {line : List Char}
    (h : line ∈ s.lines) :
    '\n' ∉ line :=
  Text.not_mem_of_mem_lines _ _ h

/-- A source whose lines can be read by themselves gives their tokens. -/
theorem spells_of_lines
    (hok : ∀ line ∈ s.lines, (lineReading line).error = none) :
    ∃ tokens, s.tokens = .ok tokens ∧ Spells 1 s.lines tokens := by
  have hend : ∀ line ∈ s.lines, '\n' ∉ line := fun line => not_mem_of_mem_lines
  have hreading : s.reading = (Lexer.ofChars (joinLines s.lines)).run := rfl
  obtain ⟨herror, hspells⟩ := spells_afterLine 0 hend hok
  unfold Source.tokens
  rcases run_ofChars_joinLines hend with hsame | ⟨others, final, hlines, hsame, hrun⟩
  · rw [hreading, hsame, herror]
    exact ⟨_, rfl, hspells⟩
  · rw [hsame] at herror hspells
    rw [hreading, hrun, herror]
    refine ⟨_, rfl, ?_⟩
    obtain ⟨-, hothers⟩ := @spells_afterLine 1 others
      (fun l hl => hend l (by simp [hlines, hl])) (fun l hl => hok l (by simp [hlines, hl]))
    rw [hlines]
    exact .line reads_nil rfl rfl hothers

/-- The first line that cannot be read by itself stops the lexer. -/
theorem error_of_lines
    {before after : List (List Char)}
    {line : List Char}
    {e : Located LexError}
    (hlines : s.lines = before ++ line :: after)
    (hok : ∀ l ∈ before, (lineReading l).error = none)
    (herror : (lineReading line).error = some e) :
    s.tokens = .error (e.move (.onLine (before.length + 1))) := by
  have hend : ∀ l ∈ s.lines, '\n' ∉ l := fun l => not_mem_of_mem_lines
  have hafter := error_afterLine 0 (hlines ▸ hend) hok herror
  rw [← hlines, Nat.zero_add, Nat.add_comm 1] at hafter
  have hreading : s.reading = (Lexer.ofChars (joinLines s.lines)).run := rfl
  unfold Source.tokens
  rcases run_ofChars_joinLines hend with hsame | ⟨others, final, -, hsame, hrun⟩
  · rw [hreading, hsame, hafter]
  · rw [hsame] at hafter
    rw [hreading, hrun, hafter]

/-- The source of a single line of another. -/
def Source.alone (s : Source) (line : List Char) : Source :=
  ⟨s.name, String.ofList line⟩

theorem chars_alone
    {line : List Char}
    (hend : '\n' ∉ line) :
    (s.alone line).chars = if line = [] then [] else line ++ ['\n'] := by
  have hlines : (s.alone line).lines = if line = [] then [] else [line] := by
    rw [Source.lines, Source.alone, String.toList_ofList, Text.lines_of_not_mem hend]
  have hchars : (s.alone line).chars = joinLines (s.alone line).lines := rfl
  rw [hchars, hlines]
  split
  · rfl
  · simp [joinLines]

/-- A line by itself is a source with the tokens of the line and its end, but an empty
line is an empty source. -/
theorem tokens_alone
    {line : List Char}
    (hend : '\n' ∉ line) :
    (s.alone line).tokens =
      match (lineReading line).error with
      | some e => .error e
      | none => .ok (if line = [] then [] else (lineReading line).tokens) := by
  have hreading : (s.alone line).reading = (Lexer.ofChars (s.alone line).chars).run := rfl
  unfold Source.tokens
  rw [hreading, chars_alone hend]
  by_cases hline : line = []
  · subst hline
    rw [reads_nil.2.1, if_pos rfl]
    have hrun : (Lexer.ofChars []).run = ⟨[], none, .ofChars []⟩ := run_of_none rfl
    rw [hrun]
    rfl
  · rw [if_neg hline]
    have hrun : (Lexer.ofChars (line ++ ['\n'])).run = lineReading line := rfl
    rw [hrun]
    cases (lineReading line).error with
    | none => simp [hline]
    | some e => rfl

end Sources

section Returns

theorem eq_nil_of_read?
    {context : Context}
    {cs : List Char}
    (h : context.read? cs = none) :
    cs = [] := by
  unfold Context.read? at h
  split at h
  case h_1 => rfl
  case h_10 => split at h <;> cases h
  all_goals cases h

/-- The characters of a token are the first ones, and none of them is a carriage return. -/
theorem isPrefix_of_read?
    {context : Context}
    {cs text : List Char}
    {token : Token}
    (h : context.read? cs = some (text, .ok token)) :
    text <+: cs ∧ '\r' ∉ text := by
  unfold Context.read? at h
  split at h
  case h_1 =>
      cases h
  case h_9 cs =>
      cases h
      refine ⟨List.cons_prefix_cons.2 ⟨rfl, List.takeWhile_prefix _⟩, ?_⟩
      rw [List.mem_cons, not_or]
      exact ⟨by decide, fun hmem => absurd (List.mem_takeWhile_imp hmem) (by decide)⟩
  case h_10 c cs _ _ _ _ _ _ _ _ =>
      split at h
      · next hc =>
          obtain ⟨rfl, -⟩ := Prod.mk.inj (Option.some.inj h)
          refine ⟨List.cons_prefix_cons.2 ⟨rfl, List.takeWhile_prefix _⟩, ?_⟩
          rw [List.mem_cons, not_or]
          refine ⟨?_, fun hmem => absurd (List.mem_takeWhile_imp hmem) (by decide)⟩
          rintro rfl
          cases hc
      · cases h
  all_goals
      cases h
      exact ⟨⟨_, rfl⟩, by decide⟩

/-- A carriage return is no blank. -/
theorem return_mem_dropWhile
    {cs : List Char}
    (h : '\r' ∈ cs) :
    '\r' ∈ cs.dropWhile isBlank := by
  rw [← List.takeWhile_append_dropWhile (p := isBlank) (l := cs)] at h
  rcases List.mem_append.1 h with h | h
  · exact absurd (List.mem_takeWhile_imp h) (by decide)
  · exact h

/-- A lexer that meets no error meets no carriage return. -/
theorem not_mem_return_of_run
    {l : Lexer}
    (h : l.run.error = none) :
    '\r' ∉ l.rest := by
  intro hmem
  replace hmem := return_mem_dropWhile hmem
  fun_induction Lexer.run l with
  | case1 l hnext =>
      simp only [Lexer.next?] at hnext
      split at hnext
      · next hread =>
          rw [eq_nil_of_read? hread] at hmem
          cases hmem
      · cases hnext
      · cases hnext
  | case2 l error l' hnext =>
      cases h
  | case3 l token l' hnext reading ih =>
      simp only [Lexer.next?] at hnext
      split at hnext
      · cases hnext
      · next text value hread =>
          cases hnext
          obtain ⟨⟨more, hmore⟩, htext⟩ := isPrefix_of_read? hread
          rw [← hmore, List.mem_append] at hmem
          refine ih h (return_mem_dropWhile ?_)
          rw [← hmore, List.drop_left]
          exact hmem.resolve_left htext
      · cases hnext

/-- A text that can be read does not end in a carriage return. -/
theorem getLast?_ne_return
    {s : Source}
    {tokens : List (Located Token)}
    (h : s.tokens = .ok tokens) :
    s.text.toList.getLast? ≠ some '\r' := by
  intro hlast
  obtain ⟨line, hline, hmem⟩ := Text.exists_mem_lines_of_getLast? hlast (by decide)
  refine not_mem_return_of_run (tokens_eq_ok_iff.1 h).1 ?_
  show '\r' ∈ joinLines s.lines
  exact List.mem_flatMap.2 ⟨line, hline, List.mem_append_left _ hmem⟩

end Returns

end Microcode
