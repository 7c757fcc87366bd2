import Microcode.Proofs.Source.Columns
import Microcode.Proofs.Token.Layout

/-!
# Spans lie inside the text

**Input.**  A source, and the tokens or the error that its lexer yields.

**Algorithm.**  A character that is read stands on a line of the text or ends it, so
its column is at most one more than the length of the line.  The span of a token goes
from its first to its last character, and a token other than a line end has no line
feed among them.

**Results.**
* `Source.holds_of_chars`: the place of every character that is read is in the text.
* `Placed.pairwise` and `Placed.line_eq`: tokens are in the order of their places, and
  those before the next line end stand on one line.
* `within_of_mem_tokens`, `shows_of_mem_tokens` and `shows_of_lex_error`: tokens and
  lexical errors lie inside the text, and on one line unless the token is a line end.
* `fits_of_reading`: their spans fit in 32 bits if the lines and columns of the text stay
  below the bound.
-/

namespace Microcode

/-- A place on a line of a source, or right behind its last character. -/
structure Source.Holds (s : Source) (p : Position) : Prop where
  line_pos : 1 ≤ p.line
  line_le : p.line ≤ s.lines.length
  column_pos : 1 ≤ p.column
  column_le : p.column ≤ (s.line p.line).length + 1

/-- A span that starts and ends in a source, in this order. -/
structure Source.Within (s : Source) (span : Span) : Prop where
  first_le_last : span.first ≤ span.last
  first : s.Holds span.first
  last : s.Holds span.last

/-- A span on one line of a source. -/
structure Source.Shows (s : Source) (span : Span) : Prop extends s.Within span where
  line_eq : span.first.line = span.last.line

/-- The place of every character that is read is in the text. -/
theorem Source.holds_of_chars
    {s : Source}
    {before after : List Char}
    {c : Char}
    (h : s.chars = before ++ c :: after) :
    s.Holds (Position.start.advance before) := by
  obtain ⟨above, line, below, left, right, hlines, -, hline, -, hplace⟩ :=
    Source.exists_line_of_chars h
  have hlength : line.length + 1 = left.length + (right.length + 1) := by
    simpa using congrArg List.length hline
  rw [hplace]
  refine ⟨Nat.le_add_left _ _, ?_, Nat.le_add_left _ _, ?_⟩
  · rw [hlines, List.length_append, List.length_cons]
    simp only
    omega
  · simp only [Source.line_of_lines hlines, String.length_ofList]
    omega

section Tokens

variable {p : Position} {cs : List Char} {ts : List (Located Token)} {t : Located Token}

/-- Only the text of a line end holds a line feed. -/
theorem not_mem_of_ofText?
    {text : List Char}
    {token : Token}
    (h : Lexeme.ofText? text = some token.lexeme)
    (htoken : token ≠ .newline) :
    '\n' ∉ text := by
  intro hmem
  rcases (ofText?_eq_some_iff _ _).1 h with
    ⟨c, rfl, hc⟩ | ⟨rfl, -⟩ | ⟨rfl, -⟩ | ⟨-, -, hl⟩ | ⟨-, hall, -⟩
  · rw [← List.mem_singleton.1 hmem] at hc
    cases hc
  · exact absurd hmem (by decide)
  · exact absurd hmem (by decide)
  · exact htoken (by cases token <;> first | rfl | cases hl)
  · exact absurd (hall _ hmem) (by decide)

/-- Tokens that stand behind others are placed in the characters that are left. -/
theorem Placed.exists_rest
    {before : List (Located Token)}
    (h : Placed p cs (before ++ ts)) :
    ∃ front rest, cs = front ++ rest ∧ Placed (p.advance front) rest ts := by
  generalize hall : before ++ ts = all at h
  induction h generalizing before with
  | done =>
      obtain ⟨rfl, rfl⟩ := List.append_eq_nil_iff.1 hall
      exact ⟨[], [], rfl, .done⟩
  | @blank p c cs all hb h ih =>
      obtain ⟨front, rest, rfl, hrest⟩ := ih hall
      exact ⟨c :: front, rest, rfl, hrest⟩
  | @token p t text cs all hl hmax h ih =>
      cases before with
      | nil =>
          rw [List.nil_append] at hall
          subst hall
          exact ⟨[], _, rfl, .token hl hmax h⟩
      | cons u before =>
          obtain ⟨-, hall⟩ := List.cons.inj hall
          obtain ⟨front, rest, rfl, hrest⟩ := ih hall
          refine ⟨text ++ front, rest, (List.append_assoc _ _ _).symm, ?_⟩
          rwa [Position.advance_append]

/-- A token spans its text, which stands among the characters and is joined to none
of them. -/
theorem Placed.exists_cover
    (h : Placed p cs ts)
    (ht : t ∈ ts) :
    ∃ before text after, cs = before ++ text ++ after ∧ Apart before text ∧ Apart text after ∧
      Lexeme.ofText? text = some t.value.lexeme ∧ t.span = .cover (p.advance before) text := by
  induction h with
  | done =>
      cases ht
  | @blank p c cs ts hb h ih =>
      obtain ⟨before, text, after, rfl, hbefore, hafter, htext, hspan⟩ := ih ht
      have hfront : Apart ([c] ++ before) text := .append_left (fun _ => .of_blank hb _) hbefore
      exact ⟨c :: before, text, after, rfl, hfront, hafter, htext, hspan⟩
  | @token p token text cs ts hl hmax h ih =>
      have hapart := apart_of_noneLonger hl hmax
      rcases List.mem_cons.1 ht with rfl | ht
      · exact ⟨[], text, cs, rfl, .nil_left _, hapart, hl, rfl⟩
      · obtain ⟨before, text', after, rfl, hbefore, hafter, htext, hspan⟩ := ih ht
        refine ⟨text ++ before, text', after, by simp only [List.append_assoc],
          .append_left (fun hnil => ?_) hbefore, hafter, htext, ?_⟩
        · subst hnil
          exact hapart.of_append_right
        · rw [Position.advance_append]
          exact hspan

/-- Tokens are in the order of their places, and no two of them overlap. -/
theorem Placed.pairwise
    (h : Placed p cs ts) :
    ts.Pairwise fun t u => t.span.last < u.span.first := by
  induction h with
  | done => exact .nil
  | blank hb h ih => exact ih
  | @token p t text cs ts hl hmax h ih =>
      refine .cons (fun u hu => ?_) ih
      obtain ⟨c, rest, rfl, -⟩ := exists_cons_of_ofText? hl
      exact lt_of_lt_of_le (Span.cover_last_lt p (List.cons_ne_nil c rest)) (h.le_first hu)

theorem line_advance
    (p : Position)
    {cs : List Char}
    (h : '\n' ∉ cs) :
    (p.advance cs).line = p.line := by
  rw [Position.advance_of_not_mem p h]

/-- Tokens before the next line end stand on one line. -/
theorem Placed.line_eq
    {rest : List (Located Token)}
    (h : Placed p cs (ts ++ rest))
    (hts : ∀ t ∈ ts, t.value ≠ .newline)
    (ht : t ∈ ts) :
    t.span.first.line = p.line ∧ t.span.last.line = p.line := by
  generalize hall : ts ++ rest = all at h
  induction h generalizing ts with
  | done =>
      rw [(List.append_eq_nil_iff.1 hall).1] at ht
      cases ht
  | @blank p c cs all hb h ih =>
      have hline : (p.after c).line = p.line := by
        rcases hb with rfl | rfl <;> rfl
      rw [← hline]
      exact ih hts ht hall
  | @token p token text cs all hl hmax h ih =>
      cases ts with
      | nil =>
          cases ht
      | cons u ts =>
          obtain ⟨rfl, hmore⟩ := List.cons.inj hall
          have hnewline : '\n' ∉ text := not_mem_of_ofText? hl (hts _ (List.mem_cons_self ..))
          rcases List.mem_cons.1 ht with rfl | ht
          · exact ⟨rfl, line_advance p fun hmem => hnewline (List.dropLast_subset _ hmem)⟩
          · rw [← line_advance p hnewline]
            exact ih (fun x hx => hts x (List.mem_cons_of_mem _ hx)) ht hmore

end Tokens

section Sources

variable {s : Source} {ts : List (Located Token)} {t : Located Token}

/-- A text among the characters lies inside the source. -/
theorem Source.within_cover
    {before text after : List Char}
    (h : s.chars = before ++ text ++ after)
    (hne : text ≠ []) :
    s.Within (.cover (Position.start.advance before) text) := by
  refine ⟨Position.le_advance _ _, ?_, ?_⟩
  · cases text with
    | nil => exact absurd rfl hne
    | cons c text =>
        rw [List.append_assoc] at h
        exact Source.holds_of_chars h
  · rw [← List.dropLast_append_getLast hne] at h
    have hsplit : s.chars = (before ++ text.dropLast) ++ text.getLast hne :: after := by
      rw [h]
      simp only [List.append_assoc, List.singleton_append]
    show s.Holds ((Position.start.advance before).advance text.dropLast)
    rw [← Position.advance_append]
    exact Source.holds_of_chars hsplit

/-- Tokens lie inside the text, also those before an error. -/
theorem within_of_mem_reading
    (ht : t ∈ s.reading.tokens) :
    s.Within t.span := by
  obtain ⟨front, rest, hchars, -, hplaced, -⟩ := front_of_reading s
  obtain ⟨before, text, after, rfl, -, -, htext, hspan⟩ := hplaced.exists_cover ht
  obtain ⟨c, more, rfl, -⟩ := exists_cons_of_ofText? htext
  rw [List.append_assoc] at hchars
  rw [hspan]
  exact Source.within_cover hchars (List.cons_ne_nil _ _)

theorem within_of_mem_tokens
    (h : s.tokens = .ok ts)
    (ht : t ∈ ts) :
    s.Within t.span := by
  obtain ⟨-, rfl⟩ := tokens_eq_ok_iff.1 h
  exact within_of_mem_reading ht

/-- A token other than a line end lies on one line of the text. -/
theorem shows_of_mem_tokens
    (h : s.tokens = .ok ts)
    (ht : t ∈ ts)
    (hvalue : t.value ≠ .newline) :
    s.Shows t.span := by
  refine ⟨within_of_mem_tokens h ht, ?_⟩
  obtain ⟨before, text, after, -, -, -, htext, hspan⟩ := (placed_of_tokens h).exists_cover ht
  have hnewline := not_mem_of_ofText? htext hvalue
  rw [hspan]
  exact (line_advance _ fun hmem => hnewline (List.dropLast_subset _ hmem)).symm

end Sources

section Errors

/-- A lexer stops at a character. -/
theorem exists_cons_of_stops
    {error : LexError}
    {cs : List Char}
    (h : Stops error cs) :
    ∃ c rest, cs = c :: rest := by
  cases h with
  | char => exact ⟨_, _, rfl⟩
  | word _ hne => exact List.exists_cons_of_ne_nil (List.append_ne_nil_of_left_ne_nil hne _)

theorem tokens_eq_error_iff
    {s : Source}
    {e : Located LexError} :
    s.tokens = .error e ↔ s.reading.error = some e := by
  unfold Source.tokens
  cases s.reading.error <;> simp

/-- A lexical error is at one place inside the text. -/
theorem shows_of_lex_error
    {s : Source}
    {e : Located LexError}
    (h : s.tokens = .error e) :
    s.Shows e.span := by
  obtain ⟨front, rest, hchars, -, -, hhalts⟩ := front_of_reading s
  rw [tokens_eq_error_iff.1 h] at hhalts
  cases hhalts with
  | error hstops =>
      obtain ⟨c, after, rfl⟩ := exists_cons_of_stops hstops
      have hholds := Source.holds_of_chars hchars
      exact ⟨⟨le_refl _, hholds, hholds⟩, rfl⟩

end Errors

section Bounds

/-- A place whose counters fit in 32 bits. -/
def Position.Fits (p : Position) : Prop :=
  p.line < 2 ^ 32 ∧ p.column < 2 ^ 32

variable {s : Source}

/-- The places in a text with fewer than `2 ^ 32 - 1` lines and columns fit in 32 bits. -/
theorem Source.Holds.fits
    {p : Position}
    (h : s.Holds p)
    (hlines : s.lines.length < 2 ^ 32 - 1)
    (hcolumns : ∀ line ∈ s.lines, line.length < 2 ^ 32 - 1) :
    p.Fits := by
  obtain ⟨line, column⟩ := p
  obtain ⟨hpos, hline, -, hcolumn⟩ := h
  simp only at hpos hline hcolumn
  obtain ⟨n, rfl⟩ := Nat.exists_eq_add_of_le' hpos
  have hfound : s.line (n + 1) = String.ofList s.lines[n] := by
    rw [Source.line, Text.lineAt, List.getElem?_eq_getElem hline, Option.getD_some]
  have hwidth := hcolumns _ (List.getElem_mem hline)
  rw [hfound, String.length_ofList] at hcolumn
  constructor
  · show n + 1 < 2 ^ 32
    omega
  · show column < 2 ^ 32
    omega

theorem Source.Within.fits
    {span : Span}
    (h : s.Within span)
    (hlines : s.lines.length < 2 ^ 32 - 1)
    (hcolumns : ∀ line ∈ s.lines, line.length < 2 ^ 32 - 1) :
    span.first.Fits ∧ span.last.Fits :=
  ⟨h.first.fits hlines hcolumns, h.last.fits hlines hcolumns⟩

/-- The spans of all tokens that are read, and of the error that stops the lexer, fit in
32 bits if the lines and columns of the text stay below the bound. -/
theorem fits_of_reading
    (hlines : s.lines.length < 2 ^ 32 - 1)
    (hcolumns : ∀ line ∈ s.lines, line.length < 2 ^ 32 - 1) :
    (∀ t ∈ s.reading.tokens, t.span.first.Fits ∧ t.span.last.Fits) ∧
      ∀ e, s.reading.error = some e → e.span.first.Fits ∧ e.span.last.Fits := by
  refine ⟨fun t ht => ?_, fun e he => ?_⟩
  · exact (within_of_mem_reading ht).fits hlines hcolumns
  · have hshows := shows_of_lex_error (tokens_eq_error_iff.2 he)
    exact hshows.toWithin.fits hlines hcolumns

end Bounds

end Microcode
