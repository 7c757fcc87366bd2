import Microcode.Proofs.Token.Spans

/-!
# Spans are exact

**Input.**  A source, and all that its lexer yields: tokens, and perhaps the error that
stops it.

**Algorithm.**  The characters that are read fall into texts of tokens and blanks, up
to the character or word of an error.  Counting finds the text of a token again in the
columns of one line, or in line ends behind each other.

**Results.**
* `Reading.exists_cover`: a token spans its text, also if an error follows.
* `Source.showsText_cover` and `Source.endsLines_cover`: how texts appear on the lines.
* `Placed.blank_or_covered`: a character outside all tokens is a blank.
* `Source.offends_of_stops`: an error stands at its character or at its whole word.
* `spans_exact`: tokens, blanks and errors of a source stand where their spans say.
-/

namespace Microcode

/-- A span whose columns, on one line of a source, hold a text. -/
structure Source.ShowsText (s : Source) (span : Span) (text : String) : Prop
    extends s.Shows span where
  last_le : span.last.column ≤ (s.line span.first.line).length
  columns_eq : Text.columns (s.line span.first.line).toList span.first.column span.last.column =
    text.toList

/-- A span from the end of a line to the end of the last empty line below it. -/
structure Source.EndsLines (s : Source) (span : Span) : Prop extends s.Within span where
  first_eq : span.first.column = (s.line span.first.line).length + 1
  last_eq : span.last.column = (s.line span.last.line).length + 1
  between : ∀ n, span.first.line < n → n ≤ span.last.line → s.line n = ""
  above : span.first.line = 1 ∨ s.line span.first.line ≠ ""
  below : span.last.line = s.lines.length ∨ s.line (span.last.line + 1) ≠ ""

/-- A word that stands at a place of a source, with no other character of words next
to it. -/
structure Source.WordAt (s : Source) (p : Position) (word : String) (left right : List Char) :
    Prop where
  line_eq : (s.line p.line).toList = left ++ word.toList ++ right
  column_eq : p.column = left.length + 1
  ne_empty : word ≠ ""
  word_chars : ∀ c ∈ word.toList, isTermChar c = true
  left_apart : ∀ c, left.getLast? = some c → isTermChar c = false
  right_apart : ∀ c, right.head? = some c → isTermChar c = false

/-- What an error says about the place where it is reported: the character there starts
no lexeme, or the word there is not what it should be. -/
def Source.Offends (s : Source) (p : Position) : LexError → Prop
  | .badChar c =>
      s.ShowsText (.point p) (String.singleton c) ∧ ¬ (c = ' ' ∨ c = '\t') ∧
        Lexeme.ofText? [c] = none
  | .expectedRegisterOrLabel word => ∃ left right, s.WordAt p word left right
  | .expectedRegister word => ∃ left right, s.WordAt p word left right
  | .badLabel word => ∃ left right, s.WordAt p word left right

/-- A place inside a span. -/
def Span.Contains (span : Span) (p : Position) : Prop :=
  span.first ≤ p ∧ p ≤ span.last

section Texts

variable {s : Source} {before text after : List Char}

/-- A token other than a line end is spelled by its text. -/
theorem eq_text_of_ofText?
    {t : Token}
    (h : Lexeme.ofText? text = some t.lexeme)
    (ht : t ≠ .newline) :
    text = t.text.toList := by
  rcases (ofText?_eq_some_iff _ _).1 h with
    ⟨c, rfl, hc⟩ | ⟨rfl, hl⟩ | ⟨rfl, hl⟩ | ⟨-, -, hl⟩ | ⟨-, -, hl⟩
  · unfold Lexeme.ofSymbol? at hc
    split at hc <;> cases t <;> first | rfl | cases hc
  · cases t <;> first | rfl | cases hl
  · cases t <;> first | rfl | cases hl
  · cases t <;> first | exact absurd rfl ht | cases hl
  · have hword : t.lexeme = .word t.text := by
      cases t <;> first | rfl | cases hl
    rw [hword] at hl
    rw [Lexeme.word.inj hl, String.toList_ofList]

/-- A line end is spelled by line feeds. -/
theorem eq_replicate_of_newlines
    (h : Lexeme.ofText? text = some .newlines) :
    ∃ k, text = List.replicate (k + 1) '\n' := by
  rcases (ofText?_eq_some_iff _ _).1 h with
    ⟨c, rfl, hc⟩ | ⟨-, hl⟩ | ⟨-, hl⟩ | ⟨hne, hall, -⟩ | ⟨-, -, hl⟩
  · unfold Lexeme.ofSymbol? at hc
    split at hc <;> cases hc
  · cases hl
  · cases hl
  · obtain ⟨c, rest, rfl⟩ := List.exists_cons_of_ne_nil hne
    exact ⟨rest.length, List.eq_replicate_iff.2 ⟨rfl, hall⟩⟩
  · cases hl

/-- A text that ends no line is shown by its columns. -/
theorem Source.showsText_cover
    (h : s.chars = before ++ text ++ after)
    (hne : text ≠ [])
    (htext : '\n' ∉ text) :
    s.ShowsText (.cover (Position.start.advance before) text) (String.ofList text) := by
  obtain ⟨above, left, more, below, hlines, -, -, hplace⟩ := Source.exists_columns h hne htext
  have hinit : '\n' ∉ text.dropLast := fun hmem => htext (List.dropLast_subset _ hmem)
  have hpos := List.length_pos_iff.2 hne
  have hspan : Span.cover (Position.start.advance before) text =
      ⟨⟨above.length + 1, left.length + 1⟩, ⟨above.length + 1, left.length + text.length⟩⟩ := by
    rw [Span.cover, hplace, Position.advance_of_not_mem _ hinit, List.length_dropLast]
    simp only [Span.mk.injEq, Position.mk.injEq, true_and]
    omega
  have hline := Source.line_of_lines hlines
  have hwithin := Source.within_cover h hne
  rw [hspan] at hwithin ⊢
  refine ⟨⟨hwithin, rfl⟩, ?_, ?_⟩
  · simp only [hline, String.length_ofList, List.length_append]
    omega
  · have hlength : left.length + text.length + 1 - (left.length + 1) = text.length := by
      omega
    simp only [hline, String.toList_ofList, Text.columns, Nat.add_sub_cancel, List.append_assoc,
      List.drop_left, hlength, List.take_left]

/-- Line feeds lead to the start of a line below. -/
theorem advance_replicate_newline
    (p : Position)
    (k : Nat) :
    p.advance (List.replicate (k + 1) '\n') = ⟨p.line + (k + 1), 1⟩ := by
  induction k generalizing p with
  | zero =>
      rfl
  | succ k ih =>
      rw [List.replicate_succ, Position.advance_cons, ih, Position.after_newline]
      simp only [Position.mk.injEq, and_true]
      omega

section EmptyLines

variable {above below : List (List Char)} {line : List Char} {k : Nat}

theorem line_of_empty_lines
    (h : s.lines = above ++ line :: (List.replicate k [] ++ below))
    {n : Nat}
    (hlt : above.length + 1 < n)
    (hle : n ≤ above.length + 1 + k) :
    s.line n = "" := by
  obtain ⟨i, rfl⟩ : ∃ i, n = above.length + 1 + i + 1 := ⟨n - (above.length + 2), by omega⟩
  have hi : i < k := by
    omega
  have hget : s.lines[above.length + 1 + i]? = some [] := by
    rw [h, List.getElem?_append_right (by omega)]
    have hindex : above.length + 1 + i - above.length = i + 1 := by
      omega
    rw [hindex, List.getElem?_cons_succ, List.getElem?_append_left (by simpa using hi),
      List.getElem?_replicate_of_lt hi]
  rw [Source.line, Text.lineAt, hget]
  rfl

/-- Line feeds from the end of a line on end at the last of the empty lines below. -/
theorem cover_of_empty_lines
    (h : s.lines = above ++ line :: (List.replicate k [] ++ below)) :
    Span.cover ⟨above.length + 1, line.length + 1⟩ (List.replicate (k + 1) '\n') =
      ⟨⟨above.length + 1, line.length + 1⟩,
        ⟨above.length + 1 + k, (s.line (above.length + 1 + k)).length + 1⟩⟩ := by
  rw [Span.cover, List.dropLast_replicate, Nat.add_sub_cancel]
  cases k with
  | zero =>
      rw [Nat.add_zero, Source.line_of_lines h, String.length_ofList]
      rfl
  | succ k =>
      rw [advance_replicate_newline, line_of_empty_lines h (by omega) (Nat.le_refl _)]
      rfl

end EmptyLines

/-- Line feeds behind each other go from the end of a line to the end of the last empty
line below it. -/
theorem Source.endsLines_cover
    {k : Nat}
    (h : s.chars = before ++ List.replicate (k + 1) '\n' ++ after)
    (hbefore : Apart before (List.replicate (k + 1) '\n'))
    (hafter : Apart (List.replicate (k + 1) '\n') after) :
    s.EndsLines (.cover (Position.start.advance before) (List.replicate (k + 1) '\n')) := by
  have hwithin := Source.within_cover h (by simp)
  have hchars : s.chars = before ++ '\n' :: (List.replicate k '\n' ++ after) := by
    rw [h, List.replicate_succ]
    simp
  obtain ⟨above, line, below, left, right, hlines, rfl, hline, hrest, hplace⟩ :=
    Source.exists_line_of_chars hchars
  obtain ⟨-, hnot, hnots⟩ := Source.newline_not_mem hlines
  obtain ⟨rfl, rfl⟩ := eq_line_of_newline hnot hline
  obtain ⟨rest, rfl, rfl⟩ := exists_empty_lines hnots hrest
  rw [hplace, cover_of_empty_lines hlines] at hwithin ⊢
  refine ⟨hwithin, ?_, rfl, fun n => line_of_empty_lines hlines, ?_, ?_⟩
  · rw [Source.line_of_lines hlines, String.length_ofList]
  · -- An empty line behind another one would have its end joined to the end of that one.
    rcases List.eq_nil_or_concat' above with rfl | ⟨above, last, rfl⟩
    · exact Or.inl rfl
    · right
      rw [Source.line_of_lines hlines]
      intro hempty
      obtain rfl : left = [] := by simpa using congrArg String.toList hempty
      refine hbefore '\n' '\n' ?_ rfl (Or.inr (Or.inl ⟨rfl, rfl⟩))
      rw [joinLines_append, joinLines_cons]
      simp
  · cases rest with
    | nil =>
        left
        rw [hlines]
        simp only [List.length_append, List.length_cons, List.length_replicate, List.length_nil]
        omega
    | cons next rest =>
        right
        have hnext : s.lines = (above ++ left :: List.replicate k []) ++ next :: rest := by
          rw [hlines]
          simp
        have hline := Source.line_of_lines hnext
        rw [List.length_append, List.length_cons, List.length_replicate] at hline
        have hnumber : above.length + 1 + k + 1 = above.length + (k + 1) + 1 := by
          omega
        rw [hnumber, hline]
        intro hempty
        obtain rfl : next = [] := by simpa using congrArg String.toList hempty
        refine hafter '\n' '\n' ?_ rfl (Or.inr (Or.inl ⟨rfl, rfl⟩))
        rw [List.getLast?_replicate, if_neg (Nat.succ_ne_zero k)]

end Texts

section Readings

variable {s : Source} {t : Located Token} {cs front rest before after : List Char}
variable {ts : List (Located Token)} {p : Position}

/-- Tokens end before the place behind their characters. -/
theorem Placed.last_lt
    (h : Placed p cs ts)
    (ht : t ∈ ts) :
    t.span.last < p.advance cs := by
  induction h with
  | done =>
      cases ht
  | blank hb h ih =>
      exact ih ht
  | @token p token text cs ts hl hmax h ih =>
      rw [Position.advance_append]
      rcases List.mem_cons.1 ht with rfl | ht
      · obtain ⟨c, tail, rfl, -⟩ := exists_cons_of_ofText? hl
        exact lt_of_lt_of_le (Span.cover_last_lt p (List.cons_ne_nil c tail))
          (Position.le_advance _ cs)
      · exact ih ht

/-- A character of a text stands inside the span of the text. -/
theorem Span.contains_cover
    (p : Position)
    (before after : List Char)
    (c : Char) :
    (Span.cover p (before ++ c :: after)).Contains (p.advance before) := by
  refine ⟨p.le_advance before, ?_⟩
  rw [Span.cover, List.dropLast_append_of_ne_nil (List.cons_ne_nil c after),
    Position.advance_append]
  exact Position.le_advance _ _

/-- A character is a blank or stands inside the span of a token. -/
theorem Placed.blank_or_covered
    {c : Char}
    (h : Placed p cs ts)
    (hcs : cs = before ++ c :: after) :
    (c = ' ' ∨ c = '\t') ∨ ∃ t ∈ ts, t.span.Contains (p.advance before) := by
  induction h generalizing before with
  | done =>
      simp at hcs
  | @blank p d cs ts hb h ih =>
      cases before with
      | nil =>
          obtain ⟨rfl, -⟩ := List.cons.inj hcs
          exact Or.inl hb
      | cons x before =>
          obtain ⟨rfl, hmore⟩ := List.cons.inj hcs
          exact ih hmore
  | @token p token text cs ts hl hmax h ih =>
      rcases append_eq_append_cons hcs with ⟨more, rfl, -⟩ | ⟨more, rfl, hmore⟩
      · exact Or.inr ⟨_, List.mem_cons_self .., Span.contains_cover p before more c⟩
      · rw [Position.advance_append]
        exact (ih hmore).imp_right fun ⟨t, ht, hspan⟩ => ⟨t, List.mem_cons_of_mem _ ht, hspan⟩

/-- A token that the lexer yields spans its text, which is joined to no character of
the source, also if an error follows. -/
theorem Reading.exists_cover
    (ht : t ∈ s.reading.tokens) :
    ∃ before text after, s.chars = before ++ text ++ after ∧ Apart before text ∧
      Apart text after ∧ Lexeme.ofText? text = some t.value.lexeme ∧
      t.span = .cover (Position.start.advance before) text := by
  obtain ⟨front, rest, hchars, hfront, hplaced, -⟩ := front_of_reading s
  obtain ⟨before, text, after, rfl, hbefore, hafter, htext, hspan⟩ := hplaced.exists_cover ht
  refine ⟨before, text, after ++ rest, by rw [hchars, List.append_assoc], hbefore,
    .append_right hafter fun hnil => ?_, htext, hspan⟩
  subst hnil
  rw [List.append_nil] at hfront
  exact hfront.of_append_left

/-- A word that an error is about stands where the reading stops. -/
theorem Source.wordAt_of_apart
    {text : List Char}
    (h : s.chars = front ++ text ++ rest)
    (hne : text ≠ [])
    (hall : ∀ c ∈ text, isTermChar c = true)
    (hfront : Apart front text)
    (hrest : Apart text rest) :
    ∃ left right, s.WordAt (Position.start.advance front) (String.ofList text) left right := by
  have hnewline : '\n' ∉ text := fun hmem => absurd (hall _ hmem) (by decide)
  obtain ⟨above, left, more, below, hlines, rfl, rfl, hplace⟩ :=
    Source.exists_columns h hne hnewline
  obtain ⟨first, tail, htext⟩ := List.exists_cons_of_ne_nil hne
  have hfirst : text.head? = some first := by
    rw [htext]
    rfl
  have hlast := List.getLast?_eq_some_getLast hne
  refine ⟨left, more, ?_, by rw [hplace], ?_, ?_, ?_, ?_⟩
  · rw [hplace, Source.line_of_lines hlines, String.toList_ofList, String.toList_ofList]
  · intro hempty
    exact hne (by simpa using congrArg String.toList hempty)
  · rwa [String.toList_ofList]
  · intro c hc
    rw [← Bool.not_eq_true]
    intro hterm
    exact hfront.of_append_left c first hc hfirst
      (Or.inr (Or.inr ⟨hterm, hall _ (List.mem_of_head? hfirst)⟩))
  · intro c hc
    rw [← Bool.not_eq_true]
    intro hterm
    exact hrest.of_append_right _ c hlast hc
      (Or.inr (Or.inr ⟨hall _ (List.getLast_mem hne), hterm⟩))

/-- An error is reported at its bad character or at the first character of its word. -/
theorem Source.offends_of_stops
    {error : LexError}
    (h : s.chars = front ++ rest)
    (hfront : Apart front rest)
    (hstops : Stops error rest) :
    s.Offends (Position.start.advance front) error := by
  cases hstops with
  | @char c cs hb hnone =>
      have hchars : s.chars = front ++ [c] ++ cs := by
        rw [h, List.append_assoc, List.singleton_append]
      have hc : '\n' ∉ [c] := by
        intro hmem
        rw [← List.mem_singleton.1 hmem] at hnone
        cases hnone
      exact ⟨Source.showsText_cover hchars (List.cons_ne_nil _ _) hc, hb, hnone⟩
  | @word error text cs hword hne hall hcs =>
      have hchars : s.chars = front ++ text ++ cs := by
        rw [h, List.append_assoc]
      have hat := Source.wordAt_of_apart hchars hne hall hfront.of_append_right hcs
      cases error with
      | badChar c => cases hword
      | _ =>
          cases hword
          exact hat

end Readings

section Sources

/-- **Spans are exact.**  Tokens, also those before an error, come in the order of
their places and do not overlap.  A token other than a line end spans exactly the
columns of its text on one line, and a line end goes from the end of a line to the end
of the last empty line below it.  If there is no error, all characters outside the
tokens are blanks.  An error is at its bad character, or at the first character of its
word, behind all tokens. -/
theorem spans_exact
    (s : Source) :
    (s.reading.tokens.Pairwise fun t u => t.span.last < u.span.first) ∧
    (∀ t ∈ s.reading.tokens, t.span.first ≤ t.span.last ∧
      if t.value = .newline then s.EndsLines t.span else s.ShowsText t.span t.value.text) ∧
    (s.reading.error = none →
      ∀ n cs k c, s.lines[n]? = some cs → cs[k]? = some c →
        (∀ t ∈ s.reading.tokens, ¬ t.span.Contains ⟨n + 1, k + 1⟩) → c = ' ' ∨ c = '\t') ∧
    (∀ e, s.reading.error = some e →
      ∃ p, e.span = .point p ∧ (∀ t ∈ s.reading.tokens, t.span.last < p) ∧
        s.Offends p e.value) := by
  obtain ⟨front, rest, hchars, hfront, hplaced, hhalts⟩ := front_of_reading s
  refine ⟨hplaced.pairwise, ?_, ?_, ?_⟩
  · intro t ht
    obtain ⟨before, text, after, htoken, hbefore, hafter, htext, hspan⟩ :=
      Reading.exists_cover ht
    rw [hspan]
    refine ⟨Position.le_advance _ _, ?_⟩
    split
    · next hvalue =>
        rw [hvalue] at htext
        obtain ⟨k, rfl⟩ := eq_replicate_of_newlines htext
        exact Source.endsLines_cover htoken hbefore hafter
    · next hvalue =>
        have hne : text ≠ [] := by
          obtain ⟨c, tail, rfl, -⟩ := exists_cons_of_ofText? htext
          exact List.cons_ne_nil c tail
        have hshows := Source.showsText_cover htoken hne (not_mem_of_ofText? htext hvalue)
        rwa [eq_text_of_ofText? htext hvalue, String.ofList_toList,
          ← eq_text_of_ofText? htext hvalue] at hshows
  · intro hnone n cs k c hcs hc hout
    rw [hnone] at hhalts
    cases hhalts
    rw [List.append_nil] at hchars
    obtain ⟨before, after, hread, hplace⟩ := Source.exists_chars_of_lines hcs hc
    rcases hplaced.blank_or_covered (hchars.symm.trans hread) with hb | ⟨t, ht, hspan⟩
    · exact hb
    · rw [hplace] at hspan
      exact absurd hspan (hout t ht)
  · intro e he
    rw [he] at hhalts
    cases hhalts with
    | error hstops =>
        exact ⟨_, rfl, fun t ht => hplaced.last_lt ht,
          Source.offends_of_stops hchars hfront hstops⟩

-- A line end of two lines, and an error on the line behind it.
example :
    (Source.mk "m" " mar:=pc ;\r\n\n $").reading.tokens =
      [⟨.register .mar, ⟨⟨1, 2⟩, ⟨1, 4⟩⟩⟩, ⟨.assign, ⟨⟨1, 5⟩, ⟨1, 6⟩⟩⟩,
        ⟨.register .pc, ⟨⟨1, 7⟩, ⟨1, 8⟩⟩⟩, ⟨.semicolon, ⟨⟨1, 10⟩, ⟨1, 10⟩⟩⟩,
        ⟨.newline, ⟨⟨1, 11⟩, ⟨2, 1⟩⟩⟩] ∧
    (Source.mk "m" " mar:=pc ;\r\n\n $").reading.error =
      some ⟨.badChar '$', .point ⟨3, 2⟩⟩ := by
  constructor <;> decide +kernel

end Sources

end Microcode
