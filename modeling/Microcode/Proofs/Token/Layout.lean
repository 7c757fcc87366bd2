import Microcode.Proofs.Source.Lines
import Microcode.Proofs.Token.Reading

/-!
# Where tokens stand

**Input.**  The characters of a source and the tokens that the lexer yields for
them.

**Relation.**  `Placed p cs ts` takes the characters `cs` from the place `p` on:
blanks are passed over, and otherwise the longest text that spells a lexeme is
the text of the next token of `ts`, which spans exactly this text.  Places are
ordered by line and then by column.  A lexeme ends where two characters in a row
do not join.

**Results.**
* `front_of_run` and `front_of_reading`: the tokens of a lexer are placed in the
  characters up to the bad character or word at which it stops.
* `placed_of_tokens`: the tokens of a source without errors are placed in all its
  characters.
* `Placed.cut`: characters are cut into the lexemes of the tokens placed in them.
* `Placed.le_first`: tokens stand where their characters do, not before.
-/

namespace Microcode

namespace Position

/-- Places are ordered by line and then by column. -/
instance : LinearOrder Position where
  le p q := p.line < q.line ∨ p.line = q.line ∧ p.column ≤ q.column
  lt p q := p.line < q.line ∨ p.line = q.line ∧ p.column < q.column
  le_refl p := Or.inr ⟨rfl, Nat.le_refl _⟩
  le_trans p q r hpq hqr := by omega
  lt_iff_le_not_ge p q := by omega
  le_antisymm p q hpq hqp := by
    obtain ⟨line, column⟩ := p
    obtain ⟨line', column'⟩ := q
    simp only [Position.mk.injEq] at *
    omega
  le_total p q := by omega
  toDecidableLE p q := inferInstanceAs (Decidable (_ ∨ _))
  toDecidableEq := inferInstance
  toDecidableLT p q := inferInstanceAs (Decidable (_ ∨ _))

theorem le_iff
    {p q : Position} :
    p ≤ q ↔ p.line < q.line ∨ p.line = q.line ∧ p.column ≤ q.column :=
  Iff.rfl

theorem lt_iff
    {p q : Position} :
    p < q ↔ p.line < q.line ∨ p.line = q.line ∧ p.column < q.column :=
  Iff.rfl

theorem lt_after
    (p : Position)
    (c : Char) :
    p < p.after c := by
  unfold after
  rw [lt_iff]
  split
  · exact Or.inl (Nat.lt_succ_self _)
  · exact Or.inr ⟨rfl, Nat.lt_succ_self _⟩

theorem le_advance
    (p : Position)
    (cs : List Char) :
    p ≤ p.advance cs := by
  induction cs generalizing p with
  | nil =>
      exact le_refl p
  | cons c cs ih =>
      exact le_trans (le_of_lt (p.lt_after c)) (ih (p.after c))

theorem lt_advance_cons
    (p : Position)
    (c : Char)
    (cs : List Char) :
    p < p.advance (c :: cs) :=
  lt_of_lt_of_le (p.lt_after c) (le_advance _ cs)

end Position

/-- A text that is not empty ends before the place behind it. -/
theorem Span.cover_last_lt
    (p : Position)
    {text : List Char}
    (hne : text ≠ []) :
    (Span.cover p text).last < p.advance text := by
  have hsplit : p.advance text = (p.advance text.dropLast).after (text.getLast hne) := by
    conv_lhs => rw [← List.dropLast_append_getLast hne]
    rw [Position.advance_append]
    rfl
  rw [hsplit]
  exact Position.lt_after _ _

/-- Characters from a place on hold tokens at their spans, with blanks between them. -/
inductive Placed : Position → List Char → List (Located Token) → Prop
  | done {p : Position} : Placed p [] []
  | blank {p : Position} {c : Char} {cs : List Char} {ts : List (Located Token)} :
      c = ' ' ∨ c = '\t' → Placed (p.after c) cs ts → Placed p (c :: cs) ts
  | token {p : Position} {t : Token} {text cs : List Char} {ts : List (Located Token)} :
      Lexeme.ofText? text = some t.lexeme → NoneLonger (text ++ cs) text.length →
      Placed (p.advance text) cs ts → Placed p (text ++ cs) (⟨t, .cover p text⟩ :: ts)

/-- Two characters in a row that belong to one lexeme. -/
def Joins (c d : Char) : Prop :=
  (c = ':' ∧ d = '=') ∨ (c = '\n' ∧ d = '\n') ∨ (isTermChar c = true ∧ isTermChar d = true)

/-- Two texts in a row between which a lexeme may end. -/
def Apart (cs ds : List Char) : Prop :=
  ∀ c d, cs.getLast? = some c → ds.head? = some d → ¬ Joins c d

/-- The word that an error is about. -/
def LexError.word? : LexError → Option String
  | badChar _ => none
  | expectedRegisterOrLabel word => some word
  | expectedRegister word => some word
  | badLabel word => some word

/-- The characters at which an error stops the reading: a character that starts no
lexeme, or a whole word. -/
inductive Stops : LexError → List Char → Prop
  | char {c : Char} {cs : List Char} :
      ¬ (c = ' ' ∨ c = '\t') → Lexeme.ofText? [c] = none → Stops (.badChar c) (c :: cs)
  | word {error : LexError} {text cs : List Char} :
      error.word? = some (String.ofList text) → text ≠ [] → (∀ c ∈ text, isTermChar c = true) →
      Apart text cs → Stops error (text ++ cs)

/-- How the reading ends at a place before some characters. -/
inductive Halts : Position → List Char → Option (Located LexError) → Prop
  | done {p : Position} : Halts p [] none
  | error {p : Position} {cs : List Char} {error : LexError} :
      Stops error cs → Halts p cs (some ⟨error, .point p⟩)

section Apart

variable {text cs ds : List Char} {c : Char}

theorem Apart.nil_left
    (cs : List Char) :
    Apart [] cs := by
  intro c d hc
  cases hc

theorem not_joins_of_blank
    (h : c = ' ' ∨ c = '\t')
    (d : Char) :
    ¬ Joins c d ∧ ¬ Joins d c := by
  rcases h with rfl | rfl <;> simp [Joins, isTermChar]

/-- A blank belongs to no lexeme. -/
theorem Apart.of_blank
    (h : c = ' ' ∨ c = '\t')
    (cs : List Char) :
    Apart [c] cs := by
  intro x d hx _
  obtain rfl : c = x := by simpa using hx
  exact (not_joins_of_blank h d).1

/-- Whether a lexeme may end behind some characters is up to the last of them. -/
theorem Apart.append_left
    (htext : cs = [] → Apart text ds)
    (hcs : Apart cs ds) :
    Apart (text ++ cs) ds := by
  intro x d hx hd
  by_cases hnil : cs = []
  · subst hnil
    rw [List.append_nil] at hx
    exact htext rfl x d hx hd
  · rw [List.getLast?_append_of_ne_nil _ hnil] at hx
    exact hcs x d hx hd

/-- Whether a lexeme may end before some characters is up to the first of them. -/
theorem Apart.append_right
    (hcs : Apart text cs)
    (hnil : cs = [] → Apart text ds) :
    Apart text (cs ++ ds) := by
  intro x d hx hd
  cases cs with
  | nil => exact hnil rfl x d hx hd
  | cons e cs => exact hcs x d hx hd

theorem Apart.of_append_left
    (h : Apart (text ++ cs) ds) :
    Apart cs ds := by
  intro x d hx hd
  exact h x d (by rw [List.getLast?_append, hx, Option.some_or]) hd

theorem Apart.of_append_right
    (h : Apart text (cs ++ ds)) :
    Apart text cs := by
  intro x d hx hd
  exact h x d hx (by rw [List.head?_append, hd, Option.some_or])

/-- The longest text that spells a lexeme is apart from what follows it. -/
theorem apart_of_noneLonger
    {l : Lexeme}
    (h : Lexeme.ofText? text = some l)
    (hmax : NoneLonger (text ++ cs) text.length) :
    Apart text cs := by
  intro x d hx hd hjoins
  have hmem : x ∈ text := List.mem_of_getLast? hx
  rcases (ofText?_eq_some_iff _ _).1 h with
    ⟨c, rfl, hc⟩ | ⟨rfl, rfl⟩ | ⟨rfl, rfl⟩ | ⟨hne, hall, rfl⟩ | ⟨hne, hall, rfl⟩
  · obtain rfl : x = c := List.mem_singleton.1 hmem
    rcases ofSymbol?_cases hc with rfl | rfl | rfl | rfl | rfl <;>
      simp [Joins, isTermChar] at hjoins
  · obtain rfl : ':' = x := by simpa using hx
    have hd' := head_ne_of_colon hmax
    rcases hjoins with ⟨-, rfl⟩ | ⟨hx, -⟩ | ⟨hx, -⟩
    · exact hd' hd
    · cases hx
    · cases hx
  · obtain rfl : '=' = x := by simpa using hx
    simp [Joins, isTermChar] at hjoins
  · obtain rfl : x = '\n' := hall x hmem
    rcases hjoins with ⟨hx, -⟩ | ⟨-, rfl⟩ | ⟨hx, -⟩
    · cases hx
    · exact head_ne_of_newlines hall hmax hd
    · cases hx
  · have hterm := hall x hmem
    rcases hjoins with ⟨rfl, -⟩ | ⟨rfl, -⟩ | ⟨-, hd'⟩
    · cases hterm
    · cases hterm
    · rw [not_isTermChar_of_word hall hmax hd] at hd'
      cases hd'

/-- A text that is longest is so if fewer characters follow. -/
theorem NoneLonger.of_append
    {n : Nat}
    (h : NoneLonger (cs ++ ds) n) :
    NoneLonger cs n :=
  fun longer hlonger hlt => h longer (hlonger.trans (List.prefix_append cs ds)) hlt

end Apart

section Runs

variable {cs : List Char} {ls : List Lexeme}

/-- A word is read as a token that is spelled like it. -/
theorem lexeme_of_wordToken
    {previous : Option Token}
    {next : Option Lexeme}
    {text : String}
    {t : Token}
    (h : Lexeme.wordToken previous next text = .ok t) :
    t.lexeme = .word text := by
  have hlabel : Lexeme.wordToken.asLabel text = .ok t → t.lexeme = .word text := by
    unfold Lexeme.wordToken.asLabel
    split
    · simp
    · rintro ⟨⟩
      rfl
  have hregister : ∀ error, Lexeme.wordToken.asRegister text error = .ok t →
      t.lexeme = .word text := by
    intro error
    unfold Lexeme.wordToken.asRegister
    split
    · next r hr =>
        rintro ⟨⟩
        exact congrArg Lexeme.word (Register.name_of_ofName? hr)
    · simp
  cases hkey : Keyword.ofName? text with
  | some k =>
      simp only [Lexeme.wordToken, hkey] at h
      cases h
      exact congrArg Lexeme.word (Keyword.name_of_ofName? hkey)
  | none =>
      rw [wordToken_eq_of_context previous next text hkey] at h
      split at h
      · unfold Lexeme.wordToken.atStart at h
        split at h
        · exact hregister _ h
        · exact hlabel h
      · exact hlabel h
      · split at h
        · exact hlabel h
        · exact hregister _ h

/-- A lexeme is read as a token that is spelled like it. -/
theorem lexeme_of_token
    {previous : Option Token}
    {next : Option Lexeme}
    {l : Lexeme}
    {t : Token}
    (h : l.token previous next = .ok t) :
    t.lexeme = l := by
  cases l with
  | word text => exact lexeme_of_wordToken h
  | bad c => cases h
  | _ =>
      cases h
      rfl

/-- An error about a word names this word. -/
theorem word?_of_wordToken
    {previous : Option Token}
    {next : Option Lexeme}
    {text : String}
    {error : LexError}
    (h : Lexeme.wordToken previous next text = .error error) :
    error.word? = some text := by
  have hlabel : Lexeme.wordToken.asLabel text = .error error → error.word? = some text := by
    unfold Lexeme.wordToken.asLabel
    split
    · rintro ⟨⟩
      rfl
    · simp
  have hregister : ∀ expected : String → LexError, (expected text).word? = some text →
      Lexeme.wordToken.asRegister text expected = .error error → error.word? = some text := by
    intro expected hword
    unfold Lexeme.wordToken.asRegister
    split
    · simp
    · rintro ⟨⟩
      exact hword
  cases hkey : Keyword.ofName? text with
  | some k =>
      simp only [Lexeme.wordToken, hkey] at h
      cases h
  | none =>
      rw [wordToken_eq_of_context previous next text hkey] at h
      split at h
      · unfold Lexeme.wordToken.atStart at h
        split at h
        · exact hregister _ rfl h
        · exact hlabel h
      · exact hlabel h
      · split at h
        · exact hlabel h
        · exact hregister _ rfl h

/-- A text that spells a lexeme and is read as no token is a word. -/
theorem stops_of_token
    {previous : Option Token}
    {next : Option Lexeme}
    {text : List Char}
    {l : Lexeme}
    {error : LexError}
    (ht : Lexeme.ofText? text = some l)
    (hmax : NoneLonger (text ++ cs) text.length)
    (h : l.token previous next = .error error) :
    Stops error (text ++ cs) := by
  rcases (ofText?_eq_some_iff _ _).1 ht with
    ⟨c, rfl, hc⟩ | ⟨rfl, rfl⟩ | ⟨rfl, rfl⟩ | ⟨hne, hall, rfl⟩ | ⟨hne, hall, rfl⟩
  · unfold Lexeme.ofSymbol? at hc
    split at hc <;> cases hc <;> cases h
  · cases h
  · cases h
  · cases h
  · exact .word (word?_of_wordToken h) hne hall (apart_of_noneLonger ht hmax)

/-- From any place on, the tokens of a lexer are placed in the characters up to an
error, or in all of them if there is none. -/
theorem front_of_run
    (h : Cut cs ls)
    (previous : Option Token)
    (place : Position) :
    ∃ front rest, cs = front ++ rest ∧ Apart front rest ∧
      Placed place front (Lexer.run ⟨cs, place, .following previous⟩).tokens ∧
      Halts (place.advance front) rest (Lexer.run ⟨cs, place, .following previous⟩).error := by
  induction h generalizing previous place with
  | done =>
      rw [run_of_none rfl]
      exact ⟨[], [], rfl, .nil_left _, .done, .done⟩
  | @blank c cs ls hb h ih =>
      have hnext : Lexer.next? ⟨c :: cs, place, .following previous⟩ = _ :=
        next?_blank ((isBlank_iff c).2 hb) place (.following previous)
      obtain ⟨htokens, herror⟩ := run_congr hnext
      obtain ⟨front, rest, rfl, hapart, hplaced, hhalts⟩ := ih previous (place.after c)
      have hfront : Apart ([c] ++ front) rest := .append_left (fun _ => .of_blank hb _) hapart
      rw [htokens, herror]
      exact ⟨c :: front, rest, rfl, hfront, .blank hb hplaced, hhalts⟩
  | @munch text cs l ls ht hmax h ih =>
      have hread := read?_of_munch previous ht hmax h
      obtain ⟨c, tail, rfl, hb⟩ := exists_cons_of_ofText? ht
      cases htok : l.token previous ls.head? with
      | error error =>
          rw [htok, List.cons_append] at hread
          rw [List.cons_append, run_of_error (next?_of_error hb hread place)]
          exact ⟨[], _, rfl, .nil_left _, .done, .error (stops_of_token ht hmax htok)⟩
      | ok token =>
          rw [htok, List.cons_append] at hread
          have hnext := next?_of_ok hb hread place
          have hdrop : (c :: (tail ++ cs)).drop (c :: tail).length = cs := by
            simp
          rw [hdrop] at hnext
          rw [List.cons_append, run_of_ok hnext]
          obtain ⟨front, rest, rfl, hapart, hplaced, hhalts⟩ :=
            ih (some token) (place.advance (c :: tail))
          -- If the front ends with this lexeme, it is apart from the rest as the longest one.
          refine ⟨c :: tail ++ front, rest, by simp, .append_left (fun hnil => ?_) hapart, ?_, ?_⟩
          · rw [hnil, List.nil_append] at hmax
            exact apart_of_noneLonger ht hmax
          · rw [← lexeme_of_token htok] at ht
            rw [← List.append_assoc] at hmax
            exact .token ht (hmax.of_append) hplaced
          · rwa [Position.advance_append]
  | @bad c cs ls hb hnone h ih =>
      have hread := read?_of_bad (.following previous) hnone
      rw [run_of_error (next?_of_error hb hread place)]
      exact ⟨[], _, rfl, .nil_left _, .done, .error (.char hb (hnone [c] ⟨cs, rfl⟩ (by simp)))⟩

end Runs

section Sources

variable {p : Position} {cs : List Char} {ts : List (Located Token)} {s : Source}

/-- Characters are cut into the lexemes of the tokens placed in them. -/
theorem Placed.cut
    (h : Placed p cs ts) :
    Cut cs (ts.map fun t => t.value.lexeme) := by
  induction h with
  | done => exact .done
  | blank hb h ih => exact .blank hb ih
  | token ht hmax h ih => exact .munch ht hmax ih

/-- Tokens stand where their characters do, not before. -/
theorem Placed.le_first
    (h : Placed p cs ts)
    {t : Located Token}
    (ht : t ∈ ts) :
    p ≤ t.span.first := by
  induction h with
  | done =>
      cases ht
  | @blank p c cs ts hb h ih =>
      exact le_trans (le_of_lt (p.lt_after c)) (ih ht)
  | @token p t text cs ts hl hmax h ih =>
      rcases List.mem_cons.1 ht with rfl | ht
      · exact le_refl p
      · exact le_trans (p.le_advance text) (ih ht)

/-- The tokens of a source are placed in its characters up to an error, or in all of
them if there is none. -/
theorem front_of_reading
    (s : Source) :
    ∃ front rest, s.chars = front ++ rest ∧ Apart front rest ∧
      Placed .start front s.reading.tokens ∧
      Halts (Position.start.advance front) rest s.reading.error := by
  obtain ⟨ls, hls⟩ := exists_cut s.chars
  exact front_of_run hls none .start

/-- The tokens of a source without errors are placed in its characters. -/
theorem placed_of_tokens
    (h : s.tokens = .ok ts) :
    Placed .start s.chars ts := by
  obtain ⟨hok, rfl⟩ := tokens_eq_ok_iff.1 h
  obtain ⟨front, rest, hchars, -, hplaced, hhalts⟩ := front_of_reading s
  rw [hok] at hhalts
  cases hhalts
  rwa [hchars, List.append_nil]

/-- The tokens of a source are what their lexemes are read as. -/
theorem readAll_of_tokens
    (h : s.tokens = .ok ts) :
    Lexeme.readAll none (ts.map fun t => t.value.lexeme) = (ts.map Located.value, none) := by
  obtain ⟨hok, hts⟩ := tokens_eq_ok_iff.1 h
  have hrun := run_of_cut (placed_of_tokens h).cut none .start
  rw [← hrun]
  show s.reading.values = _
  rw [Reading.values, hok, hts]
  rfl

end Sources

end Microcode
