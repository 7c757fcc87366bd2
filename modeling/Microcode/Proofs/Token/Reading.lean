import Microcode.Proofs.Token.Lexeme

/-!
# The lexer reads lexemes

The lexer takes tokens off the front of the characters one by one and looks
ahead over blanks.  Here it is compared with the reading in two phases: a step
of the lexer takes the longest text that spells a lexeme, and what it sees ahead
is the next lexeme.

**Results.**
* `run_of_cut`: from any place on, the lexer yields the tokens and the error
  that the lexemes ahead stand for.
* `reading_eq_readAll`: this holds of whole sources, and a lexer that has
  stopped yields nothing more.
-/

namespace Microcode

/-- The context that the token before leaves behind; a source starts like a line. -/
def Context.following : Option Token → Context
  | none => .lineStart
  | some t => .after t

/-- What the next lexeme says about a word. -/
def Follow.ofLexeme : Option Lexeme → Follow
  | some .assign => .assignment
  | some .colon => .definition
  | _ => .other

section Words

theorem isBlank_iff
    (c : Char) :
    isBlank c = true ↔ c = ' ' ∨ c = '\t' := by
  simp [isBlank]

theorem isBlank_eq_false
    {c : Char}
    (hb : ¬ (c = ' ' ∨ c = '\t')) :
    isBlank c = false := by
  rw [← Bool.not_eq_true, isBlank_iff]
  exact hb

theorem labelOf_eq_asLabel
    {text : List Char}
    (hall : ∀ c ∈ text, isTermChar c = true) :
    labelOf (String.ofList text) = Lexeme.wordToken.asLabel (String.ofList text) := by
  have hiff : (∀ c ∈ text, c.isAlphanum = true) ↔ '-' ∉ text := by
    constructor
    · intro h hmem
      exact absurd (h '-' hmem) (by decide)
    · intro hmem c hc
      have hword := hall c hc
      rw [isTermChar_eq_isWordChar] at hword
      have hne : c ≠ '-' := by
        rintro rfl
        exact hmem hc
      simpa [isWordChar, hne] using hword
  unfold labelOf Lexeme.wordToken.asLabel
  by_cases h : '-' ∈ text
  · have hnot : ¬ (∀ c ∈ text, c.isAlphanum = true) := fun hall => hiff.1 hall h
    simp only [String.toList_ofList, List.all_eq_true, h, hnot, if_true, if_false]
  · simp only [String.toList_ofList, List.all_eq_true, h, if_false]
    rw [if_pos (hiff.2 h)]

theorem registerOf_eq_asRegister
    (error : String → LexError)
    (text : String) :
    registerOf error text = Lexeme.wordToken.asRegister text error := by
  rfl

/-- The token before a word matters only through the context that it leaves. -/
theorem wordToken_eq_of_context
    (previous : Option Token)
    (next : Option Lexeme)
    (text : String)
    (hkey : Keyword.ofName? text = none) :
    Lexeme.wordToken previous next text =
      match Context.following previous with
      | .lineStart => Lexeme.wordToken.atStart next text
      | .afterGoto => Lexeme.wordToken.asLabel text
      | .operand =>
          if next = some .colon then Lexeme.wordToken.asLabel text
          else Lexeme.wordToken.asRegister text .expectedRegister := by
  unfold Lexeme.wordToken
  rw [hkey]
  cases previous with
  | none =>
      rfl
  | some t =>
      cases t with
      | keyword k => cases k <;> rfl
      | _ => rfl

/-- A word is classified alike by its context and by the token before it. -/
theorem classify_eq_wordToken
    (previous : Option Token)
    (next : Option Lexeme)
    {text : List Char}
    (hall : ∀ c ∈ text, isTermChar c = true) :
    (Context.following previous).classify (String.ofList text) (.ofLexeme next) =
      Lexeme.wordToken previous next (String.ofList text) := by
  cases hkey : Keyword.ofName? (String.ofList text) with
  | some k =>
      simp only [Context.classify, Lexeme.wordToken, hkey]
  | none =>
      rw [wordToken_eq_of_context previous next _ hkey]
      simp only [Context.classify, hkey]
      have hnext : (next = some .assign ∧ Follow.ofLexeme next = .assignment) ∨
          (next = some .colon ∧ Follow.ofLexeme next = .definition) ∨
          (next ≠ some .assign ∧ next ≠ some .colon ∧ Follow.ofLexeme next = .other) := by
        unfold Follow.ofLexeme
        split <;> simp_all
      cases Context.following previous with
      | lineStart =>
          rcases hnext with ⟨hn, hf⟩ | ⟨hn, hf⟩ | ⟨hn, -, hf⟩ <;>
            · rw [hf]
              simp [hn, Lexeme.wordToken.atStart, labelOf_eq_asLabel hall,
                registerOf_eq_asRegister]
      | afterGoto =>
          exact labelOf_eq_asLabel hall
      | operand =>
          rcases hnext with ⟨hn, hf⟩ | ⟨hn, hf⟩ | ⟨-, hn, hf⟩ <;>
            · rw [hf]
              simp [hn, labelOf_eq_asLabel hall, registerOf_eq_asRegister]

end Words

section Steps

variable {cs : List Char} {ls : List Lexeme}

theorem takeWhile_append_of_head
    {p : Char → Bool}
    {text : List Char}
    (hall : ∀ c ∈ text, p c = true)
    (hnext : ∀ c, cs.head? = some c → p c = false) :
    (text ++ cs).takeWhile p = text ∧ (text ++ cs).dropWhile p = cs := by
  induction text with
  | nil =>
      cases cs with
      | nil => simp
      | cons c cs => simp [hnext c rfl]
  | cons c text ih =>
      have hc := hall c (by simp)
      have htext := ih (fun d hd => hall d (by simp [hd]))
      simp [hc, htext]

theorem ofChars_eq_other
    {c : Char}
    (hb : ¬ (c = ' ' ∨ c = '\t'))
    (hc : c ≠ ':') :
    Follow.ofChars (c :: cs) = .other := by
  unfold Follow.ofChars
  rw [List.dropWhile_cons_of_neg (by simp [isBlank_eq_false hb])]
  split
  · next heq => exact absurd (List.cons.inj heq).1 hc
  · next heq => exact absurd (List.cons.inj heq).1 hc
  · rfl

theorem ofLexeme_of_ofSymbol?
    {c : Char}
    {l : Lexeme}
    (h : Lexeme.ofSymbol? c = some l) :
    Follow.ofLexeme (some l) = .other := by
  unfold Lexeme.ofSymbol? at h
  split at h <;> cases h <;> rfl

/-- A lone colon is not followed by `=`. -/
theorem head_ne_of_colon
    (hmax : NoneLonger (':' :: cs) 1) :
    cs.head? ≠ some '=' := by
  intro hhead
  have hnone : Lexeme.ofText? ([':'] ++ ['=']) = none := next_of_noneLonger hmax hhead
  cases hnone

/-- A run of line ends is not followed by another line end. -/
theorem head_ne_of_newlines
    {text : List Char}
    (hall : ∀ c ∈ text, c = '\n')
    (hmax : NoneLonger (text ++ cs) text.length) :
    cs.head? ≠ some '\n' := by
  intro hhead
  have hsome := (ofText?_eq_some_iff (text ++ ['\n']) .newlines).2
    (Or.inr (Or.inr (Or.inr (Or.inl ⟨by simp, by simpa [or_imp, forall_and] using hall, rfl⟩))))
  rw [next_of_noneLonger hmax hhead] at hsome
  cases hsome

/-- A word is not followed by another character of words. -/
theorem not_isTermChar_of_word
    {text : List Char}
    (hall : ∀ c ∈ text, isTermChar c = true)
    (hmax : NoneLonger (text ++ cs) text.length)
    {c : Char}
    (hhead : cs.head? = some c) :
    isTermChar c = false := by
  rw [← Bool.not_eq_true]
  intro hterm
  have hsome := (ofText?_eq_some_iff (text ++ [c]) (.word (String.ofList (text ++ [c])))).2
    (Or.inr (Or.inr (Or.inr (Or.inr ⟨by simp, by simp +contextual [or_imp, hall, hterm], rfl⟩))))
  rw [next_of_noneLonger hmax hhead] at hsome
  cases hsome

/-- What the lexer sees behind a word is the next lexeme. -/
theorem follow_of_cut
    (h : Cut cs ls) :
    Follow.ofChars cs = .ofLexeme ls.head? := by
  induction h with
  | done =>
      rfl
  | @blank c cs ls hb h ih =>
      have hc : isBlank c = true := (isBlank_iff c).2 hb
      simpa [Follow.ofChars, hc] using ih
  | @munch text cs l ls ht hmax h ih =>
      rcases (ofText?_eq_some_iff _ _).1 ht with
        ⟨c, rfl, hc⟩ | ⟨rfl, rfl⟩ | ⟨rfl, rfl⟩ | ⟨hne, hall, rfl⟩ | ⟨hne, hall, rfl⟩
      · rw [List.head?_cons, ofLexeme_of_ofSymbol? hc]
        apply ofChars_eq_other <;>
          rcases ofSymbol?_cases hc with rfl | rfl | rfl | rfl | rfl <;> decide
      · have hnext := head_ne_of_colon hmax
        cases cs with
        | nil =>
            rfl
        | cons d cs =>
            have hd : d ≠ '=' := fun hd => hnext (by rw [hd]; rfl)
            simp [Follow.ofChars, isBlank, Follow.ofLexeme, hd]
      · rfl
      · cases text with
        | nil => exact absurd rfl hne
        | cons c text =>
            rw [hall c (by simp)]
            exact ofChars_eq_other (by decide) (by decide)
      · cases text with
        | nil => exact absurd rfl hne
        | cons c text =>
            have hc := hall c (by simp)
            apply ofChars_eq_other
            · rintro (rfl | rfl) <;> cases hc
            · rintro rfl
              cases hc
  | @bad c cs ls hb hnone h ih =>
      apply ofChars_eq_other hb
      rintro rfl
      have hcolon := hnone [':'] ⟨cs, rfl⟩ (by simp)
      cases hcolon

theorem read?_word
    (context : Context)
    {c : Char}
    (hc : isWordChar c = true)
    (cs : List Char) :
    context.read? (c :: cs) =
      some (c :: cs.takeWhile isWordChar,
        context.classify (String.ofList (c :: cs.takeWhile isWordChar))
          (Follow.ofChars (cs.dropWhile isWordChar))) := by
  unfold Context.read?
  split
  case h_10 heq =>
      cases heq
      rw [if_pos hc]
  all_goals
      cases ‹c :: cs = _›
  all_goals
      exact absurd hc (by decide)

/-- A step of the lexer takes the longest text that spells a lexeme, and reads it
as that lexeme. -/
theorem read?_of_munch
    (previous : Option Token)
    {text : List Char}
    {l : Lexeme}
    (ht : Lexeme.ofText? text = some l)
    (hmax : NoneLonger (text ++ cs) text.length)
    (h : Cut cs ls) :
    (Context.following previous).read? (text ++ cs) =
      some (text, l.token previous ls.head?) := by
  rcases (ofText?_eq_some_iff _ _).1 ht with
    ⟨c, rfl, hc⟩ | ⟨rfl, rfl⟩ | ⟨rfl, rfl⟩ | ⟨hne, hall, rfl⟩ | ⟨hne, hall, rfl⟩
  · unfold Lexeme.ofSymbol? at hc
    split at hc <;> cases hc <;> rfl
  · have hnext := head_ne_of_colon hmax
    cases cs with
    | nil =>
        rfl
    | cons d cs =>
        have hd : d ≠ '=' := fun hd => hnext (by rw [hd]; rfl)
        simp [Context.read?, Lexeme.token, hd]
  · rfl
  · have hnext : ∀ c, cs.head? = some c → (c == '\n') = false := by
      intro c hc
      rw [beq_eq_false_iff_ne]
      rintro rfl
      exact head_ne_of_newlines hall hmax hc
    cases text with
    | nil =>
        exact absurd rfl hne
    | cons c text =>
        obtain rfl : c = '\n' := hall c (by simp)
        have htext : ∀ c ∈ text, (c == '\n') = true := by
          simpa using hall
        have htake := (takeWhile_append_of_head htext hnext).1
        simp only [List.cons_append, Context.read?, htake, Lexeme.token]
  · have hnext : ∀ c, cs.head? = some c → isWordChar c = false := by
      intro c hc
      rw [← isTermChar_eq_isWordChar]
      exact not_isTermChar_of_word hall hmax hc
    cases text with
    | nil =>
        exact absurd rfl hne
    | cons c text =>
        have hword : ∀ d ∈ c :: text, isWordChar d = true := by
          intro d hd
          rw [← isTermChar_eq_isWordChar]
          exact hall d hd
        obtain ⟨htake, hdrop⟩ := takeWhile_append_of_head
          (fun d (hd : d ∈ text) => hword d (by simp [hd])) hnext
        rw [List.cons_append, read?_word _ (hword c (by simp)), htake, hdrop, follow_of_cut h,
          classify_eq_wordToken previous ls.head? hall]
        rfl

/-- A character with which no lexeme starts is refused. -/
theorem read?_of_bad
    (context : Context)
    {c : Char}
    (hnone : NoneLonger (c :: cs) 0) :
    context.read? (c :: cs) = some ([c], .error (.badChar c)) := by
  have hword : ¬ isWordChar c = true := by
    intro hword
    rw [← isTermChar_eq_isWordChar] at hword
    have hsome := (ofText?_eq_some_iff [c] (.word (String.ofList [c]))).2
      (Or.inr (Or.inr (Or.inr (Or.inr ⟨by simp, by simpa using hword, rfl⟩))))
    rw [hnone [c] ⟨cs, rfl⟩ (by simp)] at hsome
    cases hsome
  have hfirst := hnone [c] ⟨cs, rfl⟩ (by simp)
  unfold Context.read?
  split
  case h_10 heq =>
      cases heq
      rw [if_neg hword]
  all_goals
      cases ‹c :: cs = _›
  all_goals
      exact absurd hfirst (by decide)

end Steps

section Runs

variable {cs : List Char} {ls : List Lexeme}

theorem next?_blank
    {c : Char}
    (hb : isBlank c = true)
    (place : Position)
    (context : Context) :
    Lexer.next? ⟨c :: cs, place, context⟩ = Lexer.next? ⟨cs, place.after c, context⟩ := by
  simp [Lexer.next?, hb]

theorem next?_of_ok
    {c : Char}
    (hb : ¬ (c = ' ' ∨ c = '\t'))
    {context : Context}
    {text : List Char}
    {token : Token}
    (hread : context.read? (c :: cs) = some (text, .ok token))
    (place : Position) :
    Lexer.next? ⟨c :: cs, place, context⟩ =
      some (.ok ⟨token, .cover place text⟩,
        ⟨(c :: cs).drop text.length, place.advance text, .after token⟩) := by
  simp [Lexer.next?, isBlank_eq_false hb, hread]

theorem next?_of_error
    {c : Char}
    (hb : ¬ (c = ' ' ∨ c = '\t'))
    {context : Context}
    {text : List Char}
    {error : LexError}
    (hread : context.read? (c :: cs) = some (text, .error error))
    (place : Position) :
    Lexer.next? ⟨c :: cs, place, context⟩ =
      some (.error ⟨error, .point place⟩, ⟨[], place, context⟩) := by
  simp [Lexer.next?, isBlank_eq_false hb, hread]

theorem run_of_none
    {l : Lexer}
    (h : l.next? = none) :
    l.run = ⟨[], none, l⟩ := by
  rw [Lexer.run]
  split
  · rfl
  · next heq => rw [h] at heq; cases heq
  · next heq => rw [h] at heq; cases heq

theorem run_of_error
    {l l' : Lexer}
    {error : Located LexError}
    (h : l.next? = some (.error error, l')) :
    l.run = ⟨[], some error, l'⟩ := by
  rw [Lexer.run]
  split
  · next heq => rw [h] at heq; cases heq
  · next heq => rw [h] at heq; cases heq; rfl
  · next heq => rw [h] at heq; cases heq

theorem run_of_ok
    {l l' : Lexer}
    {token : Located Token}
    (h : l.next? = some (.ok token, l')) :
    l.run = ⟨token :: l'.run.tokens, l'.run.error, l'.run.final⟩ := by
  rw [Lexer.run]
  split
  · next heq => rw [h] at heq; cases heq
  · next heq => rw [h] at heq; cases heq
  · next heq => rw [h] at heq; cases heq; rfl

/-- The values of the tokens that a lexer reads, and of the error that stops it. -/
def Reading.values (r : Reading) : List Token × Option LexError :=
  (r.tokens.map Located.value, r.error.map Located.value)

theorem values_run_of_none
    {l : Lexer}
    (h : l.next? = none) :
    l.run.values = ([], none) := by
  rw [run_of_none h]
  rfl

theorem values_run_of_error
    {l l' : Lexer}
    {error : Located LexError}
    (h : l.next? = some (.error error, l')) :
    l.run.values = ([], some error.value) := by
  rw [run_of_error h]
  rfl

theorem values_run_of_ok
    {l l' : Lexer}
    {token : Located Token}
    (h : l.next? = some (.ok token, l')) :
    l.run.values = (token.value :: l'.run.values.1, l'.run.values.2) := by
  rw [run_of_ok h]
  rfl

/-- Lexers that take the same step read the same. -/
theorem run_congr
    {l l' : Lexer}
    (h : l.next? = l'.next?) :
    l.run.tokens = l'.run.tokens ∧ l.run.error = l'.run.error := by
  cases hl : l'.next? with
  | none =>
      rw [run_of_none hl, run_of_none (h.trans hl)]
      exact ⟨rfl, rfl⟩
  | some step =>
      obtain ⟨result, next⟩ := step
      cases result with
      | error error =>
          rw [run_of_error hl, run_of_error (h.trans hl)]
          exact ⟨rfl, rfl⟩
      | ok token =>
          rw [run_of_ok hl, run_of_ok (h.trans hl)]
          exact ⟨rfl, rfl⟩

/-- Blanks in front do not change what a lexer reads. -/
theorem values_run_blank
    {c : Char}
    (hb : isBlank c = true)
    (place : Position)
    (context : Context) :
    (Lexer.run ⟨c :: cs, place, context⟩).values =
      (Lexer.run ⟨cs, place.after c, context⟩).values := by
  have hnext : Lexer.next? ⟨c :: cs, place, context⟩ = _ := next?_blank hb place context
  obtain ⟨htokens, herror⟩ := run_congr hnext
  rw [Reading.values, Reading.values, htokens, herror]

/-- From any place on, the lexer yields what the lexemes ahead stand for. -/
theorem run_of_cut
    (h : Cut cs ls)
    (previous : Option Token)
    (place : Position) :
    (Lexer.run ⟨cs, place, .following previous⟩).values = Lexeme.readAll previous ls := by
  induction h generalizing previous place with
  | done =>
      exact values_run_of_none rfl
  | @blank c cs ls hb h ih =>
      rw [values_run_blank ((isBlank_iff c).2 hb)]
      exact ih previous _
  | @munch text cs l ls ht hmax h ih =>
      have hread := read?_of_munch previous ht hmax h
      obtain ⟨c, rest, rfl, hb⟩ := exists_cons_of_ofText? ht
      rw [List.cons_append] at hread ⊢
      simp only [Lexeme.readAll]
      cases htok : l.token previous ls.head? with
      | error error =>
          rw [htok] at hread
          exact values_run_of_error (next?_of_error hb hread place)
      | ok token =>
          rw [htok] at hread
          have hnext := next?_of_ok hb hread place
          have hdrop : (c :: (rest ++ cs)).drop (c :: rest).length = cs := by
            simp
          rw [hdrop] at hnext
          rw [values_run_of_ok hnext]
          have hrest := ih (some token) (place.advance (c :: rest))
          simp only [Context.following] at hrest
          rw [hrest]
  | @bad c cs ls hb hnone h ih =>
      have hread := read?_of_bad (.following previous) hnone
      exact values_run_of_error (next?_of_error hb hread place)

theorem tokens_eq_ok_iff
    {s : Source}
    {ts : List (Located Token)} :
    s.tokens = .ok ts ↔ s.reading.error = none ∧ s.reading.tokens = ts := by
  unfold Source.tokens
  cases s.reading.error <;> simp

/-- A lexer that has stopped yields nothing more. -/
theorem next?_final
    (l : Lexer) :
    l.run.final.next? = none := by
  fun_induction Lexer.run l with
  | case1 l h =>
      exact h
  | case2 l error l' h =>
      have hrest : l'.rest = [] := by
        unfold Lexer.next? at h
        simp only at h
        split at h
        · cases h
        · cases h
        · cases h
          rfl
      simp [Lexer.next?, hrest, Context.read?]
  | case3 l token l' h reading ih =>
      exact ih

/-- **The lexer reads what the two phases read.**  The characters of a source are
cut into lexemes in exactly one way; the tokens that the lexer yields and the
error that stops it are those of the lexemes; and a lexer that has met the end or
an error yields nothing more. -/
theorem reading_eq_readAll
    (s : Source) :
    ∃ ls, Cut s.chars ls ∧ (∀ ls', Cut s.chars ls' → ls' = ls) ∧
      s.reading.tokens.map Located.value = (Lexeme.readAll none ls).1 ∧
      s.reading.error.map Located.value = (Lexeme.readAll none ls).2 ∧
      s.reading.final.next? = none := by
  obtain ⟨ls, hls⟩ := exists_cut s.chars
  have hrun := run_of_cut hls none .start
  refine ⟨ls, hls, fun ls' hls' => cut_unique hls' hls, ?_, ?_, next?_final _⟩
  · exact congrArg Prod.fst hrun
  · exact congrArg Prod.snd hrun

end Runs

end Microcode
