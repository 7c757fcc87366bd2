import Microcode.Token.Lexer
import Mathlib.Tactic

/-!
# Lexemes by maximal munch

The other way to read tokens, in two phases.  `Cut` cuts the characters into
lexemes: the longest text at the front that spells one is taken, blanks between
lexemes are dropped, and a character with which no lexeme starts is a lexeme of
its own.  `Lexeme.readAll` then goes over the lexemes from left to right and
names the token of each, looking only at the token before it and at the lexeme
after it.

**Results.**
* `exists_cut` and `cut_unique`: characters are cut in exactly one way.
* `cut_symbol`, `cut_assign`, `cut_colon`, `cut_newlines`, `cut_word`: how each
  kind of lexeme is cut off the front.
-/

namespace Microcode

/-- A piece of a text. -/
inductive Lexeme where
  | semicolon
  | comma
  | openParen
  | closeParen
  | plus
  | assign
  | colon
  | newlines
  | word (text : String)
  | bad (c : Char)
deriving DecidableEq

/-- The lexeme of the text of a token. -/
def Token.lexeme : Token → Lexeme
  | register r => .word r.name
  | label name => .word name
  | keyword k => .word k.name
  | assign => .assign
  | plus => .plus
  | colon => .colon
  | semicolon => .semicolon
  | comma => .comma
  | openParen => .openParen
  | closeParen => .closeParen
  | newline => .newlines

/-- The characters of words: letters, digits and the minus sign. -/
def isTermChar (c : Char) : Bool :=
  ('A' ≤ c && c ≤ 'Z') || ('a' ≤ c && c ≤ 'z') || ('0' ≤ c && c ≤ '9') || c == '-'

namespace Lexeme

/-- The lexeme that a text spells. -/
def ofText? : List Char → Option Lexeme
  | [] => none
  | [';'] => some semicolon
  | [','] => some comma
  | ['('] => some openParen
  | [')'] => some closeParen
  | ['+'] => some plus
  | [':'] => some colon
  | [':', '='] => some assign
  | text =>
      if text.all (fun c => c == '\n') then some newlines
      else if text.all isTermChar then some (word (String.ofList text))
      else none

/-- What a word stands for after a token and before a lexeme. -/
def wordToken (previous : Option Token) (next : Option Lexeme) (text : String) :
    Except LexError Token :=
  match Keyword.ofName? text with
  | some k => .ok (.keyword k)
  | none =>
      match previous with
      | none => atStart
      | some .newline => atStart
      | some (.keyword .goto) => asLabel
      | some _ => if next = some colon then asLabel else asRegister .expectedRegister
where
  /-- The word as the first one of a line. -/
  atStart : Except LexError Token :=
    if next = some assign then asRegister .expectedRegisterOrLabel else asLabel
  /-- The word as a label. -/
  asLabel : Except LexError Token :=
    if '-' ∈ text.toList then .error (.badLabel text) else .ok (.label text)
  /-- The word as a register. -/
  asRegister (error : String → LexError) : Except LexError Token :=
    match Register.ofName? text with
    | some r => .ok (.register r)
    | none => .error (error text)

/-- What a lexeme stands for after a token and before a lexeme. -/
def token (previous : Option Token) (next : Option Lexeme) : Lexeme → Except LexError Token
  | semicolon => .ok .semicolon
  | comma => .ok .comma
  | openParen => .ok .openParen
  | closeParen => .ok .closeParen
  | plus => .ok .plus
  | assign => .ok .assign
  | colon => .ok .colon
  | newlines => .ok .newline
  | word text => wordToken previous next text
  | bad c => .error (.badChar c)

/-- The tokens of some lexemes after a token, up to the first error. -/
def readAll (previous : Option Token) : List Lexeme → List Token × Option LexError
  | [] => ([], none)
  | l :: ls =>
      match l.token previous ls.head? with
      | .error error => ([], some error)
      | .ok t => (t :: (readAll (some t) ls).1, (readAll (some t) ls).2)

end Lexeme

/-- No text at the front that is longer than the given number spells a lexeme. -/
def NoneLonger (cs : List Char) (n : Nat) : Prop :=
  ∀ longer, longer <+: cs → n < longer.length → Lexeme.ofText? longer = none

/-- The lexemes of some characters by maximal munch. -/
inductive Cut : List Char → List Lexeme → Prop
  | done : Cut [] []
  | blank {c : Char} {cs : List Char} {ls : List Lexeme} :
      c = ' ' ∨ c = '\t' → Cut cs ls → Cut (c :: cs) ls
  | munch {text cs : List Char} {l : Lexeme} {ls : List Lexeme} :
      Lexeme.ofText? text = some l → NoneLonger (text ++ cs) text.length →
      Cut cs ls → Cut (text ++ cs) (l :: ls)
  | bad {c : Char} {cs : List Char} {ls : List Lexeme} :
      ¬ (c = ' ' ∨ c = '\t') → NoneLonger (c :: cs) 0 →
      Cut cs ls → Cut (c :: cs) (.bad c :: ls)

section Spelling

theorem isTermChar_eq_isWordChar
    (c : Char) :
    isTermChar c = isWordChar c := by
  unfold isWordChar
  delta Char.isAlphanum Char.isAlpha Char.isUpper Char.isLower Char.isDigit
  simp only [isTermChar, Char.le_def, ge_iff_le, Bool.decide_and]

/-- The lexeme of a character that is one by itself and starts no longer one. -/
def Lexeme.ofSymbol? : Char → Option Lexeme
  | ';' => some semicolon
  | ',' => some comma
  | '(' => some openParen
  | ')' => some closeParen
  | '+' => some plus
  | _ => none

/-- The texts that spell lexemes. -/
theorem ofText?_eq_some_iff
    (text : List Char)
    (l : Lexeme) :
    Lexeme.ofText? text = some l ↔
      (∃ c, text = [c] ∧ Lexeme.ofSymbol? c = some l) ∨
      (text = [':'] ∧ l = .colon) ∨
      (text = [':', '='] ∧ l = .assign) ∨
      (text ≠ [] ∧ (∀ c ∈ text, c = '\n') ∧ l = .newlines) ∨
      (text ≠ [] ∧ (∀ c ∈ text, isTermChar c = true) ∧ l = .word (String.ofList text)) := by
  constructor
  · intro h
    unfold Lexeme.ofText? at h
    split at h
    case h_1 =>
        cases h
    case h_7 =>
        exact Or.inr (Or.inl ⟨rfl, (Option.some.inj h).symm⟩)
    case h_8 =>
        exact Or.inr (Or.inr (Or.inl ⟨rfl, (Option.some.inj h).symm⟩))
    case h_9 hne _ _ _ _ _ _ _ =>
        have hnil : text ≠ [] := fun hnil => hne hnil
        split at h
        · next hall =>
            right; right; right; left
            exact ⟨hnil, by simpa using hall, (Option.some.inj h).symm⟩
        · split at h
          · next hall =>
              right; right; right; right
              exact ⟨hnil, by simpa using hall, (Option.some.inj h).symm⟩
          · cases h
    all_goals
        exact Or.inl ⟨_, rfl, h⟩
  · rintro (⟨c, rfl, h⟩ | ⟨rfl, rfl⟩ | ⟨rfl, rfl⟩ | ⟨hne, hall, rfl⟩ | ⟨hne, hall, rfl⟩)
    · unfold Lexeme.ofSymbol? at h
      split at h
      case h_6 => cases h
      all_goals exact h
    · rfl
    · rfl
    · unfold Lexeme.ofText?
      split
      case h_9 =>
          rw [if_pos (by simpa using hall)]
      all_goals simp at hne hall
    · unfold Lexeme.ofText?
      split
      case h_9 =>
          have hnl : ¬ (text.all (fun c => c == '\n') = true) := by
            intro hnl
            obtain ⟨c, hc⟩ := List.exists_mem_of_ne_nil _ hne
            have h1 := hall c hc
            have h2 : c = '\n' := by simpa using List.all_eq_true.1 hnl c hc
            rw [h2] at h1
            exact absurd h1 (by decide)
          rw [if_neg hnl, if_pos (by simpa using hall)]
      case h_1 =>
          exact absurd rfl hne
      all_goals
          exact absurd (hall _ (List.mem_cons_self ..)) (by decide)

/-- A longer text at the front goes on with the characters behind the shorter one. -/
theorem exists_of_longer
    {text cs longer : List Char}
    (h : longer <+: text ++ cs)
    (hlt : text.length < longer.length) :
    ∃ c rest, longer = text ++ c :: rest ∧ c :: rest <+: cs := by
  have htext : text <+: longer :=
    List.prefix_of_prefix_length_le (List.prefix_append text cs) h (Nat.le_of_lt hlt)
  obtain ⟨rest, rfl⟩ := htext
  cases rest with
  | nil =>
      simp at hlt
  | cons c rest =>
      exact ⟨c, rest, rfl, (List.prefix_append_right_inj text).1 h⟩

/-- How a text that spells a lexeme can go on and still spell one. -/
theorem ofText?_append_cases
    {text rest : List Char}
    {c : Char}
    {l : Lexeme}
    (hne : text ≠ [])
    (h : Lexeme.ofText? (text ++ c :: rest) = some l) :
    (text = [':'] ∧ c = '=') ∨ ((∀ x ∈ text, x = '\n') ∧ c = '\n') ∨
      ((∀ x ∈ text, isTermChar x = true) ∧ isTermChar c = true) := by
  rcases (ofText?_eq_some_iff _ _).1 h with
    ⟨x, heq, -⟩ | ⟨heq, -⟩ | ⟨heq, -⟩ | ⟨-, hall, -⟩ | ⟨-, hall, -⟩
  · exact absurd (List.append_eq_singleton_iff.1 heq) (by simp [hne])
  · exact absurd (List.append_eq_singleton_iff.1 heq) (by simp [hne])
  · left
    cases text with
    | nil =>
        exact absurd rfl hne
    | cons a text =>
        cases text with
        | nil =>
            simp at heq
            simp [heq]
        | cons b text =>
            simp at heq
  · exact Or.inr (Or.inl ⟨fun x hx => hall x (by simp [hx]), hall c (by simp)⟩)
  · exact Or.inr (Or.inr ⟨fun x hx => hall x (by simp [hx]), hall c (by simp)⟩)

/-- A text is longest if what follows it cannot go on with it. -/
theorem noneLonger_of_next
    {text cs : List Char}
    (hne : text ≠ [])
    (hnext : ∀ c, cs.head? = some c →
      ¬ (text = [':'] ∧ c = '=') ∧ ¬ ((∀ x ∈ text, x = '\n') ∧ c = '\n') ∧
        ¬ ((∀ x ∈ text, isTermChar x = true) ∧ isTermChar c = true)) :
    NoneLonger (text ++ cs) text.length := by
  intro longer hpre hlt
  obtain ⟨c, rest, rfl, hcs⟩ := exists_of_longer hpre hlt
  have hhead : cs.head? = some c := by
    obtain ⟨tail, rfl⟩ := hcs
    rfl
  obtain ⟨h1, h2, h3⟩ := hnext c hhead
  cases ho : Lexeme.ofText? (text ++ c :: rest) with
  | none =>
      rfl
  | some l =>
      rcases ofText?_append_cases hne ho with h | h | h
      · exact absurd h h1
      · exact absurd h h2
      · exact absurd h h3

/-- What follows a longest text cannot go on with it. -/
theorem next_of_noneLonger
    {text cs : List Char}
    {c : Char}
    (hmax : NoneLonger (text ++ cs) text.length)
    (hhead : cs.head? = some c) :
    Lexeme.ofText? (text ++ [c]) = none := by
  apply hmax
  · cases cs with
    | nil =>
        cases hhead
    | cons d cs =>
        rw [← Option.some.inj hhead]
        exact ⟨cs, by simp⟩
  · simp

end Spelling

section Cutting

variable {cs : List Char} {ls : List Lexeme}

theorem ofSymbol?_cases
    {c : Char}
    {l : Lexeme}
    (h : Lexeme.ofSymbol? c = some l) :
    c = ';' ∨ c = ',' ∨ c = '(' ∨ c = ')' ∨ c = '+' := by
  unfold Lexeme.ofSymbol? at h
  split at h <;> simp at h ⊢

theorem cut_symbol
    {c : Char}
    {l : Lexeme}
    (hc : Lexeme.ofSymbol? c = some l)
    (h : Cut cs ls) :
    Cut (c :: cs) (l :: ls) := by
  show Cut ([c] ++ cs) (l :: ls)
  refine Cut.munch ((ofText?_eq_some_iff _ _).2 (Or.inl ⟨c, rfl, hc⟩)) ?_ h
  apply noneLonger_of_next (by simp)
  rcases ofSymbol?_cases hc with rfl | rfl | rfl | rfl | rfl <;> simp [isTermChar]

theorem cut_assign
    (h : Cut cs ls) :
    Cut (':' :: '=' :: cs) (.assign :: ls) := by
  show Cut ([':', '='] ++ cs) (.assign :: ls)
  refine Cut.munch rfl ?_ h
  apply noneLonger_of_next (by simp)
  simp [isTermChar]

theorem cut_colon
    (hnext : cs.head? ≠ some '=')
    (h : Cut cs ls) :
    Cut (':' :: cs) (.colon :: ls) := by
  show Cut ([':'] ++ cs) (.colon :: ls)
  refine Cut.munch rfl ?_ h
  apply noneLonger_of_next (by simp)
  intro c hc
  have hne : c ≠ '=' := by
    rintro rfl
    exact hnext hc
  simp [isTermChar, hne]

theorem cut_newlines
    {text : List Char}
    (hne : text ≠ [])
    (hall : ∀ c ∈ text, c = '\n')
    (hnext : cs.head? ≠ some '\n')
    (h : Cut cs ls) :
    Cut (text ++ cs) (.newlines :: ls) := by
  refine Cut.munch ((ofText?_eq_some_iff _ _).2 ?_) ?_ h
  · exact Or.inr (Or.inr (Or.inr (Or.inl ⟨hne, hall, rfl⟩)))
  · apply noneLonger_of_next hne
    intro c hc
    obtain ⟨x, hx⟩ := List.exists_mem_of_ne_nil _ hne
    refine ⟨?_, ?_, ?_⟩
    · rintro ⟨rfl, -⟩
      exact absurd (hall ':' (by simp)) (by decide)
    · rintro ⟨-, rfl⟩
      exact hnext hc
    · rintro ⟨hterm, -⟩
      have hx' := hterm x hx
      rw [hall x hx] at hx'
      exact absurd hx' (by decide)

theorem cut_word
    {text : List Char}
    (hne : text ≠ [])
    (hall : ∀ c ∈ text, isTermChar c = true)
    (hnext : ∀ c, cs.head? = some c → isTermChar c = false)
    (h : Cut cs ls) :
    Cut (text ++ cs) (.word (String.ofList text) :: ls) := by
  refine Cut.munch ((ofText?_eq_some_iff _ _).2 ?_) ?_ h
  · exact Or.inr (Or.inr (Or.inr (Or.inr ⟨hne, hall, rfl⟩)))
  · apply noneLonger_of_next hne
    intro c hc
    obtain ⟨x, hx⟩ := List.exists_mem_of_ne_nil _ hne
    refine ⟨?_, ?_, ?_⟩
    · rintro ⟨rfl, -⟩
      exact absurd (hall ':' (by simp)) (by decide)
    · rintro ⟨hnl, -⟩
      have hx' := hall x hx
      rw [hnl x hx] at hx'
      exact absurd hx' (by decide)
    · rintro ⟨-, hterm⟩
      rw [hnext c hc] at hterm
      cases hterm

/-- All characters can be cut into lexemes. -/
theorem exists_cut
    (cs : List Char) :
    ∃ ls, Cut cs ls := by
  induction hn : cs.length using Nat.strong_induction_on generalizing cs with
  | _ n ih =>
      cases cs with
      | nil =>
          exact ⟨[], .done⟩
      | cons c cs =>
          have hrest : ∀ n, 0 < n → ∃ ls, Cut ((c :: cs).drop n) ls := by
            intro k hk
            apply ih _ _ _ rfl
            simp only [List.length_drop, List.length_cons] at hn ⊢
            omega
          by_cases hb : c = ' ' ∨ c = '\t'
          · obtain ⟨ls, hls⟩ := hrest 1 (by omega)
            exact ⟨ls, .blank hb hls⟩
          · -- The longest text is the one that the greatest spelling length gives.
            let spells : Nat → Prop := fun k => Lexeme.ofText? ((c :: cs).take k) ≠ none
            by_cases hk : spells (Nat.findGreatest spells (c :: cs).length)
            · obtain ⟨l, hl⟩ := Option.ne_none_iff_exists'.1 hk
              have hpos : 0 < Nat.findGreatest spells (c :: cs).length := by
                by_contra hzero
                rw [Nat.eq_zero_of_not_pos hzero] at hl
                cases hl
              obtain ⟨ls, hls⟩ := hrest _ hpos
              refine ⟨l :: ls, ?_⟩
              have hcut := Cut.munch hl ?_ hls
              · rwa [List.take_append_drop] at hcut
              · rw [List.take_append_drop]
                intro longer hpre hlt
                by_contra hnone
                have hle := hpre.length_le
                have hspells : spells longer.length := by
                  show Lexeme.ofText? _ ≠ none
                  rwa [← List.prefix_iff_eq_take.1 hpre]
                have hmax := Nat.le_findGreatest hle hspells
                rw [List.length_take] at hlt
                omega
            · obtain ⟨ls, hls⟩ := hrest 1 (by omega)
              refine ⟨.bad c :: ls, .bad hb ?_ hls⟩
              intro longer hpre hlt
              by_contra hnone
              have hspells : spells longer.length := by
                show Lexeme.ofText? _ ≠ none
                rwa [← List.prefix_iff_eq_take.1 hpre]
              exact hk (Nat.findGreatest_spec hpre.length_le hspells)

/-- A text that spells a lexeme has a first character, which is no blank. -/
theorem exists_cons_of_ofText?
    {text : List Char}
    {l : Lexeme}
    (h : Lexeme.ofText? text = some l) :
    ∃ c rest, text = c :: rest ∧ ¬ (c = ' ' ∨ c = '\t') := by
  cases text with
  | nil =>
      cases h
  | cons c rest =>
      refine ⟨c, rest, rfl, ?_⟩
      rintro (rfl | rfl) <;>
        · rcases (ofText?_eq_some_iff _ _).1 h with
            ⟨x, heq, hx⟩ | ⟨heq, -⟩ | ⟨heq, -⟩ | ⟨-, hall, -⟩ | ⟨-, hall, -⟩
          · rw [← (List.cons.inj heq).1] at hx
            cases hx
          · cases heq
          · cases heq
          · exact absurd (hall _ (List.mem_cons_self ..)) (by decide)
          · exact absurd (hall _ (List.mem_cons_self ..)) (by decide)

/-- Two longest texts at the front that spell lexemes are the same. -/
theorem munch_unique
    {text text' cs cs' : List Char}
    {l l' : Lexeme}
    (heq : text ++ cs = text' ++ cs')
    (h : Lexeme.ofText? text = some l)
    (hmax : NoneLonger (text ++ cs) text.length)
    (h' : Lexeme.ofText? text' = some l')
    (hmax' : NoneLonger (text' ++ cs') text'.length) :
    text = text' ∧ cs = cs' ∧ l = l' := by
  have hle : ∀ {t t' u u' : List Char} {k : Lexeme}, t ++ u = t' ++ u' →
      NoneLonger (t ++ u) t.length → Lexeme.ofText? t' = some k → t'.length ≤ t.length := by
    intro t t' u u' k hsame hm hk
    by_contra hlt
    have hnone := hm t' (hsame ▸ List.prefix_append t' u') (Nat.lt_of_not_le hlt)
    rw [hk] at hnone
    cases hnone
  have hlen : text.length = text'.length :=
    Nat.le_antisymm (hle heq.symm hmax' h) (hle heq hmax h')
  obtain ⟨rfl, rfl⟩ := List.append_inj heq hlen
  rw [h] at h'
  exact ⟨rfl, rfl, Option.some.inj h'⟩

/-- The last step of a cut, by what stands in front. -/
theorem cut_cases
    (h : Cut cs ls) :
    (cs = [] ∧ ls = []) ∨
    (∃ c rest, cs = c :: rest ∧ (c = ' ' ∨ c = '\t') ∧ Cut rest ls) ∨
    (∃ text rest l more, cs = text ++ rest ∧ ls = l :: more ∧ Lexeme.ofText? text = some l ∧
      NoneLonger (text ++ rest) text.length ∧ Cut rest more) ∨
    (∃ c rest more, cs = c :: rest ∧ ls = .bad c :: more ∧ ¬ (c = ' ' ∨ c = '\t') ∧
      NoneLonger (c :: rest) 0 ∧ Cut rest more) := by
  cases h with
  | done => exact Or.inl ⟨rfl, rfl⟩
  | blank hb h => exact Or.inr (Or.inl ⟨_, _, rfl, hb, h⟩)
  | munch ht hmax h => exact Or.inr (Or.inr (Or.inl ⟨_, _, _, _, rfl, rfl, ht, hmax, h⟩))
  | bad hb hnone h => exact Or.inr (Or.inr (Or.inr ⟨_, _, _, rfl, rfl, hb, hnone, h⟩))

/-- Characters are cut into lexemes in one way only. -/
theorem cut_unique
    {ls' : List Lexeme}
    (h : Cut cs ls)
    (h' : Cut cs ls') :
    ls = ls' := by
  induction h generalizing ls' with
  | done =>
      rcases cut_cases h' with
        ⟨-, rfl⟩ | ⟨c, rest, heq, -⟩ | ⟨text, rest, l, more, heq, -, ht, -⟩ |
        ⟨c, rest, more, heq, -⟩
      · rfl
      · cases heq
      · obtain ⟨c, tail, rfl, -⟩ := exists_cons_of_ofText? ht
        cases heq
      · cases heq
  | @blank c cs ls hb h ih =>
      rcases cut_cases h' with
        ⟨heq, -⟩ | ⟨d, rest, heq, -, hrest⟩ | ⟨text, rest, l, more, heq, -, ht, -⟩ |
        ⟨d, rest, more, heq, -, hd, -⟩
      · cases heq
      · cases heq
        exact ih hrest
      · obtain ⟨d, tail, rfl, hd⟩ := exists_cons_of_ofText? ht
        cases heq
        exact absurd hb hd
      · cases heq
        exact absurd hb hd
  | @munch text cs l ls ht hmax h ih =>
      rcases cut_cases h' with
        ⟨heq, -⟩ | ⟨d, rest, heq, hd, -⟩ | ⟨text', rest, l', more, heq, rfl, ht', hmax', hrest⟩ |
        ⟨d, rest, more, heq, -, -, hnone, -⟩
      · obtain ⟨c, tail, rfl, -⟩ := exists_cons_of_ofText? ht
        cases heq
      · obtain ⟨c, tail, rfl, hc⟩ := exists_cons_of_ofText? ht
        cases heq
        exact absurd hd hc
      · obtain ⟨rfl, rfl, rfl⟩ := munch_unique heq ht hmax ht' hmax'
        rw [ih hrest]
      · have hlen : 0 < text.length := by
          obtain ⟨c, tail, rfl, -⟩ := exists_cons_of_ofText? ht
          simp
        have htext := hnone text (heq ▸ List.prefix_append text cs) hlen
        rw [ht] at htext
        cases htext
  | @bad c cs ls hb hnone h ih =>
      rcases cut_cases h' with
        ⟨heq, -⟩ | ⟨d, rest, heq, hd, -⟩ | ⟨text, rest, l, more, heq, rfl, ht, -, -⟩ |
        ⟨d, rest, more, heq, rfl, -, -, hrest⟩
      · cases heq
      · cases heq
        exact absurd hd hb
      · have hlen : 0 < text.length := by
          obtain ⟨c, tail, rfl, -⟩ := exists_cons_of_ofText? ht
          simp
        have htext := hnone text (heq ▸ List.prefix_append text rest) hlen
        rw [ht] at htext
        cases htext
      · cases heq
        rw [ih hrest]

end Cutting

end Microcode
