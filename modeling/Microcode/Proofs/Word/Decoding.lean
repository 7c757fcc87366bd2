import Microcode.Proofs.Text.Numerals
import Microcode.Word.Decode
import Microcode.Word.Format
import Mathlib.Data.List.TakeWhile

/-!
# Reading words back

**Input.**  A text.

**Algorithm.**  White space at both ends is dropped, then one `0b` in front.  What is
left must be 32 characters, all of them binary digits; the number that they spell is
the word.

`Text.Trims` and `DropsRadix` say what is dropped by taking the text apart, without a
direction in which it is searched; `Bares` puts the two together.

**Results.**
* `Text.isWhiteSpace_iff`: white space is what the table lists.
* `bares_iff`: exactly one list of characters is left of a text, and `decode_of_bares`:
  a text is read by what is left of it.
* `ofDigits_eq_ok_iff`, `ofDigits_eq_length_iff` and `ofDigits_eq_digit_iff`: when
  characters are a word, too few or too many, or hold a wrong digit.
* `toList_render`: a rendering is a mark and a numeral, hence `render_injective`.
* `decode_exact`: reading is exact and undoes the binary renderings.
-/

namespace Microcode

namespace Text

/-- A character whose code point lies in a range of the table of white space. -/
def IsWhite (c : Char) : Prop :=
  ∃ range ∈ whiteSpace, range.1 ≤ c.toNat ∧ c.toNat ≤ range.2

theorem isWhiteSpace_iff
    (c : Char) :
    isWhiteSpace c = true ↔ IsWhite c :=
  whiteSpace.contains_iff c

theorem isWhiteSpace_eq_false_iff
    (c : Char) :
    isWhiteSpace c = false ↔ ¬ IsWhite c := by
  rw [← isWhiteSpace_iff, Bool.not_eq_true]

instance : DecidablePred IsWhite := fun c =>
  decidable_of_iff (isWhiteSpace c = true) (isWhiteSpace_iff c)

/-- Characters that are all white space. -/
def White (cs : List Char) : Prop :=
  ∀ c ∈ cs, IsWhite c

instance (cs : List Char) : Decidable (White cs) :=
  decidable_of_iff (cs.all isWhiteSpace = true) (by simp [White, isWhiteSpace_iff])

/-- Characters without white space at either end. -/
structure Tight (cs : List Char) : Prop where
  head : ∀ c, cs.head? = some c → ¬ IsWhite c
  last : ∀ c, cs.getLast? = some c → ¬ IsWhite c

/-- The body of a text: what stands between the white space at its ends. -/
def Trims (text body : List Char) : Prop :=
  ∃ lead trail, text = lead ++ body ++ trail ∧ White lead ∧ White trail ∧ Tight body

section Trimming

variable {cs text body : List Char}

theorem tight_of_forall
    (h : ∀ c ∈ cs, ¬ IsWhite c) :
    Tight cs :=
  ⟨fun c hc => h c (List.mem_of_head? hc), fun c hc => h c (List.mem_of_getLast? hc)⟩

theorem White.isWhiteSpace
    (h : White cs)
    (c : Char)
    (hc : c ∈ cs) :
    isWhiteSpace c = true :=
  (isWhiteSpace_iff c).2 (h c hc)

theorem white_takeWhile
    (cs : List Char) :
    White (cs.takeWhile isWhiteSpace) :=
  fun c hc => (isWhiteSpace_iff c).1 (List.mem_takeWhile_imp hc)

/-- Nothing is dropped from characters that start without white space. -/
theorem dropWhile_of_head
    (h : ∀ c, cs.head? = some c → ¬ IsWhite c) :
    cs.dropWhile isWhiteSpace = cs := by
  cases cs with
  | nil =>
      rfl
  | cons c cs =>
      rw [List.dropWhile_cons_of_neg]
      rw [isWhiteSpace_iff]
      exact h c rfl

theorem head_dropWhile
    (cs : List Char)
    (c : Char)
    (hc : (cs.dropWhile isWhiteSpace).head? = some c) :
    ¬ IsWhite c := by
  have hnot := List.head?_dropWhile_not isWhiteSpace cs
  rw [hc] at hnot
  exact (isWhiteSpace_eq_false_iff c).1 hnot

/-- The text without white space at its ends is its body. -/
theorem trimmed_of_trims
    (h : Trims text body) :
    trimmed text = body := by
  obtain ⟨lead, trail, rfl, hlead, htrail, hbody⟩ := h
  rw [trimmed, List.append_assoc, List.dropWhile_append_of_pos hlead.isWhiteSpace]
  by_cases hnil : body = []
  · -- With no body, all of the text is white space.
    subst hnil
    have hdrop : trail.dropWhile isWhiteSpace = [] :=
      List.dropWhile_eq_nil_iff.2 htrail.isWhiteSpace
    rw [List.nil_append, hdrop]
    rfl
  · have hfront : ∀ c, (body ++ trail).head? = some c → ¬ IsWhite c := by
      intro c hc
      rw [List.head?_append_of_ne_nil body hnil] at hc
      exact hbody.head c hc
    have hback : ∀ c, body.reverse.head? = some c → ¬ IsWhite c := by
      intro c hc
      rw [List.head?_reverse] at hc
      exact hbody.last c hc
    have hwhite : ∀ c ∈ trail.reverse, isWhiteSpace c = true :=
      fun c hc => htrail.isWhiteSpace c (List.mem_reverse.1 hc)
    rw [dropWhile_of_head hfront, List.reverse_append, List.dropWhile_append_of_pos hwhite,
      dropWhile_of_head hback, List.reverse_reverse]

/-- Every text has a body. -/
theorem trims_trimmed
    (text : List Char) :
    Trims text (trimmed text) := by
  let rest := text.dropWhile isWhiteSpace
  let trail := (rest.reverse.takeWhile isWhiteSpace).reverse
  have hrest : rest = trimmed text ++ trail := by
    rw [trimmed, ← List.reverse_append, List.takeWhile_append_dropWhile, List.reverse_reverse]
  refine ⟨text.takeWhile isWhiteSpace, trail, ?_, ?_, ?_, ?_, ?_⟩
  · rw [List.append_assoc, ← hrest, List.takeWhile_append_dropWhile]
  · exact white_takeWhile text
  · intro c hc
    exact white_takeWhile rest.reverse c (List.mem_reverse.1 hc)
  · intro c hc
    apply head_dropWhile text c
    show rest.head? = some c
    rw [hrest, List.head?_append, hc]
    rfl
  · intro c hc
    rw [trimmed, List.getLast?_reverse] at hc
    exact head_dropWhile _ c hc

end Trimming

end Text

/-- What is left of some characters without one leading `0b`. -/
inductive DropsRadix : List Char → List Char → Prop
  | marked {digits : List Char} : DropsRadix ('0' :: 'b' :: digits) digits
  | plain {digits : List Char} : ¬ ['0', 'b'] <+: digits → DropsRadix digits digits

/-- What is left of a text without white space at its ends and then without one
leading `0b`. -/
def Bares (text digits : List Char) : Prop :=
  ∃ body, Text.Trims text body ∧ DropsRadix body digits

section Baring

variable {text body digits : List Char}

theorem skipRadix_of_dropsRadix
    (h : DropsRadix body digits) :
    skipRadix body = digits := by
  cases h with
  | marked =>
      rfl
  | plain hnot =>
      unfold skipRadix
      split
      · next rest => exact absurd ⟨rest, rfl⟩ hnot
      · rfl

theorem dropsRadix_skipRadix
    (body : List Char) :
    DropsRadix body (skipRadix body) := by
  by_cases hmark : ['0', 'b'] <+: body
  · obtain ⟨digits, rfl⟩ := hmark
    exact .marked
  · have hplain : DropsRadix body body := .plain hmark
    rwa [skipRadix_of_dropsRadix hplain]

/-- Exactly one list of characters is left of a text. -/
theorem bares_iff :
    Bares text digits ↔ digits = skipRadix (Text.trimmed text) := by
  constructor
  · rintro ⟨body, htrims, hdrops⟩
    rw [Text.trimmed_of_trims htrims, skipRadix_of_dropsRadix hdrops]
  · rintro rfl
    exact ⟨_, Text.trims_trimmed text, dropsRadix_skipRadix _⟩

/-- A text is read by what is left of it. -/
theorem decode_of_bares
    {s : String}
    (h : Bares s.toList digits) :
    ControlWord.decode s = ControlWord.ofDigits digits := by
  rw [ControlWord.decode, bares_iff.1 h]

end Baring

/-- Characters that are all binary digits. -/
def Binary (cs : List Char) : Prop :=
  ∀ c ∈ cs, c = '0' ∨ c = '1'

section Digits

variable {cs : List Char}

theorem isBinaryDigit_iff
    (c : Char) :
    isBinaryDigit c = true ↔ c = '0' ∨ c = '1' := by
  simp [isBinaryDigit]

/-- Reading from the left gives each digit the weight of its place. -/
theorem ofDigitChars_eq_value
    (h : Binary cs)
    (n : Nat) :
    Nat.ofDigitChars 2 cs n = n * 2 ^ cs.length + Text.value 2 cs := by
  induction cs generalizing n with
  | nil =>
      simp
  | cons c cs ih =>
      have hdigit : c.toNat - '0'.toNat = Text.digitValue c := by
        rcases h c (List.mem_cons_self ..) with rfl | rfl <;> decide
      rw [Nat.ofDigitChars_cons, ih fun d hd => h d (List.mem_cons_of_mem _ hd), hdigit,
        Text.value_cons, List.length_cons, pow_succ]
      ring

theorem value_lt
    (h : Binary cs) :
    Text.value 2 cs < 2 ^ cs.length := by
  induction cs with
  | nil =>
      simp
  | cons c cs ih =>
      have hrest := ih fun d hd => h d (List.mem_cons_of_mem _ hd)
      have hdigit : Text.digitValue c ≤ 1 := by
        rcases h c (List.mem_cons_self ..) with rfl | rfl <;> decide
      have hfront : Text.digitValue c * 2 ^ cs.length ≤ 1 * 2 ^ cs.length :=
        Nat.mul_le_mul_right _ hdigit
      rw [Text.value_cons, List.length_cons, pow_succ]
      omega

/-- The three outcomes of reading digits. -/
theorem ofDigits_cases
    (cs : List Char) :
    (cs.length ≠ 32 ∧ ControlWord.ofDigits cs = .error (.length cs.length)) ∨
      (cs.length = 32 ∧ ∃ c, ControlWord.ofDigits cs = .error (.digit c) ∧
        ∃ before after, cs = before ++ c :: after ∧ Binary before ∧ c ≠ '0' ∧ c ≠ '1') ∨
      (cs.length = 32 ∧ Binary cs ∧
        ∃ w, ControlWord.ofDigits cs = .ok w ∧ Text.value 2 cs = w.bits.toNat) := by
  unfold ControlWord.ofDigits
  by_cases hlength : cs.length = 32
  · rw [if_neg (not_not.2 hlength)]
    cases hfind : cs.find? (fun c => !isBinaryDigit c) with
    | some c =>
        obtain ⟨hc, before, after, hcs, hbefore⟩ := List.find?_eq_some_iff_append.1 hfind
        have hwrong : ¬ (c = '0' ∨ c = '1') := by
          rw [← isBinaryDigit_iff]
          simpa using hc
        refine Or.inr (Or.inl ⟨hlength, c, rfl, before, after, hcs, fun d hd => ?_, ?_⟩)
        · exact (isBinaryDigit_iff d).1 (by simpa using hbefore d hd)
        · exact not_or.1 hwrong
    | none =>
        have hbinary : Binary cs := by
          intro c hc
          exact (isBinaryDigit_iff c).1 (by simpa using List.find?_eq_none.1 hfind c hc)
        have hlt := value_lt hbinary
        rw [hlength] at hlt
        refine Or.inr (Or.inr ⟨hlength, hbinary, _, rfl, ?_⟩)
        rw [ofDigitChars_eq_value hbinary, Nat.zero_mul, Nat.zero_add, UInt32.toNat_ofNat']
        exact (Nat.mod_eq_of_lt hlt).symm
  · exact Or.inl ⟨hlength, if_pos hlength⟩

theorem bits_injective
    {w u : ControlWord}
    (h : w.bits.toNat = u.bits.toNat) :
    w = u := by
  cases w
  cases u
  exact congrArg ControlWord.mk (UInt32.toNat_inj.1 h)

theorem ofDigits_eq_ok_iff
    {w : ControlWord} :
    ControlWord.ofDigits cs = .ok w ↔
      cs.length = 32 ∧ Binary cs ∧ Text.value 2 cs = w.bits.toNat := by
  rcases ofDigits_cases cs with ⟨hlength, hcs⟩ | ⟨-, c, hcs, before, after, rfl, -, hzero, hone⟩ |
    ⟨hlength, hbinary, u, hcs, hvalue⟩
  · simp [hcs, hlength]
  · have hnot : ¬ Binary (before ++ c :: after) := by
      intro hbinary
      rcases hbinary c (by simp) with rfl | rfl
      · exact hzero rfl
      · exact hone rfl
    simp [hcs, hnot]
  · rw [hcs, hvalue]
    constructor
    · rintro ⟨⟩
      exact ⟨hlength, hbinary, rfl⟩
    · rintro ⟨-, -, hbits⟩
      rw [bits_injective hbits]

theorem ofDigits_eq_length_iff
    {n : Nat} :
    ControlWord.ofDigits cs = .error (.length n) ↔ cs.length = n ∧ n ≠ 32 := by
  rcases ofDigits_cases cs with ⟨hlength, hcs⟩ | ⟨hlength, c, hcs, -⟩ | ⟨hlength, -, w, hcs, -⟩
  · rw [hcs]
    constructor
    · rintro ⟨⟩
      exact ⟨rfl, hlength⟩
    · rintro ⟨rfl, -⟩
      rfl
  · simp only [hcs, hlength, Except.error.injEq, reduceCtorEq, false_iff]
    omega
  · simp only [hcs, hlength, reduceCtorEq, false_iff]
    omega

/-- Two splittings at the first wrong digit find the same digit. -/
theorem first_wrong_unique
    {before before' after after' : List Char}
    {c c' : Char}
    (heq : before ++ c :: after = before' ++ c' :: after')
    (hbefore : Binary before)
    (hc : ¬ (c = '0' ∨ c = '1'))
    (hbefore' : Binary before')
    (hc' : ¬ (c' = '0' ∨ c' = '1')) :
    c = c' := by
  rcases List.append_eq_append_iff.1 heq with ⟨rest, rfl, hrest⟩ | ⟨rest, rfl, hrest⟩
  · cases rest with
    | nil => exact (List.cons.inj hrest).1
    | cons d rest =>
        obtain ⟨rfl, -⟩ := List.cons.inj hrest
        exact absurd (hbefore' c (by simp)) hc
  · cases rest with
    | nil => exact (List.cons.inj hrest).1.symm
    | cons d rest =>
        obtain ⟨rfl, -⟩ := List.cons.inj hrest
        exact absurd (hbefore c' (by simp)) hc'

theorem ofDigits_eq_digit_iff
    {c : Char} :
    ControlWord.ofDigits cs = .error (.digit c) ↔
      cs.length = 32 ∧
        ∃ before after, cs = before ++ c :: after ∧ Binary before ∧ c ≠ '0' ∧ c ≠ '1' := by
  rcases ofDigits_cases cs with ⟨hlength, hcs⟩ |
    ⟨hlength, d, hcs, before, after, hsplit, hbefore, hd⟩ | ⟨-, hbinary, w, hcs, -⟩
  · simp [hcs, hlength]
  · rw [hcs]
    constructor
    · rintro ⟨⟩
      exact ⟨hlength, before, after, hsplit, hbefore, hd⟩
    · rintro ⟨-, before', after', hsplit', hbefore', hc⟩
      rw [first_wrong_unique (hsplit.symm.trans hsplit') hbefore (not_or.2 hd) hbefore'
        (not_or.2 hc)]
  · rw [hcs]
    constructor
    · rintro ⟨⟩
    · rintro ⟨-, before, after, rfl, -, hzero, hone⟩
      rcases hbinary c (by simp) with rfl | rfl
      · exact absurd rfl hzero
      · exact absurd rfl hone

end Digits

section Renderings

namespace WordFormat

/-- What stands in front of the numeral of a word. -/
def mark : WordFormat → List Char
  | binary => []
  | literal => ['0', 'b']
  | hex => ['0', 'x']
  | decimal => []

/-- The base of the numeral of a word. -/
def base : WordFormat → Nat
  | binary => 2
  | literal => 2
  | hex => 16
  | decimal => 10

/-- The least width of the numeral of a word. -/
def width : WordFormat → Nat
  | binary => 32
  | literal => 32
  | hex => 8
  | decimal => 0

theorem base_bounds
    (format : WordFormat) :
    1 < format.base ∧ format.base ≤ 16 := by
  cases format <;> decide

/-- A rendering is a mark and a numeral. -/
theorem toList_render
    (format : WordFormat)
    (w : ControlWord) :
    (format.render w).toList =
      format.mark ++ Text.numeral format.base format.width w.bits.toNat := by
  cases format with
  | binary => exact String.toList_ofList
  | literal => simp [render, ControlWord.binary, mark, base, width]
  | hex => simp [render, mark, base, width]
  | decimal => simp [render, mark, base, width, Text.numeral, List.leftpad]

/-- Two words do not share a rendering. -/
theorem render_injective
    (format : WordFormat) :
    Function.Injective format.render := by
  intro w u h
  have hchars := congrArg String.toList h
  rw [toList_render, toList_render] at hchars
  have hnumeral := List.append_cancel_left hchars
  exact bits_injective (Text.numeral_injective format.base_bounds.1 format.base_bounds.2 _ hnumeral)

theorem not_isWhite_digitChar
    {d : Nat}
    (h : d < 16) :
    ¬ Text.IsWhite d.digitChar := by
  interval_cases d <;> decide

/-- A rendering holds no white space. -/
theorem tight_render
    (format : WordFormat)
    (w : ControlWord) :
    Text.Tight (format.render w).toList := by
  apply Text.tight_of_forall
  intro c hc
  rw [toList_render] at hc
  rcases List.mem_append.1 hc with hmark | hdigit
  · have hall : format.mark.all (fun c => !Text.isWhiteSpace c) = true := by
      cases format <;> decide
    rw [← Text.isWhiteSpace_eq_false_iff]
    simpa using List.all_eq_true.1 hall c hmark
  · obtain ⟨d, hd, rfl⟩ := Text.exists_of_mem_numeral format.base_bounds.1 hdigit
    exact not_isWhite_digitChar (Nat.lt_of_lt_of_le hd format.base_bounds.2)

/-- A rendering between white space is read by its own characters. -/
theorem decode_render
    {format : WordFormat}
    {w : ControlWord}
    {digits : List Char}
    (h : DropsRadix (format.render w).toList digits)
    {lead trail : String}
    (hlead : Text.White lead.toList)
    (htrail : Text.White trail.toList) :
    ControlWord.decode (lead ++ format.render w ++ trail) = ControlWord.ofDigits digits := by
  apply decode_of_bares
  refine ⟨_, ⟨lead.toList, trail.toList, ?_, hlead, htrail, format.tight_render w⟩, h⟩
  rw [String.toList_append, String.toList_append]

end WordFormat

variable (w : ControlWord)

theorem binary_numeral
    (width n : Nat) :
    Binary (Text.numeral 2 width n) := by
  intro c hc
  obtain ⟨d, hd, rfl⟩ := Text.exists_of_mem_numeral (by decide) hc
  interval_cases d
  · exact Or.inl rfl
  · exact Or.inr rfl

/-- The binary digits of a word are read as that word. -/
theorem ofDigits_numeral :
    ControlWord.ofDigits (Text.numeral 2 32 w.bits.toNat) = .ok w :=
  ofDigits_eq_ok_iff.2 ⟨Text.length_numeral_of_lt (by decide) (by decide) w.bits.toNat_lt,
    binary_numeral _ _, Text.value_numeral (by decide) (by decide) _ _⟩

/-- The mark `0b` does not stand in front of characters among which there is no `b`. -/
theorem dropsRadix_of_not_mem
    {cs : List Char}
    (h : 'b' ∉ cs) :
    DropsRadix cs cs :=
  .plain fun hmark => h (hmark.mem (by simp))

theorem dropsRadix_binary :
    DropsRadix (WordFormat.binary.render w).toList (Text.numeral 2 32 w.bits.toNat) := by
  rw [WordFormat.toList_render]
  apply dropsRadix_of_not_mem
  intro hb
  rcases binary_numeral _ _ _ hb with heq | heq <;> cases heq

theorem dropsRadix_literal :
    DropsRadix (WordFormat.literal.render w).toList (Text.numeral 2 32 w.bits.toNat) := by
  rw [WordFormat.toList_render]
  exact .marked

theorem dropsRadix_hex :
    DropsRadix (WordFormat.hex.render w).toList (WordFormat.hex.render w).toList := by
  apply DropsRadix.plain
  rw [WordFormat.toList_render]
  simp [WordFormat.mark]

theorem dropsRadix_decimal :
    DropsRadix (WordFormat.decimal.render w).toList (WordFormat.decimal.render w).toList := by
  apply dropsRadix_of_not_mem
  rw [WordFormat.toList_render]
  intro hb
  obtain ⟨d, hd, heq⟩ := Text.exists_of_mem_numeral (by decide) hb
  have hten : d < 10 := hd
  interval_cases d <;> cases heq

/-- The hexadecimal and the decimal rendering are too short for a word. -/
theorem length_render_lt :
    (WordFormat.hex.render w).toList.length < 32 ∧
      (WordFormat.decimal.render w).toList.length < 32 := by
  have hhex : (Text.numeral 16 8 w.bits.toNat).length = 8 :=
    Text.length_numeral_of_lt (by decide) (by decide) w.bits.toNat_lt
  have hdecimal : (Nat.toDigits 10 w.bits.toNat).length ≤ 10 := by
    apply (Nat.length_toDigits_le_iff (by decide) (by decide)).2
    exact Nat.lt_trans w.bits.toNat_lt (by decide)
  rw [WordFormat.toList_render, WordFormat.toList_render, List.length_append, List.length_append]
  constructor
  · show 2 + (Text.numeral 16 8 w.bits.toNat).length < 32
    omega
  · show 0 + (Text.numeral 10 0 w.bits.toNat).length < 32
    rw [Text.length_numeral]
    omega

theorem ofDigits_ne_ok_of_length
    {cs : List Char}
    (h : cs.length < 32)
    (u : ControlWord) :
    ControlWord.ofDigits cs ≠ .ok u := by
  intro hok
  have hlength := (ofDigits_eq_ok_iff.1 hok).1
  omega

end Renderings

/-- **Reading words is exact and undoes the binary renderings.**  Let `t` be what is left
of a text without white space at its ends and then without one leading `0b`.  The text
is read as a word if and only if `t` is 32 binary digits that spell the word from the
greatest weight on; its length is refused if and only if it is not 32; and a character
is refused if and only if `t` has 32 characters of which it is the first that is no
binary digit.  The two binary renderings of a word, with any white space around them,
are read as that word, and the other two never as any word.  No format renders two
words alike. -/
theorem decode_exact :
    (∀ s : String, ∃ t, (∀ u, Bares s.toList u ↔ u = t) ∧
      (∀ w, ControlWord.decode s = .ok w ↔
        t.length = 32 ∧ Binary t ∧ Text.value 2 t = w.bits.toNat) ∧
      (∀ n, ControlWord.decode s = .error (.length n) ↔ t.length = n ∧ n ≠ 32) ∧
      ∀ c, ControlWord.decode s = .error (.digit c) ↔
        t.length = 32 ∧
          ∃ before after, t = before ++ c :: after ∧ Binary before ∧ c ≠ '0' ∧ c ≠ '1') ∧
    (∀ (w : ControlWord) (lead trail : String),
      Text.White lead.toList → Text.White trail.toList →
      ControlWord.decode (lead ++ WordFormat.binary.render w ++ trail) = .ok w ∧
      ControlWord.decode (lead ++ WordFormat.literal.render w ++ trail) = .ok w ∧
      ∀ u, ControlWord.decode (lead ++ WordFormat.hex.render w ++ trail) ≠ .ok u ∧
        ControlWord.decode (lead ++ WordFormat.decimal.render w ++ trail) ≠ .ok u) ∧
    ∀ format : WordFormat, Function.Injective format.render := by
  refine ⟨fun s => ⟨_, fun u => bares_iff, ?_, ?_, ?_⟩, ?_, WordFormat.render_injective⟩
  · intro w
    exact ofDigits_eq_ok_iff
  · intro n
    exact ofDigits_eq_length_iff
  · intro c
    exact ofDigits_eq_digit_iff
  · intro w lead trail hlead htrail
    refine ⟨?_, ?_, fun u => ⟨?_, ?_⟩⟩
    · rw [WordFormat.decode_render (dropsRadix_binary w) hlead htrail, ofDigits_numeral]
    · rw [WordFormat.decode_render (dropsRadix_literal w) hlead htrail, ofDigits_numeral]
    · rw [WordFormat.decode_render (dropsRadix_hex w) hlead htrail]
      exact ofDigits_ne_ok_of_length (length_render_lt w).1 u
    · rw [WordFormat.decode_render (dropsRadix_decimal w) hlead htrail]
      exact ofDigits_ne_ok_of_length (length_render_lt w).2 u

/-- White space of several kinds stands around two renderings of one word. -/
theorem decode_exact_spaced :
    let w : ControlWord := ⟨0x00C00000⟩
    Text.White "\t\u2003".toList ∧ Text.White "\u3000\n".toList ∧
      ControlWord.decode ("\t\u2003" ++ WordFormat.literal.render w ++ "\u3000\n") = .ok w ∧
      ∀ u, ControlWord.decode ("\t\u2003" ++ WordFormat.hex.render w ++ "\u3000\n") ≠ .ok u := by
  intro w
  have hlead : Text.White "\t\u2003".toList := by decide
  have htrail : Text.White "\u3000\n".toList := by decide
  obtain ⟨-, hread, -⟩ := decode_exact
  obtain ⟨-, hliteral, hother⟩ := hread w "\t\u2003" "\u3000\n" hlead htrail
  exact ⟨hlead, htrail, hliteral, fun u => (hother u).1⟩

/-- Only one `0b` is skipped, and the length is checked before the digits. -/
example :
    ControlWord.decode "0b0b00000000000000000000000000000" = .error (.length 31) ∧
      ControlWord.decode "\t0b0b000000000000000000000000000000 " = .error (.digit 'b') := by
  decide +kernel

end Microcode
