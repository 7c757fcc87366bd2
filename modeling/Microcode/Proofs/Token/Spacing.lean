import Microcode.Proofs.Program.RoundTrip
import Microcode.Proofs.Token.Extents

/-!
# Spacing does not matter

**Input.**  A source that is read without errors, and a text that holds the texts of
its tokens with blanks between them.

**Algorithm.**  Blanks behind every token but the last keep the lexemes of the tokens
apart, line ends included.  What a lexeme is read as depends on the token before it and
on the lexeme after it, and these are as they were.  The last token is a line end, so
the new text ends where its last line does.

**Results.**
* `Placed.value_of_getLast?`: the last token of characters that end a line is a line end.
* `cut_of_spaced`: tokens with blanks between them are cut into their lexemes, also if
  some of them are line ends.
* `tokens_respaced`: the tokens of the new text have the same values.
-/

namespace Microcode

/-- The ways to write some tokens with blanks between them; there is one way to write
no tokens. -/
def SpacedText (ts : List Token) (text : String) : Prop :=
  (ts = [] ∧ text = "") ∨ Spaced ts text.toList

section LastToken

variable {p : Position} {cs : List Char} {ts : List (Located Token)} {s : Source}

/-- Characters that end a line and hold no token are none. -/
theorem Placed.eq_nil_of_nil
    (h : Placed p cs [])
    (hlast : ∀ c, cs.getLast? = some c → c = '\n') :
    cs = [] := by
  rcases List.eq_nil_or_concat' cs with hnil | ⟨front, c, rfl⟩
  · exact hnil
  · have hc : c = '\n' := hlast c List.getLast?_concat
    rcases h.blank_or_covered rfl with hb | ⟨t, ht, -⟩
    · rw [hc] at hb
      exact absurd hb (by decide)
    · cases ht

/-- The last token of characters that end a line is a line end. -/
theorem Placed.value_of_getLast?
    (h : Placed p cs ts)
    (hlast : ∀ c, cs.getLast? = some c → c = '\n')
    {t : Located Token}
    (ht : ts.getLast? = some t) :
    t.value = .newline := by
  induction h with
  | done =>
      cases ht
  | @blank p d cs ts hb h ih =>
      exact ih (fun c hc => hlast c (by rw [List.getLast?_cons, hc]; rfl)) ht
  | @token p token text cs ts hl hmax h ih =>
      have hrest : ∀ c, cs.getLast? = some c → c = '\n' :=
        fun c hc => hlast c (by rw [List.getLast?_append, hc]; rfl)
      cases ts with
      | nil =>
          -- Nothing follows this token, so the last line feed is part of it.
          obtain rfl := h.eq_nil_of_nil hrest
          obtain rfl := Option.some.inj ht
          by_contra hvalue
          obtain ⟨c, tail, rfl, -⟩ := exists_cons_of_ofText? hl
          have hend := List.getLast?_eq_some_getLast (List.cons_ne_nil c tail)
          have hnewline := hlast _ (by rw [List.append_nil]; exact hend)
          exact not_mem_of_ofText? hl hvalue (hnewline ▸ List.getLast_mem _)
      | cons u us =>
          exact ih hrest (by rwa [List.getLast?_cons_cons] at ht)

/-- The last token of a source is a line end. -/
theorem getLast?_of_tokens
    (h : s.tokens = .ok ts)
    (hne : ts ≠ []) :
    (ts.map Located.value).getLast? = some .newline := by
  have hlast := List.getLast?_eq_some_getLast hne
  have hvalue := (placed_of_tokens h).value_of_getLast?
    (fun c hc => eq_newline_of_getLast? (hc : (joinLines s.lines).getLast? = _)) hlast
  rw [List.getLast?_map, hlast, Option.map_some, hvalue]

end LastToken

section Spacing

variable {ts : List Token} {body : List Char}

/-- Tokens that a source can hold: a label is a name. -/
def Token.Readable (t : Token) : Prop :=
  t = .newline ∨ t.Writable

theorem readable_of_mem_tokens
    {s : Source}
    {us : List (Located Token)}
    (h : s.tokens = .ok us) :
    ∀ t ∈ us.map Located.value, t.Readable := by
  intro t ht
  obtain ⟨u, hu, rfl⟩ := List.mem_map.1 ht
  cases hvalue : u.value with
  | label name => exact Or.inr (isName_of_mem_tokens h hu hvalue)
  | newline => exact Or.inl rfl
  | _ => exact Or.inr trivial

theorem Spaced.ne_nil
    (h : Spaced ts body) :
    ts ≠ [] := by
  cases h <;> simp

/-- A token in front of a blank or of nothing is cut off as its lexeme. -/
theorem cut_readable
    {t : Token}
    {cs : List Char}
    {ls : List Lexeme}
    (ht : t.Readable)
    (hblank : ∀ c, cs.head? = some c → c = ' ' ∨ c = '\t')
    (h : Cut cs ls) :
    Cut (t.text.toList ++ cs) (t.lexeme :: ls) := by
  rcases ht with rfl | ht
  · have hnext : cs.head? ≠ some '\n' := fun hhead => absurd (hblank _ hhead) (by decide)
    show Cut (['\n'] ++ cs) (.newlines :: ls)
    exact cut_newlines (by simp) (by simp) hnext h
  · exact cut_token ht (fun c hc => (hblank c hc).imp_right Or.inl) h

/-- Tokens with blanks between them are cut into their lexemes, also if some of them are
line ends. -/
theorem cut_of_spaced
    (h : Spaced ts body)
    (hts : ∀ t ∈ ts, t.Readable) :
    Cut body (ts.map Token.lexeme) := by
  induction h with
  | single t =>
      have hcut := cut_readable (hts t (List.mem_singleton_self t)) (by simp) .done
      rwa [List.append_nil] at hcut
  | @cons t ts blanks body hb hne hbody ih =>
      have hrest := ih fun u hu => hts u (List.mem_cons_of_mem _ hu)
      rw [List.append_assoc]
      refine cut_readable (hts t (List.mem_cons_self ..)) ?_ (cut_blanks hb hrest)
      obtain ⟨c, blanks, rfl⟩ := List.exists_cons_of_ne_nil hne
      intro d hd
      obtain rfl : c = d := Option.some.inj hd
      exact hb c (List.mem_cons_self ..)

/-- A text that ends with a line end ends a line. -/
theorem getLast?_of_spaced
    (h : Spaced ts body)
    (hlast : ts.getLast? = some .newline) :
    body.getLast? = some '\n' := by
  induction h with
  | single t =>
      obtain rfl : t = .newline := Option.some.inj hlast
      rfl
  | @cons t ts blanks body hb hne hbody ih =>
      obtain ⟨u, us, rfl⟩ := List.exists_cons_of_ne_nil hbody.ne_nil
      rw [List.getLast?_cons_cons] at hlast
      rw [List.getLast?_append, ih hlast, Option.some_or]

/-- No carriage return is written. -/
theorem not_mem_return_of_spaced
    (h : Spaced ts body)
    (hts : ∀ t ∈ ts, t.Readable) :
    '\r' ∉ body := by
  have htext : ∀ t : Token, t.Readable → '\r' ∉ t.text.toList := by
    rintro t (rfl | ht) hmem
    · exact absurd hmem (by decide)
    · exact ((plain_text ht).2 _ hmem).2 rfl
  induction h with
  | single t =>
      exact htext t (hts t (List.mem_singleton_self t))
  | @cons t ts blanks body hb hne hbody ih =>
      have hfirst := htext t (hts t (List.mem_cons_self ..))
      have hblanks : '\r' ∉ blanks := fun hmem => (plain_of_blanks hb _ hmem).2 rfl
      have hrest := ih fun u hu => hts u (List.mem_cons_of_mem _ hu)
      simp only [List.mem_append, not_or]
      exact ⟨⟨hfirst, hblanks⟩, hrest⟩

/-- Lexemes that are read as some tokens without an error are those of every source
whose characters are cut into them. -/
theorem exists_tokens_of_cut
    {s : Source}
    {ls : List Lexeme}
    (h : Cut s.chars ls)
    (hread : Lexeme.readAll none ls = (ts, none)) :
    ∃ us, s.tokens = .ok us ∧ us.map Located.value = ts := by
  have hvalues : s.reading.values = (ts, none) := by
    rw [← hread, ← run_of_cut h none .start]
    rfl
  obtain ⟨htokens, herror⟩ := Prod.mk.inj hvalues
  exact ⟨_, tokens_eq_ok_iff.2 ⟨Option.map_eq_none_iff.1 herror, rfl⟩, htokens⟩

/-- **Spacing does not matter.**  The tokens of a source, written in their order with
one or more blanks between them, are read as tokens of the same values. -/
theorem tokens_respaced
    {s : Source}
    {us : List (Located Token)}
    (h : s.tokens = .ok us)
    (name : String)
    {text : String}
    (htext : SpacedText (us.map Located.value) text) :
    ∃ vs, (Source.mk name text).tokens = .ok vs ∧
      vs.map Located.value = us.map Located.value := by
  have hread := readAll_of_tokens h
  have hreadable := readable_of_mem_tokens h
  rcases htext with ⟨hnil, rfl⟩ | hspaced
  · rw [hnil]
    exact exists_tokens_of_cut .done rfl
  · have hne : us ≠ [] := by
      rintro rfl
      exact hspaced.ne_nil rfl
    have hlast := getLast?_of_spaced hspaced (getLast?_of_tokens h hne)
    -- The new text ends its last line itself, so nothing is added to it.
    have hchars : (Source.mk name text).chars = text.toList := by
      refine normalized_of_newlines (not_mem_return_of_spaced hspaced hreadable) fun c hc => ?_
      exact Option.some.inj (hc.symm.trans hlast)
    have hcut := cut_of_spaced hspaced hreadable
    rw [← hchars, List.map_map] at hcut
    exact exists_tokens_of_cut hcut hread

/-- A line that no program has, with `a` as a register and as a label, and a line of
blanks below it. -/
theorem tokens_respaced_misplaced :
    ∃ us, (Source.mk "m" "a:=a:\r\n \n").tokens = .ok us ∧
      SpacedText (us.map Located.value) "a :=\ta : \n \n" ∧
      ∃ vs, (Source.mk "m" "a :=\ta : \n \n").tokens = .ok vs ∧
        vs.map Located.value = us.map Located.value := by
  let us : List (Located Token) :=
    [⟨.register .a, .point ⟨1, 1⟩⟩, ⟨.assign, ⟨⟨1, 2⟩, ⟨1, 3⟩⟩⟩, ⟨.label "a", .point ⟨1, 4⟩⟩,
      ⟨.colon, .point ⟨1, 5⟩⟩, ⟨.newline, .point ⟨1, 6⟩⟩, ⟨.newline, .point ⟨2, 2⟩⟩]
  have hus : (Source.mk "m" "a:=a:\r\n \n").tokens = .ok us := by decide +kernel
  have htab : Blanks ['\t'] := by simp [Blanks]
  have hlabel := (((Spaced.single .newline).cons_space .newline).cons_space .colon).cons_space
    (.label "a")
  have htext : SpacedText (us.map Located.value) "a :=\ta : \n \n" :=
    Or.inr ((hlabel.cons .assign htab (by simp)).cons_space (.register .a))
  exact ⟨us, hus, htext, tokens_respaced hus "m" htext⟩

end Spacing

end Microcode
