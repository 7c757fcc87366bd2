import Microcode.Proofs.Program.RoundTrip
import Microcode.Proofs.Program.Transport
import Microcode.Proofs.Token.Layout
import Microcode.Proofs.Token.Lines

/-!
# Renaming the labels of a text

**Input.**  A source without lexical errors and a map of names.

**Algorithm.**  `Source.renamed` goes over the characters of the text with their
places.  The first character of a label becomes its new name, the other
characters of labels vanish, and all other characters stay as they are, line ends
included.

**Results.**
* `cut_renamedFrom`: the new characters are cut into the lexemes of the renamed
  tokens.
* `chars_renamed`: renaming in the text is renaming in the characters that are
  read from it, although those have other line ends.
* `readAll_rename`: the lexemes of renamed tokens are read as these tokens,
  because a place where a name is a label does not depend on the name.
* `tokens_renamed`: so the new text has the renamed tokens.
-/

namespace Microcode

section Definitions

/-- The names of the labels among some tokens. -/
def labelNames (ts : List (Located Token)) : Set String :=
  {name | ∃ t ∈ ts, t.value = .label name}

/-- The first label that spans a place. -/
def labelAt? (ts : List (Located Token)) (p : Position) : Option (Located String) :=
  ts.findSome? fun t =>
    match t.value with
    | .label name =>
        if t.span.first ≤ p ∧ p ≤ t.span.last then some ⟨name, t.span⟩ else none
    | _ => none

/-- What becomes of a character at a place: the first one of a label becomes the new
name, the others of a label vanish, and any other stays. -/
def renamedChar (f : String → String) (ts : List (Located Token)) (p : Position) (c : Char) :
    List Char :=
  match labelAt? ts p with
  | some l => if p = l.span.first then (f l.value).toList else []
  | none => [c]

/-- What becomes of the characters from a place on. -/
def renamedFrom (f : String → String) (ts : List (Located Token)) :
    Position → List Char → List Char
  | _, [] => []
  | p, c :: cs => renamedChar f ts p c ++ renamedFrom f ts (p.after c) cs

/-- The source in whose text the name of every label is replaced by its image. -/
def Source.renamed (f : String → String) (s : Source) : Source :=
  ⟨s.name, String.ofList (renamedFrom f s.reading.tokens .start s.text.toList)⟩

end Definitions

variable {f : String → String} {ts before : List (Located Token)} {p q : Position}
  {cs ds text : List Char}

section Characters

/-- No label spans a place from the first one up to the second. -/
def Clear (ts : List (Located Token)) (p q : Position) : Prop :=
  ∀ t ∈ ts, ∀ name, t.value = .label name → t.span.last < p ∨ q ≤ t.span.first

theorem labelAt?_eq_some
    {l : Located String}
    (h : labelAt? ts p = some l) :
    ∃ t ∈ ts, t.value = .label l.value ∧ t.span = l.span ∧ l.span.first ≤ p ∧ p ≤ l.span.last := by
  obtain ⟨t, ht, hl⟩ := List.exists_of_findSome?_eq_some h
  split at hl
  · next name hname =>
      split at hl
      · next hspan =>
          cases hl
          exact ⟨t, ht, hname, rfl, hspan⟩
      · cases hl
  · cases hl

theorem labelAt?_of_clear
    (h : Clear ts p q)
    (hlt : p < q) :
    labelAt? ts p = none := by
  cases hl : labelAt? ts p with
  | none =>
      rfl
  | some l =>
      obtain ⟨t, ht, hname, hspan, hfirst, hlast⟩ := labelAt?_eq_some hl
      rcases h t ht _ hname with hbefore | hafter
      · exact absurd (hspan ▸ hbefore) (not_lt_of_ge hlast)
      · exact absurd (lt_of_lt_of_le hlt (hspan ▸ hafter)) (not_lt_of_ge hfirst)

/-- Tokens that end before a place. -/
def Passed (before : List (Located Token)) (p : Position) : Prop :=
  ∀ t ∈ before, t.span.last < p

theorem passed_nil
    (p : Position) :
    Passed [] p := by
  simp [Passed]

theorem Passed.mono
    (h : Passed before p)
    (hle : p ≤ q) :
    Passed before q :=
  fun t ht => lt_of_lt_of_le (h t ht) hle

theorem Passed.append_token
    (h : Passed before p)
    (t : Token)
    (hne : text ≠ []) :
    Passed (before ++ [⟨t, .cover p text⟩]) (p.advance text) := by
  intro u hu
  rcases List.mem_append.1 hu with hu | hu
  · exact h.mono (p.le_advance text) u hu
  · rw [List.mem_singleton.1 hu]
    exact Span.cover_last_lt p hne

/-- A label is found at the places that it spans, if the tokens before it are passed. -/
theorem labelAt?_of_span
    {name : String}
    {span : Span}
    (hbefore : Passed before p)
    (hspan : span.first ≤ p ∧ p ≤ span.last) :
    labelAt? (before ++ ⟨.label name, span⟩ :: ts) p = some ⟨name, span⟩ := by
  have hnone : labelAt? before p = none :=
    labelAt?_of_clear (fun t ht _ _ => Or.inl (hbefore t ht)) (p.lt_after ' ')
  rw [labelAt?] at hnone ⊢
  rw [List.findSome?_append, hnone, Option.none_or, List.findSome?_cons]
  simp only [if_pos hspan]

theorem renamedFrom_append
    (f : String → String)
    (ts : List (Located Token))
    (p : Position)
    (cs ds : List Char) :
    renamedFrom f ts p (cs ++ ds) = renamedFrom f ts p cs ++ renamedFrom f ts (p.advance cs) ds := by
  induction cs generalizing p with
  | nil =>
      rfl
  | cons c cs ih =>
      rw [List.cons_append, renamedFrom, renamedFrom, ih, List.append_assoc]
      rfl

/-- Characters outside labels stay. -/
theorem renamedFrom_of_clear
    (h : Clear ts p (p.advance cs)) :
    renamedFrom f ts p cs = cs := by
  induction cs generalizing p with
  | nil =>
      rfl
  | cons c cs ih =>
      have hchar : renamedChar f ts p c = [c] := by
        rw [renamedChar, labelAt?_of_clear h (p.lt_advance_cons c cs)]
      have hrest : Clear ts (p.after c) ((p.after c).advance cs) := by
        intro t ht name hname
        exact (h t ht name hname).imp_left fun hlast => lt_trans hlast (p.lt_after c)
      rw [renamedFrom, hchar, ih hrest]
      rfl

/-- Behind the first character of a label nothing is written up to its end. -/
theorem renamedFrom_inside
    {l : Located String}
    {stop : Position}
    (hinside : ∀ r, l.span.first < r → r < stop → labelAt? ts r = some l)
    (hfirst : l.span.first < p)
    (hstop : p.advance cs ≤ stop) :
    renamedFrom f ts p cs = [] := by
  induction cs generalizing p with
  | nil =>
      rfl
  | cons c cs ih =>
      have hlabel := hinside p hfirst (lt_of_lt_of_le (p.lt_advance_cons c cs) hstop)
      have hchar : renamedChar f ts p c = [] := by
        simp only [renamedChar, hlabel, if_neg (ne_of_gt hfirst)]
      rw [renamedFrom, hchar, ih (lt_trans hfirst (p.lt_after c)) hstop]
      rfl

/-- A place of a word is not behind its last character. -/
theorem le_cover_last
    (hne : text ≠ [])
    (hline : '\n' ∉ text)
    (hlt : q < p.advance text) :
    q ≤ (Span.cover p text).last := by
  have hinit : '\n' ∉ text.dropLast := fun hmem => hline (List.dropLast_subset _ hmem)
  have hpos := List.length_pos_iff.2 hne
  rw [Position.advance_of_not_mem _ hline, Position.lt_iff] at hlt
  rw [Span.cover, Position.advance_of_not_mem _ hinit, List.length_dropLast, Position.le_iff]
  simp only at hlt ⊢
  omega

/-- The text of a label becomes its new name. -/
theorem renamedFrom_label
    {name : String}
    (hne : name.toList ≠ [])
    (hline : '\n' ∉ name.toList)
    (hbefore : Passed before p) :
    renamedFrom f (before ++ ⟨.label name, .cover p name.toList⟩ :: ts) p name.toList =
      (f name).toList := by
  have hlabel : ∀ r, p ≤ r → r < p.advance name.toList →
      labelAt? (before ++ ⟨.label name, .cover p name.toList⟩ :: ts) r =
        some ⟨name, .cover p name.toList⟩ :=
    fun r hle hlt => labelAt?_of_span (hbefore.mono hle) ⟨hle, le_cover_last hne hline hlt⟩
  obtain ⟨c, cs, hcs⟩ := List.exists_cons_of_ne_nil hne
  have hfirst := hlabel p (le_refl p) (hcs ▸ p.lt_advance_cons c cs)
  have hinside : renamedFrom f (before ++ ⟨.label name, .cover p name.toList⟩ :: ts)
      (p.after c) cs = [] := by
    refine renamedFrom_inside (fun r hle hlt => hlabel r (le_of_lt hle) hlt) (p.lt_after c) ?_
    rw [hcs]
    exact le_refl _
  conv_lhs => rw [hcs]
  rw [renamedFrom, ← hcs, hinside, List.append_nil]
  simp only [renamedChar, hfirst]
  exact if_pos rfl

end Characters

section Lexemes

/-- The first characters are the same, or both are characters of words. -/
def HeadsAlike (cs ds : List Char) : Prop :=
  ∀ d, ds.head? = some d →
    ∃ c, cs.head? = some c ∧ (d = c ∨ (isTermChar c = true ∧ isTermChar d = true))

theorem headsAlike_append
    (hne : text ≠ []) :
    HeadsAlike (text ++ cs) (text ++ ds) := by
  obtain ⟨c, rest, rfl⟩ := List.exists_cons_of_ne_nil hne
  exact fun d hd => ⟨c, rfl, Or.inl (Option.some.inj hd).symm⟩

theorem headsAlike_words
    {word : List Char}
    (hne : text ≠ [])
    (hall : ∀ c ∈ text, isTermChar c = true)
    (hne' : word ≠ [])
    (hall' : ∀ c ∈ word, isTermChar c = true) :
    HeadsAlike (text ++ cs) (word ++ ds) := by
  obtain ⟨c, rest, rfl⟩ := List.exists_cons_of_ne_nil hne
  obtain ⟨d, rest', rfl⟩ := List.exists_cons_of_ne_nil hne'
  intro e he
  rw [← Option.some.inj he]
  exact ⟨c, rfl, Or.inr ⟨hall c (by simp), hall' d (by simp)⟩⟩

/-- What starts like the characters behind a word does not go on with a word. -/
theorem not_isTermChar_of_headsAlike
    (hall : ∀ c ∈ text, isTermChar c = true)
    (hmax : NoneLonger (text ++ cs) text.length)
    (h : HeadsAlike cs ds)
    {d : Char}
    (hd : ds.head? = some d) :
    isTermChar d = false := by
  obtain ⟨c, hc, hcd⟩ := h d hd
  have hfalse := not_isTermChar_of_word hall hmax hc
  rcases hcd with rfl | ⟨htrue, -⟩
  · exact hfalse
  · rw [hfalse] at htrue
    cases htrue

/-- A longest text stays longest if what follows it starts alike. -/
theorem noneLonger_of_headsAlike
    (hne : text ≠ [])
    (hmax : NoneLonger (text ++ cs) text.length)
    (h : HeadsAlike cs ds) :
    NoneLonger (text ++ ds) text.length := by
  refine noneLonger_of_next hne fun d hd => ?_
  obtain ⟨c, hc, hcd⟩ := h d hd
  refine ⟨?_, ?_, ?_⟩
  · rintro ⟨rfl, rfl⟩
    rcases hcd with rfl | ⟨-, hterm⟩
    · exact head_ne_of_colon hmax hc
    · exact absurd hterm (by decide)
  · rintro ⟨hall, rfl⟩
    rcases hcd with rfl | ⟨-, hterm⟩
    · exact head_ne_of_newlines hall hmax hc
    · exact absurd hterm (by decide)
  · rintro ⟨hall, hterm⟩
    rw [not_isTermChar_of_headsAlike hall hmax h hd] at hterm
    cases hterm

/-- The characters of a name are characters of words. -/
theorem IsName.isTermChar
    {name : String}
    (h : IsName name) :
    ∀ c ∈ name.toList, isTermChar c = true :=
  fun c hc => isTermChar_of_isAlphanum (h.2.1 c hc)

/-- The text of a label is its name. -/
theorem eq_name_of_ofText?
    {name : String}
    (h : Lexeme.ofText? text = some (Token.label name).lexeme) :
    text = name.toList ∧ text ≠ [] ∧ ∀ c ∈ text, isTermChar c = true := by
  rcases (ofText?_eq_some_iff _ _).1 h with
    ⟨c, -, hc⟩ | ⟨-, hl⟩ | ⟨-, hl⟩ | ⟨-, -, hl⟩ | ⟨hne, hall, hl⟩
  · unfold Lexeme.ofSymbol? at hc
    split at hc <;> cases hc
  · cases hl
  · cases hl
  · cases hl
  · refine ⟨?_, hne, hall⟩
    rw [Lexeme.word.inj hl, String.toList_ofList]

/-- No label stands in the text of a token that is none. -/
theorem clear_of_token
    {t : Token}
    (ht : ∀ name, t ≠ .label name)
    (hbefore : Passed before p)
    (h : Placed (p.advance text) cs ts) :
    Clear (before ++ ⟨t, .cover p text⟩ :: ts) p (p.advance text) := by
  intro u hu name hname
  rcases List.mem_append.1 hu with hu | hu
  · exact Or.inl (hbefore u hu)
  · rcases List.mem_cons.1 hu with rfl | hu
    · exact absurd hname (ht name)
    · exact Or.inr (h.le_first hu)

theorem rename_of_ne_label
    {t : Token}
    (ht : ∀ name, t ≠ .label name) :
    t.rename f = t := by
  cases t with
  | label name => exact absurd rfl (ht name)
  | _ => rfl

/-- **Renamed characters are cut into the lexemes of renamed tokens**, given the tokens
before them, and they start like the old ones. -/
theorem cut_renamedFrom
    (h : Placed p cs ts)
    (hbefore : Passed before p)
    (hnames : ∀ name ∈ labelNames ts, IsName (f name)) :
    Cut (renamedFrom f (before ++ ts) p cs) (ts.map fun t => (t.value.rename f).lexeme) ∧
      HeadsAlike cs (renamedFrom f (before ++ ts) p cs) := by
  induction h generalizing before with
  | done =>
      exact ⟨.done, by simp [HeadsAlike, renamedFrom]⟩
  | @blank p c cs ts hb h ih =>
      have hclear : Clear (before ++ ts) p (p.advance [c]) := by
        intro t ht name hname
        rcases List.mem_append.1 ht with ht | ht
        · exact Or.inl (hbefore t ht)
        · exact Or.inr (h.le_first ht)
      have hsame : renamedFrom f (before ++ ts) p (c :: cs) =
          c :: renamedFrom f (before ++ ts) (p.after c) cs := by
        rw [← List.singleton_append, renamedFrom_append, renamedFrom_of_clear hclear]
        rfl
      obtain ⟨hcut, -⟩ := ih (hbefore.mono (le_of_lt (p.lt_after c))) hnames
      rw [hsame]
      exact ⟨.blank hb hcut, headsAlike_append (List.cons_ne_nil c [])⟩
  | @token p t text cs ts ht hmax h ih =>
      obtain ⟨c, rest, hcons, -⟩ := exists_cons_of_ofText? ht
      have hne : text ≠ [] := by simp [hcons]
      have hrest := ih (hbefore.append_token t hne)
        (fun name ⟨u, hu, hname⟩ => hnames name ⟨u, List.mem_cons_of_mem _ hu, hname⟩)
      rw [List.append_assoc, List.singleton_append] at hrest
      obtain ⟨hcut, halike⟩ := hrest
      rw [renamedFrom_append, List.map_cons]
      by_cases hlabel : ∃ name, t = .label name
      · -- The new name takes the place of the old one, and neither goes on behind its end.
        obtain ⟨name, rfl⟩ := hlabel
        obtain ⟨rfl, -, hall⟩ := eq_name_of_ofText? ht
        have hname := hnames name ⟨_, List.mem_cons_self .., rfl⟩
        rw [renamedFrom_label hne (fun hmem => absurd (hall _ hmem) (by decide)) hbefore]
        refine ⟨?_, headsAlike_words hne hall hname.1 hname.isTermChar⟩
        have hword := cut_word hname.1 hname.isTermChar
          (fun d hd => not_isTermChar_of_headsAlike hall hmax halike hd) hcut
        rwa [String.ofList_toList] at hword
      · have hother : ∀ name, t ≠ .label name := fun name heq => hlabel ⟨name, heq⟩
        rw [renamedFrom_of_clear (clear_of_token hother hbefore h), rename_of_ne_label hother]
        exact ⟨.munch ht (noneLonger_of_headsAlike hne hmax halike) hcut, headsAlike_append hne⟩

end Lexemes

section LineEnds

/-- No label reaches into a line end. -/
def EndsClear (ts : List (Located Token)) (p : Position) (cs : List Char) : Prop :=
  ∀ as bs, cs = as ++ '\n' :: bs → Clear ts (p.advance as) ((p.advance as).after '\n')

theorem EndsClear.head
    (h : EndsClear ts p ('\n' :: cs)) :
    Clear ts p (p.after '\n') :=
  h [] cs rfl

theorem EndsClear.tail
    {c : Char}
    (h : EndsClear ts p (c :: cs)) :
    EndsClear ts (p.after c) cs :=
  fun as bs hcs => h (c :: as) bs (by rw [hcs]; rfl)

/-- Line ends are tokens of their own. -/
theorem Placed.endsClear
    (h : Placed p cs ts)
    (hbefore : Passed before p) :
    EndsClear (before ++ ts) p cs := by
  induction h generalizing before with
  | done =>
      intro as bs hcs
      simp at hcs
  | @blank p c cs ts hb h ih =>
      intro as bs hcs
      cases as with
      | nil =>
          rw [(List.cons.inj hcs).1] at hb
          exact absurd hb (by decide)
      | cons a as =>
          obtain ⟨rfl, htail⟩ := List.cons.inj hcs
          exact ih (hbefore.mono (le_of_lt (p.lt_after c))) as bs htail
  | @token p t text cs ts ht hmax h ih =>
      obtain ⟨c, rest, hcons, -⟩ := exists_cons_of_ofText? ht
      have hrest := ih (hbefore.append_token t (by simp [hcons]))
      rw [List.append_assoc, List.singleton_append] at hrest
      intro as bs hcs
      rcases append_eq_append_cons hcs with ⟨more, htext, -⟩ | ⟨more, rfl, hmore⟩
      · -- The line end is part of the token, so the token is no label.
        have hother : ∀ name, t ≠ .label name := by
          rintro name rfl
          have hall := (eq_name_of_ofText? ht).2.2
          exact absurd (hall '\n' (by simp [htext])) (by decide)
        intro u hu name hname
        refine (clear_of_token hother hbefore h u hu name hname).imp ?_ ?_
        · exact fun hlast => lt_of_lt_of_le hlast (p.le_advance as)
        · refine fun hfirst => le_trans ?_ hfirst
          rw [htext, Position.advance_append]
          exact Position.le_advance _ more
      · rw [Position.advance_append]
        exact hrest more bs hmore

/-- The characters to be read of a text that goes on with a line: even if the text is
empty, this line has an end. -/
def Text.continued (cs : List Char) : List Char :=
  if cs = [] then ['\n'] else normalized cs

theorem Text.normalized_of_ne_nil
    (hne : cs ≠ []) :
    normalized cs = continued cs :=
  (if_neg hne).symm

theorem Text.continued_newline
    (cs : List Char) :
    continued ('\n' :: cs) = '\n' :: normalized cs := by
  simp [continued, normalized]

theorem Text.continued_return_newline
    (cs : List Char) :
    continued ('\r' :: '\n' :: cs) = '\n' :: normalized cs := by
  simp [continued, normalized, lines]

theorem Text.continued_cons
    {c : Char}
    (hn : c ≠ '\n')
    (hr : c = '\r' → cs.head? ≠ some '\n') :
    continued (c :: cs) = c :: continued cs := by
  rw [continued, if_neg (List.cons_ne_nil _ _), normalized, lines_cons hn hr]
  by_cases hcs : cs = []
  · subst hcs
    rfl
  · rw [continued, if_neg hcs, normalized]
    obtain ⟨line, lines, hlines⟩ := List.exists_cons_of_ne_nil (lines_ne_nil hcs)
    rw [hlines]
    rfl

theorem Text.continued_append
    {word : List Char}
    (hword : Plain word) :
    continued (word ++ cs) = word ++ continued cs := by
  induction word with
  | nil =>
      rfl
  | cons c word ih =>
      obtain ⟨hn, hr⟩ := hword c (by simp)
      rw [List.cons_append, continued_cons hn (fun h => absurd h hr),
        ih fun d hd => hword d (by simp [hd])]
      rfl

/-- What becomes of a character that ends no line ends no line. -/
theorem plain_renamedChar
    {c : Char}
    (hnames : ∀ name ∈ labelNames ts, IsName (f name))
    (hc : c ≠ '\n' ∧ c ≠ '\r') :
    Plain (renamedChar f ts p c) := by
  unfold renamedChar
  split
  · next l hl =>
      obtain ⟨t, ht, hname, -⟩ := labelAt?_eq_some hl
      split
      · exact plain_of_isTermChar (hnames l.value ⟨t, ht, hname⟩).isTermChar
      · simp [Plain]
  · simpa [Plain] using hc

/-- The labels that span a place start there. -/
def Startable (ts : List (Located Token)) (p : Position) : Prop :=
  ∀ l, labelAt? ts p = some l → l.span.first = p

theorem startable_after_newline
    (h : Clear ts p (p.after '\n')) :
    Startable ts (p.after '\n') := by
  intro l hl
  obtain ⟨t, ht, hname, hspan, hfirst, hlast⟩ := labelAt?_eq_some hl
  rcases h t ht _ hname with hbefore | hafter
  · rw [hspan] at hbefore
    exact absurd (lt_of_le_of_lt hlast hbefore) (not_lt_of_gt (p.lt_after '\n'))
  · exact le_antisymm hfirst (hspan ▸ hafter)

theorem renamedFrom_ne_nil
    (hnames : ∀ name ∈ labelNames ts, IsName (f name))
    (hstart : Startable ts p)
    (hne : cs ≠ []) :
    renamedFrom f ts p cs ≠ [] := by
  obtain ⟨c, rest, rfl⟩ := List.exists_cons_of_ne_nil hne
  have hchar : renamedChar f ts p c ≠ [] := by
    unfold renamedChar
    split
    · next l hl =>
        obtain ⟨t, ht, hname, -⟩ := labelAt?_eq_some hl
        rw [if_pos (hstart l hl).symm]
        exact (hnames l.value ⟨t, ht, hname⟩).1
    · simp
  rw [renamedFrom]
  exact List.append_ne_nil_of_left_ne_nil hchar _

theorem renamedFrom_newline
    (h : Clear ts p (p.after '\n'))
    (cs : List Char) :
    renamedFrom f ts p ('\n' :: cs) = '\n' :: renamedFrom f ts (p.after '\n') cs := by
  have hnewline : renamedFrom f ts p ['\n'] = ['\n'] := renamedFrom_of_clear h
  rw [← List.singleton_append, renamedFrom_append, hnewline]
  rfl

theorem renamedFrom_return_newline
    (h : Clear ts p (p.after '\n'))
    (cs : List Char) :
    renamedFrom f ts p ('\r' :: '\n' :: cs) =
      '\r' :: '\n' :: renamedFrom f ts (p.after '\n') cs := by
  have hnewline : renamedFrom f ts p ['\r', '\n'] = ['\r', '\n'] := renamedFrom_of_clear h
  show renamedFrom f ts p (['\r', '\n'] ++ cs) = _
  rw [renamedFrom_append, hnewline]
  rfl

/-- At the start of a line it makes no difference whether the text goes on with it. -/
theorem normalized_of_continued
    (hnames : ∀ name ∈ labelNames ts, IsName (f name))
    (hstart : Startable ts p)
    (hends : EndsClear ts p (Text.normalized cs))
    (hreturn : '\r' ∉ Text.normalized cs)
    (h : EndsClear ts p (Text.continued cs) → '\r' ∉ Text.continued cs →
      Text.continued (renamedFrom f ts p cs) = renamedFrom f ts p (Text.continued cs)) :
    Text.normalized (renamedFrom f ts p cs) = renamedFrom f ts p (Text.normalized cs) := by
  by_cases hne : cs = []
  · subst hne
    rfl
  · rw [Text.normalized_of_ne_nil hne] at hends hreturn ⊢
    rw [Text.normalized_of_ne_nil (renamedFrom_ne_nil hnames hstart hne), h hends hreturn]

/-- Renaming inside the lines of a text leaves its line ends alone. -/
theorem continued_renamedFrom
    (hnames : ∀ name ∈ labelNames ts, IsName (f name))
    (hends : EndsClear ts p (Text.continued cs))
    (hreturn : '\r' ∉ Text.continued cs) :
    Text.continued (renamedFrom f ts p cs) = renamedFrom f ts p (Text.continued cs) := by
  -- In the middle of a label nothing is written, so the new text can be at its end while the
  -- old one is not; the line is open in both, which is what `continued` stands for.
  fun_induction Text.lines cs generalizing p with
  | case1 =>
      exact (renamedFrom_newline hends.head []).symm
  | case2 cs ih =>
      rw [Text.continued_newline] at hends hreturn ⊢
      have hclear := hends.head
      rw [renamedFrom_newline hclear, renamedFrom_newline hclear, Text.continued_newline]
      exact congrArg _ (normalized_of_continued hnames (startable_after_newline hclear) hends.tail
        (fun hmem => hreturn (List.mem_cons_of_mem _ hmem)) ih)
  | case3 cs ih =>
      rw [Text.continued_return_newline] at hends hreturn ⊢
      have hclear := hends.head
      rw [renamedFrom_return_newline hclear, renamedFrom_newline hclear,
        Text.continued_return_newline]
      exact congrArg _ (normalized_of_continued hnames (startable_after_newline hclear) hends.tail
        (fun hmem => hreturn (List.mem_cons_of_mem _ hmem)) ih)
  | case4 c cs hn hr ih =>
      have hc : c ≠ '\n' := fun hc => hn hc
      have hhead : c = '\r' → cs.head? ≠ some '\n' := by
        rintro rfl hhead
        obtain ⟨rest, rfl⟩ := List.head?_eq_some_iff.1 hhead
        exact hr rest rfl rfl
      rw [Text.continued_cons hc hhead] at hends hreturn ⊢
      obtain ⟨hc', hrest⟩ := not_or.1 fun hmem => hreturn (List.mem_cons.2 hmem)
      rw [renamedFrom, renamedFrom,
        Text.continued_append (plain_renamedChar hnames ⟨hc, Ne.symm hc'⟩), ih hends.tail hrest]

variable {s : Source}

/-- Renaming in a text is renaming in the characters that are read from it. -/
theorem chars_renamed
    (h : s.tokens = .ok ts)
    (hnames : ∀ name ∈ labelNames ts, IsName (f name)) :
    (s.renamed f).chars = renamedFrom f ts .start s.chars := by
  obtain ⟨hok, rfl⟩ := tokens_eq_ok_iff.1 h
  have hplaced := placed_of_tokens h
  have hstart : Startable s.reading.tokens .start := by
    intro l hl
    obtain ⟨t, ht, -, hspan, hfirst, -⟩ := labelAt?_eq_some hl
    exact le_antisymm hfirst (hspan ▸ hplaced.le_first ht)
  rw [Source.chars, Source.renamed, String.toList_ofList]
  have hends : EndsClear s.reading.tokens .start s.chars :=
    hplaced.endsClear (passed_nil .start)
  exact normalized_of_continued hnames hstart hends (not_mem_return_of_run hok)
    (continued_renamedFrom hnames)

end LineEnds

section Reading

variable {previous previous' : Option Token} {next next' : Option Lexeme}

/-- The neighbours of a word matter only through the context and through the two symbols
that may follow. -/
theorem wordToken_congr
    (hcontext : Context.following previous' = Context.following previous)
    (hassign : next' = some .assign ↔ next = some .assign)
    (hcolon : next' = some .colon ↔ next = some .colon)
    (text : String) :
    Lexeme.wordToken previous' next' text = Lexeme.wordToken previous next text := by
  cases hkey : Keyword.ofName? text with
  | some k =>
      simp only [Lexeme.wordToken, hkey]
  | none =>
      rw [wordToken_eq_of_context _ _ _ hkey, wordToken_eq_of_context _ _ _ hkey, hcontext]
      simp only [Lexeme.wordToken.atStart, hassign, hcolon]

/-- Where one name is read as a label, every name is. -/
theorem wordToken_of_label
    {name name' : String}
    (h : Lexeme.wordToken previous next name = .ok (.label name))
    (hname : IsName name') :
    Lexeme.wordToken previous next name' = .ok (.label name') := by
  obtain ⟨-, -, hkey⟩ := wordToken_eq_label h
  have hlabel : Lexeme.wordToken.asLabel name' = .ok (.label name') := by
    unfold Lexeme.wordToken.asLabel
    rw [if_neg]
    exact fun hmem => absurd (hname.2.1 '-' hmem) (by decide)
  rw [wordToken_eq_of_context _ _ _ hkey] at h
  rw [wordToken_eq_of_context _ _ _ hname.2.2]
  split at h
  · unfold Lexeme.wordToken.atStart at h ⊢
    split at h
    · exact absurd h asRegister_ne_label
    · next hassign => rw [if_neg hassign, hlabel]
  · exact hlabel
  · split at h
    · next hcolon => rw [if_pos hcolon, hlabel]
    · exact absurd h asRegister_ne_label

theorem following_rename
    (f : String → String)
    (previous : Option Token) :
    Context.following (previous.map (Token.rename f)) = Context.following previous := by
  cases previous with
  | none => rfl
  | some t => cases t <;> rfl

/-- A renamed token is a symbol if and only if the token is that symbol. -/
theorem lexeme_rename_eq_iff
    {l : Lexeme}
    (hl : ∀ text, l ≠ .word text)
    (t : Token) :
    (t.rename f).lexeme = l ↔ t.lexeme = l := by
  cases t with
  | label name => exact ⟨fun h => absurd h.symm (hl _), fun h => absurd h.symm (hl _)⟩
  | _ => rfl

/-- A renamed token is read off its lexeme if the token is. -/
theorem token_rename
    {t : Token}
    (h : t.lexeme.token previous next = .ok t)
    (hnext : ∀ l : Lexeme, (∀ text, l ≠ .word text) → (next' = some l ↔ next = some l))
    (hname : ∀ name, t = .label name → IsName (f name)) :
    (t.rename f).lexeme.token (previous.map (Token.rename f)) next' = .ok (t.rename f) := by
  have hcongr : ∀ text, Lexeme.wordToken (previous.map (Token.rename f)) next' text =
      Lexeme.wordToken previous next text :=
    wordToken_congr (following_rename f previous) (hnext _ (by simp)) (hnext _ (by simp))
  cases t with
  | label name => exact (hcongr _).trans (wordToken_of_label h (hname name rfl))
  | register r => exact (hcongr _).trans h
  | keyword k => exact (hcongr _).trans h
  | _ => rfl

/-- The lexemes of renamed tokens are read as these tokens if the lexemes of the old ones
are read as those. -/
theorem readAll_rename
    {ts : List Token}
    (h : Lexeme.readAll previous (ts.map Token.lexeme) = (ts, none))
    (hnames : ∀ name, Token.label name ∈ ts → IsName (f name)) :
    Lexeme.readAll (previous.map (Token.rename f)) (ts.map fun t => (t.rename f).lexeme) =
      (ts.map (Token.rename f), none) := by
  induction ts generalizing previous with
  | nil =>
      rfl
  | cons t ts ih =>
      rw [List.map_cons, Lexeme.readAll] at h
      split at h
      · cases h
      · next u hu =>
          obtain ⟨htokens, herror⟩ := Prod.mk.inj h
          obtain ⟨rfl, hrest⟩ := List.cons.inj htokens
          have hnext : ∀ l : Lexeme, (∀ text, l ≠ .word text) →
              ((ts.map fun t => (t.rename f).lexeme).head? = some l ↔
                (ts.map Token.lexeme).head? = some l) := by
            intro l hl
            cases ts with
            | nil => rfl
            | cons v ts => simpa using lexeme_rename_eq_iff hl v
          have htoken := token_rename hu hnext (fun name hname => hnames name (by simp [hname]))
          have hmore := ih (Prod.ext hrest herror) (fun name hname => hnames name (by simp [hname]))
          simp only [List.map_cons, Lexeme.readAll, htoken]
          rw [Option.map_some] at hmore
          rw [hmore]

/-- **The text with other labels has the tokens with other labels.** -/
theorem tokens_renamed
    {s : Source}
    (h : s.tokens = .ok ts)
    (hnames : ∀ name ∈ labelNames ts, IsName (f name)) :
    ∃ ts', (s.renamed f).tokens = .ok ts' ∧
      ts'.map Located.value = ts.map fun t => t.value.rename f := by
  have hcut := (cut_renamedFrom (placed_of_tokens h) (passed_nil .start) hnames).1
  rw [List.nil_append, ← chars_renamed h hnames] at hcut
  have hlabels : ∀ name, Token.label name ∈ ts.map Located.value → IsName (f name) := by
    intro name hname
    obtain ⟨t, ht, hvalue⟩ := List.mem_map.1 hname
    exact hnames name ⟨t, ht, hvalue⟩
  have hold : Lexeme.readAll none ((ts.map Located.value).map Token.lexeme) =
      (ts.map Located.value, none) := by
    rw [List.map_map]
    exact readAll_of_tokens h
  have hread := readAll_rename hold hlabels
  rw [List.map_map, List.map_map] at hread
  have hrun : (s.renamed f).reading.values = _ := (run_of_cut hcut none .start).trans hread
  obtain ⟨hvalues, herror⟩ := Prod.mk.inj hrun
  exact ⟨_, tokens_eq_ok_iff.2 ⟨Option.map_eq_none_iff.1 herror, rfl⟩, hvalues⟩

end Reading

end Microcode
