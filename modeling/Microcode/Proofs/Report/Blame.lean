import Microcode.Proofs.Encoding.Halting
import Microcode.Proofs.Label.Reports
import Microcode.Proofs.Program.Extents
import Microcode.Proofs.Program.FirstError
import Microcode.Proofs.Token.Spacing

/-!
# What the errors of a source are about

**Input.**  A source that is not assembled, and an error that is reported for it.

**Relation.**  `Source.BlamesText s e text` names the text that is to blame.

* A lexical error is about a bad character, or about a word, of which it takes the first
  character.
* A parse error is about the first token behind which no program goes on.  If this token
  is a line end, `Source.BlamesLineEnd` holds instead.
* A label error is about the later one of two definitions, about a jump that is too far,
  or about the first jump to a name without a definition.
* A conflict is about the first sub-instruction that its cycle refuses, or about the
  destination of this one.

**Results.**
* `Placed.exists_text`: tokens behind each other stand in one text, from the start of the
  first one to the end of the last.
* `exists_impossible_of_ofTokens`: a parse error is located at the first impossible token.
* `exists_refused_of_encodeFrom`: a conflict is found at the first sub-instruction that is
  refused.
* `pinpoints_of_assemble`: the columns of an error hold the text that is to blame, or the
  error is located where lines end.
-/

namespace Microcode

open Grammar

/-- The first token of a list behind which no tokens make up a program, with an error
about it: it is found where something else is expected, or it breaks a rule on the shape
of lines. -/
def FirstImpossible (ts : List (Located Token)) (error : ParseError) (t : Located Token) : Prop :=
  ∃ before after, ts = before ++ t :: after ∧ Viable before (.point .start) ∧
    ¬ Viable (before ++ [t]) (.point .start) ∧ Parser.Refutes (Breaks before) error t.value

/-- The first sub-instruction of a program that cannot be performed, with the conflict
that it meets: the instructions above it have words, and the sub-instructions before it
are performed in one cycle, which refuses this one. -/
def Program.Refuses (p : Program) (labels : LabelTable) (e : Located Conflict)
    (sub : Located Subinstruction) : Prop :=
  ∃ above i below before after words t,
    p.instructions = above ++ i :: below ∧ encodeAll labels above = .ok words ∧
      i.subs = before ++ sub :: after ∧ (∀ x ∈ before, x.value ≠ .halt) ∧
      Resources.fresh.performAll labels before = .ok t ∧
      t.perform labels sub = .error (.conflict e)

/-- The text that is to blame for an error of a source. -/
inductive Source.BlamesText (s : Source) : AssemblyError → String → Prop
  | character {c : Char} {span : Span} :
      s.tokens = .error ⟨.badChar c, span⟩ →
      BlamesText s (.lex ⟨.badChar c, span⟩) (String.singleton c)
  | word {error : LexError} {span : Span} {word : String} {left right : List Char} {c : Char} :
      s.tokens = .error ⟨error, span⟩ → error.word? = some word →
      s.WordAt span.first word left right → word.toList.head? = some c →
      BlamesText s (.lex ⟨error, span⟩) (String.singleton c)
  | token {ts : List (Located Token)} {t : Located Token} {error : ParseError} :
      s.tokens = .ok ts → FirstImpossible ts error t → t.value ≠ .newline →
      BlamesText s (.parse ⟨error, t.span⟩) t.value.text
  | repetition {p : Program} {d : Definition} {e : Located LabelError} :
      s.program = .ok p → d ∈ p.definitions →
      Definition.repetition? p.definitions d = some e →
      BlamesText s (.label e) d.label.value
  | distant {p : Program} {target : Located String} {e : Located LabelError} :
      s.program = .ok p → target ∈ p.targets → p.distant? target = some e →
      BlamesText s (.label e) target.value
  | missing {p : Program} {target : Located String} {names : List String} :
      s.program = .ok p →
      p.targets.find? (fun jump => (p.first? jump.value).isNone) = some target →
      names.head? = some target.value →
      BlamesText s (.label ⟨.undefined names, target.span⟩) target.value
  | destination {p : Program} {labels : LabelTable} {e : Located Conflict}
      {sub : Located Subinstruction} {dest : Located Register} {source : Located Expr} :
      s.resolved = .ok (p, labels) → p.Refuses labels e sub →
      sub.value = .assign dest source → e = ⟨.immutable dest.value, dest.span⟩ →
      BlamesText s (.conflict e) dest.value.name
  | action {p : Program} {labels : LabelTable} {e : Located Conflict}
      {sub : Located Subinstruction} {ts us : List (Located Token)} {text : List Char} :
      s.resolved = .ok (p, labels) → p.Refuses labels e sub → e.span = sub.span →
      s.tokens = .ok ts → us <:+: ts → ReadFrom sub us → Placed sub.span.first text us →
      BlamesText s (.conflict e) (String.ofList text)

/-- An error of a source for which a line end is to blame. -/
def Source.BlamesLineEnd (s : Source) (e : AssemblyError) : Prop :=
  ∃ ts t error, s.tokens = .ok ts ∧ FirstImpossible ts error t ∧ t.value = .newline ∧
    e = .parse ⟨error, t.span⟩

/-- An error whose columns hold the text that is to blame for it, or which stands where
lines end if a line end is to blame. -/
def Source.Pinpoints (s : Source) (e : AssemblyError) : Prop :=
  (∃ text, s.BlamesText e text ∧ s.ShowsText e.span text) ∨
    (s.BlamesLineEnd e ∧ s.EndsLines e.span)

theorem Source.Pinpoints.within
    {s : Source}
    {e : AssemblyError}
    (h : s.Pinpoints e) :
    s.Within e.span := by
  rcases h with ⟨text, -, hshows⟩ | ⟨-, hends⟩
  · exact hshows.toWithin
  · exact hends.toWithin

section Tokens

variable {s : Source} {ts us after : List (Located Token)} {t : Located Token}
variable {p : Position} {cs blanks text : List Char}

/-- The columns of a token other than a line end hold its text. -/
theorem showsText_of_mem_tokens
    (h : s.tokens = .ok ts)
    (ht : t ∈ ts)
    (hvalue : t.value ≠ .newline) :
    s.ShowsText t.span t.value.text := by
  obtain ⟨before, text, after, hchars, -, -, htext, hspan⟩ := (placed_of_tokens h).exists_cover ht
  obtain ⟨c, tail, hcons, -⟩ := exists_cons_of_ofText? htext
  have hshows := Source.showsText_cover hchars (by simp [hcons]) (not_mem_of_ofText? htext hvalue)
  rwa [← hspan, eq_text_of_ofText? htext hvalue, String.ofList_toList] at hshows

/-- A line end stands where lines end. -/
theorem endsLines_of_mem_tokens
    (h : s.tokens = .ok ts)
    (ht : t ∈ ts)
    (hvalue : t.value = .newline) :
    s.EndsLines t.span := by
  obtain ⟨before, text, after, hchars, hbefore, hafter, htext, hspan⟩ :=
    (placed_of_tokens h).exists_cover ht
  rw [hvalue] at htext
  obtain ⟨k, rfl⟩ := eq_replicate_of_newlines htext
  rw [hspan]
  exact Source.endsLines_cover hchars hbefore hafter

theorem Placed.of_blanks
    (hblanks : Blanks blanks)
    (h : Placed (p.advance blanks) cs ts) :
    Placed p (blanks ++ cs) ts := by
  induction blanks generalizing p with
  | nil =>
      exact h
  | cons c blanks ih =>
      refine .blank (hblanks c (List.mem_cons_self ..)) (ih ?_ h)
      exact fun d hd => hblanks d (List.mem_cons_of_mem _ hd)

/-- What several tokens cover ends with what the tokens behind the first one cover. -/
theorem covering_cons
    (t : Located Token)
    (hus : us ≠ []) :
    covering (t :: us) (List.cons_ne_nil t us) = ⟨t.span.first, (covering us hus).last⟩ := by
  rw [covering, List.getLast_cons hus]
  rfl

/-- What a text covers ends with what its second part covers. -/
theorem Span.cover_append
    (p : Position)
    (front : List Char)
    (htext : text ≠ []) :
    Span.cover p (front ++ text) = ⟨p, (Span.cover (p.advance front) text).last⟩ := by
  rw [Span.cover, List.dropLast_append_of_ne_nil htext, Position.advance_append]
  rfl

/-- Tokens behind each other stand in one text behind blanks, and what they cover is
this text. -/
theorem Placed.exists_text
    (h : Placed p cs (us ++ after))
    (hne : us ≠ []) :
    ∃ blanks text rest, cs = blanks ++ text ++ rest ∧ Blanks blanks ∧ text ≠ [] ∧
      Placed (p.advance blanks) text us ∧
      covering us hne = .cover (p.advance blanks) text := by
  generalize hall : us ++ after = all at h
  induction h generalizing us with
  | done =>
      exact absurd (List.append_eq_nil_iff.1 hall).1 hne
  | @blank p c cs all hb h ih =>
      obtain ⟨blanks, text, rest, rfl, hblanks, htext, hplaced, hcover⟩ := ih hne hall
      refine ⟨c :: blanks, text, rest, rfl, ?_, htext, hplaced, hcover⟩
      exact List.forall_mem_cons.2 ⟨hb, hblanks⟩
  | @token p token text cs all hl hmax h ih =>
      obtain ⟨c, tail, htext, -⟩ := exists_cons_of_ofText? hl
      cases us with
      | nil => exact absurd rfl hne
      | cons u us =>
          obtain ⟨rfl, hrest⟩ := List.cons.inj hall
          by_cases hus : us = []
          · subst hus
            have hplaced : Placed p (text ++ []) [⟨token, .cover p text⟩] := by
              refine .token hl ?_ .done
              rw [List.append_nil]
              exact hmax.of_append
            rw [List.append_nil] at hplaced
            exact ⟨[], text, cs, rfl, by simp [Blanks], by simp [htext], hplaced, rfl⟩
          · -- The other tokens stand behind blanks in what follows the first one.
            obtain ⟨blanks, more, rest, rfl, hblanks, hmore, hplaced, hcover⟩ := ih hus hrest
            refine ⟨[], text ++ (blanks ++ more), rest, by simp, by simp [Blanks],
              by simp [htext], ?_, ?_⟩
            · refine .token hl ?_ (hplaced.of_blanks hblanks)
              rw [← List.append_assoc] at hmax
              exact hmax.of_append
            · rw [covering_cons _ hus, hcover, ← List.append_assoc, Span.cover_append _ _ hmore,
                Position.advance_append]
              rfl

/-- Tokens other than line ends and blanks hold no line feed. -/
theorem Placed.newline_not_mem
    (h : Placed p cs ts)
    (hts : ∀ t ∈ ts, t.value ≠ .newline) :
    '\n' ∉ cs := by
  induction h with
  | done =>
      exact List.not_mem_nil
  | @blank p c cs ts hb h ih =>
      refine List.not_mem_cons_of_ne_of_not_mem ?_ (ih hts)
      rcases hb with rfl | rfl <;> decide
  | @token p t text cs ts hl hmax h ih =>
      obtain ⟨ht, hrest⟩ := List.forall_mem_cons.1 hts
      intro hmem
      rcases List.mem_append.1 hmem with hmem | hmem
      · exact not_mem_of_ofText? hl ht hmem
      · exact ih hrest hmem

/-- The columns that tokens on a line cover hold one text, in which these tokens
stand. -/
theorem showsText_covering
    (h : s.tokens = .ok ts)
    (hpart : us <:+: ts)
    (hus : ∀ t ∈ us, t.value ≠ .newline)
    (hne : us ≠ []) :
    ∃ text, Placed (covering us hne).first text us ∧
      s.ShowsText (covering us hne) (String.ofList text) := by
  obtain ⟨before, after, rfl⟩ := hpart
  have hplaced := placed_of_tokens h
  rw [List.append_assoc] at hplaced
  obtain ⟨front, cs, hchars, hrest⟩ := hplaced.exists_rest
  obtain ⟨blanks, text, rest, rfl, -, htext, hus', hcover⟩ := hrest.exists_text hne
  have hsplit : s.chars = (front ++ blanks) ++ text ++ rest := by
    rw [hchars]
    simp only [List.append_assoc]
  rw [← Position.advance_append] at hus' hcover
  rw [hcover]
  exact ⟨text, hus', Source.showsText_cover hsplit htext (hus'.newline_not_mem hus)⟩

end Tokens

section LexErrors

/-- A lexical error is located at its bad character, or at the first character of its
word. -/
theorem blames_of_lex_error
    {s : Source}
    {e : Located LexError}
    (h : s.tokens = .error e) :
    ∃ text, s.BlamesText (.lex e) text ∧ s.ShowsText e.span text := by
  have herror : s.reading.error = some e := by
    unfold Source.tokens at h
    split at h
    · cases h
    · next heq =>
        cases h
        exact heq
  obtain ⟨front, rest, hchars, hfront, -, hhalts⟩ := front_of_reading s
  rw [herror] at hhalts
  cases hhalts with
  | error hstops =>
      cases hstops with
      | @char c cs hb hnone =>
          have hoffends := Source.offends_of_stops hchars hfront (.char hb hnone)
          exact ⟨_, .character h, hoffends.1⟩
      | @word error text cs hword hne hall hcs =>
          have hsplit : s.chars = front ++ text ++ cs := by
            rw [hchars, List.append_assoc]
          obtain ⟨left, right, hat⟩ :=
            Source.wordAt_of_apart hsplit hne hall hfront.of_append_right hcs
          obtain ⟨c, tail, rfl⟩ := List.exists_cons_of_ne_nil hne
          have hc : '\n' ∉ [c] := by
            intro hmem
            have hterm := hall c (List.mem_cons_self ..)
            rw [← List.mem_singleton.1 hmem] at hterm
            exact absurd hterm (by decide)
          have hfirst : s.chars = front ++ [c] ++ (tail ++ cs) := by
            rw [hchars]
            simp
          exact ⟨_, .word h hword hat (by simp),
            Source.showsText_cover hfirst (List.cons_ne_nil _ _) hc⟩

end LexErrors

section ParseErrors

open Microcode.Parser

/-- A parse error that does not ask for more tokens is located at the first impossible
token. -/
theorem exists_impossible_of_ofTokens
    {tokens : List (Located Token)}
    {e : Located ParseError}
    (h : Program.ofTokens tokens (.point .start) = .error e)
    (hend : ¬ e.value.AtEnd) :
    ∃ t, FirstImpossible tokens e.value t ∧ e.span = t.span := by
  obtain ⟨lead, closed, d, htakes, hd, herror⟩ := ofTokens_eq_error_iff.1 h
  cases verdict_instruction (c := d) lead closed closed.length with
  | accepts i ts d' hts htakes' hrun =>
      have hyields := yields_of_accepts htakes' hrun
      rw [Yields, herror] at hyields
      cases hyields
  | awaits e' hrun hend' _ hlang =>
      rw [herror] at hrun
      cases hrun
      exact absurd hend' hend
  | refuses before t after error hrest hrefutes hlang hrun =>
      obtain rfl : e = ⟨error, t.span⟩ := by
        have hsame := hrun after
        rw [← hrest, herror] at hsame
        exact Except.error.inj hsame
      obtain ⟨us, line, hline⟩ := hlang
      refine ⟨t, ⟨wholeLines lead closed ++ before, after, ?_, viable_of_line _ hline, ?_, hrefutes⟩,
        rfl⟩
      · rw [List.append_assoc, ← hrest]
        exact htakes.1
      · -- The rule for the line fails at this token whatever stands behind it.
        rintro ⟨more, p, hp⟩
        have hahead : ahead (before ++ t :: more) = ahead d.rest := by
          rw [hrest]
          exact ahead_congr (head?_before before more after t)
        have hfails : Program.ofTokens (wholeLines lead closed ++ before ++ t :: more)
            (.point .start) = .error ⟨error, t.span⟩ := by
          refine ofTokens_eq_error_iff.2
            ⟨lead, closed, ⟨before ++ t :: more, d.last⟩, ⟨by simp, htakes.2⟩, ?_, hrun more⟩
          rwa [AtEnd, hahead]
        rw [List.append_assoc, List.singleton_append, hfails] at hp
        cases hp

/-- The last token of a source is a line end, so none is missing behind it, and a parse
error is located at the first impossible token. -/
theorem pinpoints_of_parse_error
    {s : Source}
    {ts : List (Located Token)}
    {e : Located ParseError}
    (hts : s.tokens = .ok ts)
    (h : Program.ofTokens ts (.point .start) = .error e) :
    s.Pinpoints (.parse e) := by
  have hend : ¬ e.value.AtEnd := by
    intro hend
    rcases locatedIn_of_ofTokens h with ⟨t, -, -, hconcerns⟩ | ⟨-, t, hlast, hvalue, -⟩
    · exact hend.not_concerns hconcerns
    · have hnewline := getLast?_of_tokens hts (by rintro rfl; cases hlast)
      rw [List.getLast?_map, hlast] at hnewline
      exact hvalue (Option.some.inj hnewline)
  obtain ⟨error, span⟩ := e
  obtain ⟨t, hfirst, rfl⟩ := exists_impossible_of_ofTokens h hend
  have ht : t ∈ ts := by
    obtain ⟨before, after, rfl, -⟩ := hfirst
    simp
  by_cases hvalue : t.value = .newline
  · exact Or.inr ⟨⟨ts, t, error, hts, hfirst, hvalue, rfl⟩, endsLines_of_mem_tokens hts ht hvalue⟩
  · exact Or.inl ⟨_, .token hts hfirst hvalue, showsText_of_mem_tokens hts ht hvalue⟩

end ParseErrors

section Programs

variable {ts us : List (Located Token)} {is : List Instruction} {i : Instruction}
variable {sub : Located Subinstruction} {name : Located String}

/-- The target of a sub-instruction is one of the tokens that it is read from. -/
theorem ReadFrom.mem_of_target
    (h : ReadFrom sub us)
    (hname : sub.value.target? = some name) :
    ⟨.label name.value, name.span⟩ ∈ us := by
  have hmem : name ∈ us.filterMap Located.label? := by
    simp [h.labels_eq, hname]
  obtain ⟨⟨value, span⟩, hu, hlabel⟩ := List.mem_filterMap.1 hmem
  cases value with
  | label text =>
      cases hlabel
      exact hu
  | _ => cases hlabel

/-- The destination of a sub-instruction is one of the tokens that it is read from. -/
theorem ReadFrom.mem_of_dest
    {dest : Located Register}
    {source : Located Expr}
    (h : ReadFrom sub us)
    (hassign : sub.value = .assign dest source) :
    ⟨.register dest.value, dest.span⟩ ∈ us := by
  have hmem : dest ∈ us.filterMap Located.register? := by
    simp [h.registers_eq, hassign, Subinstruction.mentions]
  obtain ⟨⟨value, span⟩, hu, hregister⟩ := List.mem_filterMap.1 hmem
  cases value with
  | register r =>
      cases hregister
      exact hu
  | _ => cases hregister

theorem SubsLaid.exists_readFrom
    {subs : List (Located Subinstruction)}
    (h : SubsLaid ts subs)
    (hsub : sub ∈ subs) :
    ∃ us, us <:+: ts ∧ ReadFrom sub us := by
  induction h with
  | nil =>
      cases hsub
  | @cons first subs us ts semicolon hread h ih =>
      rcases List.mem_cons.1 hsub with rfl | hsub
      · exact ⟨us, (List.prefix_append _ _).isInfix, hread⟩
      · obtain ⟨vs, hpart, hread'⟩ := ih hsub
        exact ⟨vs, (hpart.trans (List.suffix_cons _ _).isInfix).trans
          (List.suffix_append _ _).isInfix, hread'⟩

/-- The tokens that a sub-instruction is read from stand together. -/
theorem Laid.exists_readFrom
    (h : Laid ts is)
    (hi : i ∈ is)
    (hsub : sub ∈ i.subs) :
    ∃ us, us <:+: ts ∧ ReadFrom sub us := by
  induction h with
  | done =>
      cases hi
  | newline h ih =>
      obtain ⟨us, hpart, hread⟩ := ih hi
      exact ⟨us, hpart.trans (List.suffix_cons _ _).isInfix, hread⟩
  | @line j is us vs ts hlabel hsubs hnext h ih =>
      rcases List.mem_cons.1 hi with rfl | hi
      · obtain ⟨ws, hpart, hread⟩ := hsubs.exists_readFrom hsub
        exact ⟨ws, hpart.trans ⟨us, ts, rfl⟩, hread⟩
      · obtain ⟨ws, hpart, hread⟩ := ih hi
        exact ⟨ws, hpart.trans (List.suffix_append _ _).isInfix, hread⟩

/-- The label of an instruction is one of the tokens. -/
theorem Laid.mem_of_label
    (h : Laid ts is)
    (hi : i ∈ is)
    (hname : i.label = some name) :
    ⟨.label name.value, name.span⟩ ∈ ts := by
  induction h with
  | done =>
      cases hi
  | newline h ih =>
      exact List.mem_cons_of_mem _ (ih hi)
  | @line j is us vs ts hlabel hsubs hnext h ih =>
      rcases List.mem_cons.1 hi with rfl | hi
      · rw [hname] at hlabel
        cases hlabel
        simp
      · exact List.mem_append_right _ (ih hi)

/-- The tokens of a source are laid out in the instructions of its program. -/
theorem laid_of_program
    {s : Source}
    {p : Program}
    (h : s.program = .ok p) :
    ∃ ts, s.tokens = .ok ts ∧ Laid ts p.instructions := by
  obtain ⟨ts, hts, hp⟩ := program_eq_ok_iff.1 h
  obtain ⟨⟨lead, lines⟩, rfl, rfl⟩ := ofTokens_eq_ok_iff.1 hp
  exact ⟨_, hts, laid_newlines lead (lines.laid 0)⟩

end Programs

section LabelErrors

variable {s : Source} {p : Program}

/-- The columns of a definition hold its name. -/
theorem showsText_of_definition
    {d : Definition}
    (h : s.program = .ok p)
    (hd : d ∈ p.definitions) :
    s.ShowsText d.label.span d.label.value := by
  obtain ⟨ts, hts, hlaid⟩ := laid_of_program h
  obtain ⟨i, hi, hlabel⟩ := List.mem_filterMap.1 hd
  obtain ⟨name, hname, rfl⟩ := Option.map_eq_some_iff.1 hlabel
  exact showsText_of_mem_tokens hts (hlaid.mem_of_label hi hname) (by simp)

/-- The columns of a target hold its name. -/
theorem showsText_of_target
    {target : Located String}
    (h : s.program = .ok p)
    (htarget : target ∈ p.targets) :
    s.ShowsText target.span target.value := by
  obtain ⟨ts, hts, hlaid⟩ := laid_of_program h
  obtain ⟨i, hi, sub, hsub, hname⟩ := Program.mem_targets_iff.1 htarget
  obtain ⟨us, hpart, hread⟩ := hlaid.exists_readFrom hi hsub
  exact showsText_of_mem_tokens hts (hpart.mem (hread.mem_of_target hname)) (by simp)

/-- A label error is located at the name that is to blame. -/
theorem blames_of_label_error
    {errors : List (Located LabelError)}
    {e : Located LabelError}
    (h : s.program = .ok p)
    (herrors : p.resolve = .error errors)
    (he : e ∈ errors) :
    ∃ text, s.BlamesText (.label e) text ∧ s.ShowsText e.span text := by
  obtain ⟨ts, -, hp⟩ := program_eq_ok_iff.1 h
  obtain ⟨-, rfl⟩ := Program.errors_of_resolve herrors
  rw [(numbered_of_ofTokens hp).duplicateErrors_eq, Program.rangeErrors_eq] at he
  rcases List.mem_append.1 he with he | hmissing
  · rcases List.mem_append.1 he with hrepeated | hdistant
    · obtain ⟨d, hd, hrepetition⟩ := List.mem_filterMap.1 hrepeated
      have hspan : e.span = d.label.span := by
        obtain ⟨first, -, rfl⟩ := Option.map_eq_some_iff.1 hrepetition
        rfl
      rw [hspan]
      exact ⟨_, .repetition h hd hrepetition, showsText_of_definition h hd⟩
    · obtain ⟨target, htarget, hfar⟩ := List.mem_filterMap.1 hdistant
      have hspan : e.span = target.span := by
        obtain ⟨first, -, rfl⟩ := Option.map_eq_some_iff.1 hfar
        rfl
      rw [hspan]
      exact ⟨_, .distant h htarget hfar, showsText_of_target h htarget⟩
  · unfold Program.undefinedErrors at hmissing
    split at hmissing
    · cases hmissing
    · next target others hlist =>
        rw [List.mem_singleton.1 hmissing]
        rw [Program.missingTargets_eq] at hlist
        have hfind : p.targets.find? (fun jump => (p.first? jump.value).isNone) = some target := by
          rw [← List.head?_filter, hlist]
          rfl
        exact ⟨_, .missing h hfind (by simp [List.eraseDups_cons]),
          showsText_of_target h (List.mem_of_find?_eq_some hfind)⟩

end LabelErrors

section Conflicts

variable {labels : LabelTable} {e : Located Conflict}

/-- A conflict is located at the sub-instruction that is refused, or at the destination
of an assignment to a register that is read-only. -/
theorem blamed_of_perform
    {r : Resources}
    {sub : Located Subinstruction}
    (h : r.perform labels sub = .error (.conflict e)) :
    e.span = sub.span ∨ ∃ dest source, sub.value = .assign dest source ∧
      e = ⟨.immutable dest.value, dest.span⟩ := by
  unfold Resources.perform at h
  split at h
  · next fault hdemand =>
      cases h
      unfold Subinstruction.demand jumpDemand at hdemand
      split at hdemand
      case h_6 dest source hsub =>
          split at hdemand
          · cases hdemand
            exact Or.inr ⟨dest, source, hsub, rfl⟩
          · split at hdemand
            · cases hdemand
            · cases hdemand
              exact Or.inl rfl
      all_goals
          repeat' split at hdemand
          all_goals cases hdemand
  · cases h
  · split at h
    · cases h
    · cases h
      exact Or.inl rfl

/-- A line whose encoding meets a conflict has a first sub-instruction that its cycle
refuses. -/
theorem exists_refused_of_encodeFrom
    {r : Resources}
    {subs : List (Located Subinstruction)}
    (h : encodeFrom labels r subs = .error (.conflict e)) :
    ∃ before sub after t, subs = before ++ sub :: after ∧ (∀ x ∈ before, x.value ≠ .halt) ∧
      r.performAll labels before = .ok t ∧ t.perform labels sub = .error (.conflict e) := by
  induction subs generalizing r with
  | nil =>
      simp only [encodeFrom, Resources.word] at h
      split at h <;> cases h
  | cons sub subs ih =>
      by_cases hhalt : sub.value = .halt
      · rw [encodeFrom_halt r subs hhalt] at h
        cases h
      · rw [encodeFrom_cons r subs hhalt] at h
        cases hperform : r.perform labels sub with
        | error fault =>
            rw [hperform] at h
            cases h
            exact ⟨[], sub, subs, r, rfl, by simp, rfl, hperform⟩
        | ok t =>
            rw [hperform] at h
            obtain ⟨before, x, after, t', rfl, hbefore, hall, hx⟩ := ih h
            refine ⟨sub :: before, x, after, t', rfl, List.forall_mem_cons.2 ⟨hhalt, hbefore⟩, ?_, hx⟩
            rw [Resources.performAll, hperform]
            exact hall

theorem exists_refuses_of_emit
    {p : Program}
    (h : p.emit labels = .error (.conflict e)) :
    ∃ sub, p.Refuses labels e sub := by
  obtain ⟨above, i, below, words, hp, habove, hi⟩ := exists_faulty_of_encodeAll h
  obtain ⟨before, sub, after, t, hsubs, hbefore, hperform, hsub⟩ := exists_refused_of_encodeFrom hi
  exact ⟨sub, above, i, below, before, after, words, t, hp, habove, hsubs, hbefore, hperform, hsub⟩

/-- What is refused is a sub-instruction of the program. -/
theorem Program.Refuses.exists_instruction
    {p : Program}
    {sub : Located Subinstruction}
    (h : p.Refuses labels e sub) :
    ∃ i ∈ p.instructions, sub ∈ i.subs ∧
      ∃ t : Resources, t.perform labels sub = .error (.conflict e) := by
  obtain ⟨above, i, below, before, after, words, t, hp, -, hsubs, -, -, hperform⟩ := h
  exact ⟨i, by simp [hp], by simp [hsubs], t, hperform⟩

/-- A conflict is met with the label table of the program. -/
theorem resolved_of_conflict
    {s : Source}
    {p : Program}
    {errors : List AssemblyError}
    (h : s.assemble = .error (.errors errors))
    (hp : s.program = .ok p)
    (he : .conflict e ∈ errors) :
    ∃ labels, s.resolved = .ok (p, labels) ∧ p.emit labels = .error (.conflict e) := by
  unfold Source.assemble Source.resolved at h
  cases hresolve : p.resolve with
  | error xs =>
      simp only [hp, hresolve] at h
      cases h
      simp at he
  | ok labels =>
      refine ⟨labels, resolved_eq_ok_iff.2 ⟨hp, hresolve⟩, ?_⟩
      simp only [hp, hresolve] at h
      split at h
      · next fault hfault =>
          cases fault with
          | conflict x =>
              cases h
              cases List.mem_singleton.1 he
              exact hfault
          | defect cause => cases h
      · cases h

/-- A conflict is located at the first sub-instruction that is refused, or at the
destination of this one. -/
theorem blames_of_conflict
    {s : Source}
    {p : Program}
    (h : s.resolved = .ok (p, labels))
    (he : p.emit labels = .error (.conflict e)) :
    ∃ text, s.BlamesText (.conflict e) text ∧ s.ShowsText e.span text := by
  obtain ⟨sub, hrefuses⟩ := exists_refuses_of_emit he
  obtain ⟨ts, hts, hlaid⟩ := laid_of_program (resolved_eq_ok_iff.1 h).1
  obtain ⟨i, hi, hsub, t, hperform⟩ := hrefuses.exists_instruction
  obtain ⟨us, hpart, hread⟩ := hlaid.exists_readFrom hi hsub
  rcases blamed_of_perform hperform with hspan | ⟨dest, source, hassign, rfl⟩
  · obtain ⟨text, hplaced, hshows⟩ :=
      showsText_covering hts hpart (fun u hu => (hread.inside u hu).2.2) hread.ne_nil
    rw [← hread.span_eq] at hplaced hshows
    rw [hspan]
    exact ⟨_, .action h hrefuses hspan hts hpart hread hplaced, hshows⟩
  · exact ⟨_, .destination h hrefuses hassign rfl,
      showsText_of_mem_tokens hts (hpart.mem (hread.mem_of_dest hassign)) (by simp)⟩

end Conflicts

/-- **Errors are located at what is to blame.**  The columns of an error that is reported
hold the text that is to blame for it, unless this is a line end. -/
theorem pinpoints_of_assemble
    {s : Source}
    {errors : List AssemblyError}
    (h : s.assemble = .error (.errors errors))
    {e : AssemblyError}
    (he : e ∈ errors) :
    s.Pinpoints e := by
  rcases reported_cases h he with ⟨x, hx, rfl⟩ | ⟨ts, x, hts, hx, rfl⟩ |
    ⟨p, xs, x, hp, hxs, hx, rfl⟩ | ⟨p, -, x, hp, -, rfl⟩
  · exact Or.inl (blames_of_lex_error hx)
  · exact pinpoints_of_parse_error hts hx
  · exact Or.inl (blames_of_label_error hp hxs hx)
  · obtain ⟨labels, hresolved, hemit⟩ := resolved_of_conflict h hp he
    exact Or.inl (blames_of_conflict hresolved hemit)

end Microcode
