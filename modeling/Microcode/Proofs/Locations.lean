import Microcode.Proofs.Encoding.Safety
import Microcode.Proofs.Program.FirstError
import Microcode.Proofs.Program.WellFormed
import Microcode.Proofs.Token.Spans

/-!
# Reported locations lie inside the text

**Input.**  A source that is not assembled.

**Algorithm.**  Every phase takes its locations from the tokens.  A lexical error is at
the place of a character.  A parse error is at a token.  What a program keeps are the
spans of tokens and of the tokens of an action, which stand on one line; label errors
and conflicts are located at these.

**Results.**
* `shows_covering`: a run of tokens without a line end lies on one line.
* `shownIn_of_program`: the spans of a program are on lines of its source.
* `Program.ShownIn.label_error` and `Program.ShownIn.conflict`: so are label errors and
  conflicts.
* `fits_of_assemble`: reported spans fit in 32 bits if the lines and columns of the text
  stay below the bound.
* `located_of_assemble`: every reported location lies inside the text.
-/

namespace Microcode

namespace Grammar

theorem Reg.mem_tokens
    (r : Reg) :
    ⟨.register r.register.value, r.register.span⟩ ∈ r.tokens := by
  cases r <;> simp [Reg.tokens, Reg.register]

/-- The destination of an action is one of its tokens. -/
theorem Action.mem_tokens_of_dest
    (a : Action)
    {dest : Located Register}
    {source : Located Expr}
    (h : a.located.value = .assign dest source) :
    ⟨.register dest.value, dest.span⟩ ∈ a.tokens := by
  cases a with
  | assign reg sign right =>
      cases h
      exact List.mem_append_left _ reg.mem_tokens
  | _ => cases h

/-- The tokens of a line stand together. -/
theorem Lines.exists_line
    {lines : Lines}
    {address : Nat}
    {i : Instruction}
    (h : i ∈ lines.instructions address) :
    ∃ line n, i = Line.instruction n line ∧ line.tokens <:+: lines.tokens := by
  induction lines generalizing address with
  | done =>
      cases h
  | last line =>
      exact ⟨line, address, List.mem_singleton.1 h, List.infix_rfl⟩
  | ended line newline more rest ih =>
      rcases List.mem_cons.1 h with rfl | h
      · refine ⟨line, address, rfl, ?_⟩
        rw [Lines.tokens, List.append_assoc]
        exact (List.prefix_append _ _).isInfix
      · obtain ⟨line', n, hi, hpart⟩ := ih h
        exact ⟨line', n, hi, hpart.trans (List.suffix_append _ _).isInfix⟩

end Grammar

section Programs

open Grammar

variable {s : Source} {ts : List (Located Token)}

/-- From the start of one token to the end of a later one. -/
theorem first_le_last_covering
    (hpairwise : ts.Pairwise fun t u => t.span.last < u.span.first)
    (hspan : ∀ t ∈ ts, t.span.first ≤ t.span.last)
    (hne : ts ≠ []) :
    (covering ts hne).first ≤ (covering ts hne).last := by
  cases ts with
  | nil => exact absurd rfl hne
  | cons t ts =>
      by_cases hts : ts = []
      · subst hts
        exact hspan t (List.mem_cons_self ..)
      · have hmem := List.getLast_mem hts
        have hlast : (covering (t :: ts) hne).last = (ts.getLast hts).span.last := by
          rw [covering, List.getLast_cons hts]
          rfl
        rw [hlast]
        calc t.span.first
          _ ≤ t.span.last := hspan t (List.mem_cons_self ..)
          _ ≤ (ts.getLast hts).span.first := le_of_lt (List.rel_of_pairwise_cons hpairwise hmem)
          _ ≤ (ts.getLast hts).span.last := hspan _ (List.mem_cons_of_mem _ hmem)

/-- A run of tokens without a line end lies on one line of the text. -/
theorem shows_covering
    {us : List (Located Token)}
    (h : s.tokens = .ok ts)
    (hpart : us <:+: ts)
    (hus : ∀ t ∈ us, t.value ≠ .newline)
    (hne : us ≠ []) :
    s.Shows (covering us hne) := by
  have hwithin : ∀ t ∈ us, s.Within t.span := fun t ht => within_of_mem_tokens h (hpart.mem ht)
  have hfirst := List.head_mem hne
  have hlast := List.getLast_mem hne
  obtain ⟨before, after, rfl⟩ := hpart
  have hplaced := placed_of_tokens h
  rw [List.append_assoc] at hplaced
  obtain ⟨front, rest, -, hrest⟩ := hplaced.exists_rest
  refine ⟨⟨?_, (hwithin _ hfirst).first, (hwithin _ hlast).last⟩, ?_⟩
  · exact first_le_last_covering (hrest.pairwise.sublist (List.sublist_append_left _ _))
      (fun t ht => (hwithin t ht).first_le_last) hne
  · exact (hrest.line_eq hus hfirst).1.trans (hrest.line_eq hus hlast).2.symm

/-- A program whose labels, actions, targets and destinations are on lines of a source. -/
structure Program.ShownIn (p : Program) (s : Source) : Prop where
  label : ∀ i ∈ p.instructions, ∀ name, i.label = some name → s.Shows name.span
  sub : ∀ i ∈ p.instructions, ∀ sub ∈ i.subs, s.Shows sub.span
  target : ∀ i ∈ p.instructions, ∀ sub ∈ i.subs, ∀ name,
    sub.value.target? = some name → s.Shows name.span
  dest : ∀ i ∈ p.instructions, ∀ sub ∈ i.subs, ∀ dest source,
    sub.value = .assign dest source → s.Shows dest.span

/-- The spans of a program are on lines of its source. -/
theorem shownIn_of_program
    {p : Program}
    (h : s.program = .ok p) :
    p.ShownIn s := by
  obtain ⟨ts, hts, hp⟩ := program_eq_ok_iff.1 h
  obtain ⟨⟨lead, lines⟩, rfl, rfl⟩ := ofTokens_eq_ok_iff.1 hp
  have hline : ∀ i ∈ lines.instructions 0, ∃ line n, i = Line.instruction n line ∧
      line.tokens <:+: Derivation.tokens ⟨lead, lines⟩ := by
    intro i hi
    obtain ⟨line, n, rfl, hpart⟩ := Lines.exists_line hi
    exact ⟨line, n, rfl, hpart.trans (List.suffix_append _ _).isInfix⟩
  have hsub : ∀ i ∈ lines.instructions 0, ∀ sub ∈ i.subs, ∃ a : Action, sub = a.located ∧
      a.tokens <:+: Derivation.tokens ⟨lead, lines⟩ := by
    intro i hi sub hsub
    obtain ⟨line, n, rfl, hpart⟩ := hline i hi
    obtain ⟨a, ha, rfl⟩ := List.mem_map.1 hsub
    exact ⟨a.1, rfl, (infix_actionTokens ha).trans ((List.suffix_append _ _).isInfix.trans hpart)⟩
  exact {
    label := by
      intro i hi name hname
      obtain ⟨line, n, rfl, hpart⟩ := hline i hi
      obtain ⟨⟨name, colon⟩, hlabel, rfl⟩ := Option.map_eq_some_iff.1 hname
      refine shows_of_mem_tokens (t := ⟨.label name.value, name.span⟩) hts (hpart.mem ?_) (by simp)
      simp [Line.tokens, hlabel, labelTokens]
    sub := by
      intro i hi sub hmem
      obtain ⟨a, rfl, hpart⟩ := hsub i hi sub hmem
      exact shows_covering hts hpart (fun t ht => (a.inside t ht).2.2) a.tokens_ne_nil
    target := by
      intro i hi sub hmem name hname
      obtain ⟨a, rfl, hpart⟩ := hsub i hi sub hmem
      exact shows_of_mem_tokens hts (hpart.mem (a.mem_tokens_of_target hname)) (by simp)
    dest := by
      intro i hi sub hmem dest source hassign
      obtain ⟨a, rfl, hpart⟩ := hsub i hi sub hmem
      exact shows_of_mem_tokens hts (hpart.mem (a.mem_tokens_of_dest hassign)) (by simp) }

end Programs

section Labels

/-- A doubled definition is reported where it stands, with the place of another one. -/
theorem exists_of_mem_sort
    {known ds : List Definition}
    {e : Located LabelError}
    (h : e ∈ (Definition.sort known ds).2) :
    ∃ d ∈ ds, ∃ first ∈ known ++ ds,
      e = ⟨.duplicate d.label.value first.label.span, d.label.span⟩ := by
  induction ds generalizing known with
  | nil =>
      cases h
  | cons d ds ih =>
      cases hfind : known.find? fun k => k.label.value == d.label.value with
      | some first =>
          simp only [Definition.sort, hfind] at h
          rcases List.mem_cons.1 h with rfl | h
          · exact ⟨d, List.mem_cons_self .., first,
              List.mem_append_left _ (List.mem_of_find?_eq_some hfind), rfl⟩
          · obtain ⟨d', hd', first', hfirst, rfl⟩ := ih h
            refine ⟨d', List.mem_cons_of_mem _ hd', first', ?_, rfl⟩
            rcases List.mem_append.1 hfirst with hfirst | hfirst <;> simp [hfirst]
      | none =>
          simp only [Definition.sort, hfind] at h
          obtain ⟨d', hd', first', hfirst, rfl⟩ := ih h
          refine ⟨d', List.mem_cons_of_mem _ hd', first', ?_, rfl⟩
          rcases List.mem_append.1 hfirst with hfirst | hfirst
          · rcases List.mem_cons.1 hfirst with rfl | hfirst <;> simp [*]
          · simp [hfirst]

variable {p : Program} {s : Source}

theorem Program.ShownIn.definition
    (h : p.ShownIn s)
    {d : Definition}
    (hmem : d ∈ p.definitions) :
    s.Shows d.label.span := by
  obtain ⟨i, hi, hlabel⟩ := List.mem_filterMap.1 hmem
  obtain ⟨name, hname, rfl⟩ := Option.map_eq_some_iff.1 hlabel
  exact h.label i hi name hname

theorem Program.ShownIn.target_of_mem
    (h : p.ShownIn s)
    {target : Located String}
    (hmem : target ∈ p.targets) :
    s.Shows target.span := by
  obtain ⟨i, hi, htarget⟩ := List.mem_flatMap.1 hmem
  obtain ⟨sub, hsub, hname⟩ := List.mem_filterMap.1 htarget
  exact h.target i hi sub hsub target hname

/-- Label errors are located at labels, and so is the first definition that one of them
cites. -/
theorem Program.ShownIn.label_error
    (h : p.ShownIn s)
    {errors : List (Located LabelError)}
    (herrors : p.resolve = .error errors)
    {e : Located LabelError}
    (he : e ∈ errors) :
    s.Shows e.span ∧ ∀ name first, e.value = .duplicate name first → s.Shows first := by
  have hall : e ∈ p.duplicateErrors ++ p.rangeErrors ++ p.undefinedErrors := by
    unfold Program.resolve at herrors
    split at herrors
    · cases herrors
    · cases herrors
      exact he
  rcases List.mem_append.1 hall with hall | hundefined
  · rcases List.mem_append.1 hall with hduplicate | hrange
    · obtain ⟨d, hd, first, hfirst, rfl⟩ := exists_of_mem_sort hduplicate
      refine ⟨h.definition hd, fun name span heq => ?_⟩
      cases heq
      exact h.definition hfirst
    · obtain ⟨target, htarget, heq⟩ := List.mem_filterMap.1 hrange
      split at heq
      · split at heq
        · cases heq
          exact ⟨h.target_of_mem htarget, by simp⟩
        · cases heq
      · cases heq
  · unfold Program.undefinedErrors at hundefined
    split at hundefined
    · cases hundefined
    · next first others hmissing =>
        rw [List.mem_singleton.1 hundefined]
        have hfirst : first ∈ p.missingTargets := by rw [hmissing]; exact List.mem_cons_self ..
        exact ⟨h.target_of_mem (List.mem_filter.1 hfirst).1, by simp⟩

end Labels

section Conflicts

variable {labels : LabelTable} {e : Located Conflict}

/-- A conflict is located at a sub-instruction, or at the destination of one. -/
def BlamedOn (e : Located Conflict) (sub : Located Subinstruction) : Prop :=
  e.span = sub.span ∨ ∃ dest source, sub.value = .assign dest source ∧ e.span = dest.span

theorem blamedOn_of_demand
    {sub : Located Subinstruction}
    (h : Subinstruction.demand labels sub = .error (.conflict e)) :
    BlamedOn e sub := by
  unfold Subinstruction.demand jumpDemand at h
  split at h
  case h_6 dest source hsub =>
      split at h
      · cases h
        exact Or.inr ⟨dest, source, hsub, rfl⟩
      · split at h
        · cases h
        · cases h
          exact Or.inl rfl
  all_goals
      repeat' split at h
      all_goals cases h

theorem conflict_of_encodeFrom
    {t : Resources}
    {subs : List (Located Subinstruction)}
    (h : encodeFrom labels t subs = .error (.conflict e)) :
    ∃ sub ∈ subs, BlamedOn e sub := by
  induction subs generalizing t with
  | nil =>
      simp only [encodeFrom, Resources.word] at h
      split at h <;> cases h
  | cons sub subs ih =>
      simp only [encodeFrom] at h
      split at h
      · next fault hfault =>
          cases h
          exact ⟨sub, List.mem_cons_self .., blamedOn_of_demand hfault⟩
      · cases h
      · split at h
        · obtain ⟨x, hx, hblamed⟩ := ih h
          exact ⟨x, List.mem_cons_of_mem _ hx, hblamed⟩
        · cases h
          exact ⟨sub, List.mem_cons_self .., Or.inl rfl⟩

theorem Program.ShownIn.conflict
    {p : Program}
    {s : Source}
    (h : p.ShownIn s)
    (he : p.emit labels = .error (.conflict e)) :
    s.Shows e.span := by
  obtain ⟨above, i, below, -, hp, -, hfault⟩ := exists_faulty_of_encodeAll he
  have hi : i ∈ p.instructions := by simp [hp]
  obtain ⟨sub, hsub, hspan | ⟨dest, source, hassign, hspan⟩⟩ := conflict_of_encodeFrom hfault
  · rw [hspan]
    exact h.sub i hi sub hsub
  · rw [hspan]
    exact h.dest i hi sub hsub dest source hassign

end Conflicts

section Sources

/-- The phase that reports an error. -/
theorem reported_cases
    {s : Source}
    {errors : List AssemblyError}
    (h : s.assemble = .error (.errors errors))
    {e : AssemblyError}
    (he : e ∈ errors) :
    (∃ x, s.tokens = .error x ∧ e = .lex x) ∨
      (∃ ts x, s.tokens = .ok ts ∧ Program.ofTokens ts (.point .start) = .error x ∧
        e = .parse x) ∨
      (∃ p xs x, s.program = .ok p ∧ p.resolve = .error xs ∧ x ∈ xs ∧ e = .label x) ∨
      ∃ p labels x, s.program = .ok p ∧ p.emit labels = .error (.conflict x) ∧
        e = .conflict x := by
  unfold Source.assemble Source.resolved at h
  cases hprogram : s.program with
  | error x =>
      simp only [hprogram] at h
      cases h
      rw [List.mem_singleton.1 he]
      unfold Source.program at hprogram
      split at hprogram
      · next x hx =>
          cases hprogram
          exact Or.inl ⟨x, hx, rfl⟩
      · next ts hts =>
          split at hprogram
          · next x hx =>
              cases hprogram
              exact Or.inr (Or.inl ⟨ts, x, hts, hx, rfl⟩)
          · cases hprogram
  | ok p =>
      right; right
      cases hresolve : p.resolve with
      | error xs =>
          simp only [hprogram, hresolve] at h
          cases h
          obtain ⟨x, hx, rfl⟩ := List.mem_map.1 he
          exact Or.inl ⟨p, xs, x, rfl, hresolve, hx, rfl⟩
      | ok labels =>
          cases hemit : p.emit labels with
          | ok words =>
              simp only [hprogram, hresolve, hemit] at h
              cases h
          | error fault =>
              simp only [hprogram, hresolve, hemit] at h
              cases fault with
              | conflict x =>
                  cases h
                  rw [List.mem_singleton.1 he]
                  exact Or.inr ⟨p, labels, x, rfl, hemit, rfl⟩
              | defect cause => cases h

/-- A parse error lies inside the text, on one line unless it found a line end. -/
theorem within_of_locatedIn
    {s : Source}
    {ts : List (Located Token)}
    (hts : s.tokens = .ok ts)
    {e : Located ParseError}
    (h : LocatedIn ts e) :
    s.Shows e.span ∨ (s.Within e.span ∧
      ∃ t ∈ ts, ∃ expected, t.value = .newline ∧ e = ⟨.unexpected expected .newline, t.span⟩) := by
  obtain ⟨error, span⟩ := e
  rcases h with ⟨t, ht, rfl, hconcerns⟩ | ⟨-, t, hlast, hvalue, rfl⟩
  · by_cases hvalue : t.value = .newline
    · -- Only an unexpected token can be a line end.
      rw [hvalue] at hconcerns
      refine Or.inr ⟨within_of_mem_tokens hts ht, t, ht, ?_⟩
      cases error with
      | unexpected expected found =>
          obtain rfl : found = .newline := hconcerns
          exact ⟨expected, hvalue, rfl⟩
      | structural error => exact absurd rfl hconcerns
      | missing expected => cases hconcerns
      | unexpectedEnd => cases hconcerns
    · exact Or.inl (shows_of_mem_tokens hts ht hvalue)
  · exact Or.inl (shows_of_mem_tokens hts (List.mem_of_getLast? hlast) hvalue)

/-- A reported error lies on one line of the text, unless it is a parse error at a line
end. -/
theorem shows_or_newline_of_assemble
    {s : Source}
    {errors : List AssemblyError}
    (h : s.assemble = .error (.errors errors))
    {e : AssemblyError}
    (he : e ∈ errors) :
    s.Shows e.span ∨ (s.Within e.span ∧
      ∃ ts t expected, s.tokens = .ok ts ∧ t ∈ ts ∧ t.value = .newline ∧
        e = .parse ⟨.unexpected expected .newline, t.span⟩) := by
  rcases reported_cases h he with ⟨x, hx, rfl⟩ | ⟨ts, x, hts, hx, rfl⟩ |
    ⟨p, xs, x, hp, hxs, hx, rfl⟩ | ⟨p, labels, x, hp, hx, rfl⟩
  · exact Or.inl (shows_of_lex_error hx)
  · rcases within_of_locatedIn hts (locatedIn_of_ofTokens hx) with
      hshows | ⟨hwithin, t, ht, expected, hvalue, rfl⟩
    · exact Or.inl hshows
    · exact Or.inr ⟨hwithin, ts, t, expected, hts, ht, hvalue, rfl⟩
  · exact Or.inl ((shownIn_of_program hp).label_error hxs hx).1
  · exact Or.inl ((shownIn_of_program hp).conflict hx)

/-- The spans of reported errors fit in 32 bits if the lines and columns of the text stay
below the bound. -/
theorem fits_of_assemble
    {s : Source}
    (hlines : s.lines.length < 2 ^ 32 - 1)
    (hcolumns : ∀ line ∈ s.lines, line.length < 2 ^ 32 - 1)
    {errors : List AssemblyError}
    (h : s.assemble = .error (.errors errors))
    {e : AssemblyError}
    (he : e ∈ errors) :
    e.span.first.Fits ∧ e.span.last.Fits := by
  rcases shows_or_newline_of_assemble h he with hshows | ⟨hwithin, -⟩
  · exact hshows.toWithin.fits hlines hcolumns
  · exact hwithin.fits hlines hcolumns

/-- **Locations lie inside the text.**  Every reported error, and every first definition
that an error cites, starts and ends on lines of the text, at a column of the line or
right behind it, and does not end before it starts.  It starts and ends on the same
line, unless it is a parse error at a line end. -/
theorem located_of_assemble
    (s : Source)
    (errors : List AssemblyError)
    (h : s.assemble = .error (.errors errors)) :
    ∀ e ∈ errors, s.Within e.span ∧
      (∀ name first span, e = .label ⟨.duplicate name first, span⟩ → s.Shows first) ∧
      (e.span.first.line ≠ e.span.last.line →
        ∃ ts t expected, s.tokens = .ok ts ∧ t ∈ ts ∧ t.value = .newline ∧
          e = .parse ⟨.unexpected expected .newline, t.span⟩) := by
  intro e he
  have hfirst : ∀ name first span, e = .label ⟨.duplicate name first, span⟩ → s.Shows first := by
    rintro name first span rfl
    rcases reported_cases h he with ⟨x, -, hx⟩ | ⟨ts, x, -, -, hx⟩ |
      ⟨p, xs, x, hp, hxs, hmem, hx⟩ | ⟨p, labels, x, -, -, hx⟩
    · cases hx
    · cases hx
    · cases hx
      exact ((shownIn_of_program hp).label_error hxs hmem).2 name first rfl
    · cases hx
  rcases shows_or_newline_of_assemble h he with hshows | ⟨hwithin, hnewline⟩
  · exact ⟨hshows.toWithin, hfirst, fun hne => absurd hshows.line_eq hne⟩
  · exact ⟨hwithin, hfirst, fun _ => hnewline⟩

/-- A missing `;` before empty lines is reported from the end of its line to the last of
them. -/
theorem located_of_assemble_newlines :
    let s : Source := ⟨"newlines", "rd\n\n\nwr;"⟩
    let e : AssemblyError :=
      .parse ⟨.unexpected (.token .semicolon) .newline, ⟨⟨1, 3⟩, ⟨3, 1⟩⟩⟩
    s.assemble = .error (.errors [e]) ∧ s.Within e.span ∧
      ∃ ts t expected, s.tokens = .ok ts ∧ t ∈ ts ∧ t.value = .newline ∧
        e = .parse ⟨.unexpected expected .newline, t.span⟩ := by
  intro s e
  have hasm : s.assemble = .error (.errors [e]) := by decide +kernel
  obtain ⟨hwithin, -, hline⟩ := located_of_assemble s _ hasm e (List.mem_singleton_self e)
  exact ⟨hasm, hwithin, hline (by decide)⟩

end Sources

end Microcode
