import Microcode.Proofs.Program.Fronts

/-!
# Parse errors point at the first impossible token

**Input.**  Any list of tokens that is not a program.

**Algorithm.**  The rule for an action decides by the tokens it has seen, and so does
the loop over the actions of a line, which stands at a `Front` whenever it starts an
action.  One round of this loop passes from a front to a front with one more action.
The rule for a line therefore accepts a line, refuses a token behind which nothing can
make the tokens a program, or awaits more tokens.

**Results.**
* `verdict_subinstructions`: one round of the loop over the actions, and all of them.
* `verdict_instruction`: the rule for a line.
* `locatedIn_of_ofTokens`: an error is located at a token that it names, or at the last
  token of all.
* `ofTokens_eq_error_of_breaks`: what breaks a rule on the shape of lines is reported
  as such.
* `ofTokens_first_error`: an error is located at the first impossible token, or at the
  last token if more of them are missing.
-/

namespace Microcode

open Grammar

/-- A token breaks a rule on the shape of lines behind the given tokens.

* The six slots of a line are taken, and the line does not end.
* A label stands where an action must start, and it is not the start of the line.
* Right behind the first operand of `band` the parentheses are closed, or a further
  operand is announced right behind all operands of an operation. -/
def Breaks (before : List (Located Token)) : StructuralError → Token → Prop
  | .tooManySubinstructions, t =>
      (∃ f : Front, f.slots = 6 ∧ f.tokens = before) ∧ t ≠ .newline
  | .misplacedLabel name, t =>
      (∃ f : Front, f.slots < 6 ∧ f.Begun ∧ f.tokens = before) ∧ t = .label name
  | .arity op, t =>
      ∃ front keyword opening ts,
        before = front ++ ⟨.keyword op.keyword, keyword⟩ :: ⟨.openParen, opening⟩ :: ts ∧
        Parser.BreaksArity op ts t

namespace Parser

variable {c d : Cursor}

section Lines

/-- The actions that complete the line of a front. -/
def Completes (f : Front) (free : Nat) (ts : List (Located Token)) : Prop :=
  ∃ as, f.actions ++ as ≠ [] ∧ as.length ≤ free ∧ actionTokens as = ts

theorem Completes.of_push
    {f : Front}
    {free : Nat}
    {a : Action}
    {semicolon : Span}
    {ts : List (Located Token)}
    (h : Completes (f.push a semicolon) free ts) :
    Completes f (free + 1) (a.tokens ++ (⟨.semicolon, semicolon⟩ :: ts)) := by
  obtain ⟨as, -, hlen, rfl⟩ := h
  exact ⟨(a, semicolon) :: as, by simp, by simpa using hlen, rfl⟩

/-- The loop over the actions of a line decides, at every front. -/
theorem verdict_subinstructions
    {free : Nat}
    {f : Front}
    (hslots : f.slots + free = Instruction.slots)
    (hlabel : ¬ f.Begun → ∀ name, ahead c.rest ≠ some (.label name))
    (hnewline : free = 0 → ahead c.rest ≠ some .newline) :
    Verdict (Completes f free) (fun us => Breaks (f.tokens ++ us)) (subinstructions free) c := by
  induction free generalizing f c with
  | zero =>
      have hactions : f.actions ≠ [] := by
        intro hnil
        have hle := length_toList_le_one f.label
        simp only [Front.slots, hnil, List.length_nil, Instruction.slots] at hslots
        omega
      refine verdict_refuse ⟨[], [], by simpa using hactions, by simp, rfl⟩ fun t ht => ?_
      refine ⟨⟨f, hslots, by simp⟩, ?_⟩
      rintro rfl
      exact hnewline rfl ht
  | succ free ih =>
      have hfree : f.slots < 6 := by
        simp only [Instruction.slots] at hslots
        omega
      have hdone : ∀ (a : Action) (semicolon : Span),
          Completes f (free + 1) (a.tokens ++ [⟨.semicolon, semicolon⟩]) :=
        fun a semicolon => ⟨[(a, semicolon)], by simp, by simp, rfl⟩
      refine (verdict_subinstruction ?_ ?_).bind ?_ ?_
      · rintro op before t ⟨dest, sign, keyword, opening, ts, -, rfl, hbreaks⟩
        exact ⟨f.tokens ++ (dest ++ [⟨.assign, sign⟩]), keyword, opening, ts, by simp, hbreaks⟩
      · intro name hname
        refine ⟨⟨f, hfree, ?_, by simp⟩, rfl⟩
        by_contra hbegun
        exact hlabel hbegun name hname
      · rintro _ ⟨a, rfl⟩
        exact ⟨_, hdone a (.point .start)⟩
      · rintro sub _ d - - ⟨a, rfl⟩
        refine (verdict_expect .semicolon).bind ?_ ?_
        · rintro _ ⟨semicolon, rfl⟩
          exact ⟨[], by simpa using hdone a semicolon⟩
        · rintro _ _ d₁ - - ⟨semicolon, rfl⟩
          refine verdict_peek_bind ?_
          split
          · exact verdict_pure (by simpa using hdone a semicolon)
          · exact verdict_pure (by simpa using hdone a semicolon)
          · next t hnewline' hahead =>
              -- The next round starts at the front with this action.
              have hround : Verdict (Completes (f.push a semicolon) free)
                  (fun us => Breaks ((f.push a semicolon).tokens ++ us))
                  (subinstructions free) d₁ := by
                refine ih ?_ ?_ ?_
                · rw [f.slots_push]
                  omega
                · intro hbegun
                  exact absurd (Or.inr (by simp [Front.push])) hbegun
                · intro _ heq
                  rw [hahead] at heq
                  exact hnewline' (Option.some.inj heq)
              simp only [f.tokens_push, List.append_assoc] at hround
              refine Verdict.bind hround (fun us hus => ⟨[], ?_⟩) fun subs us d₂ _ _ hus => ?_
              · simpa using hus.of_push
              · exact verdict_pure (by simpa using hus.of_push)

theorem verdict_definition
    {S : List (Located Token) → StructuralError → Token → Prop} :
    Verdict (fun ts => ∃ o, labelTokens o = ts) S definition c := by
  rw [definition_eq]
  refine verdict_peek_bind ?_
  split
  · refine verdict_label.bind ?_ ?_
    · rintro _ ⟨name, rfl⟩
      exact ⟨[⟨.colon, .point .start⟩], some (name, .point .start), rfl⟩
    · rintro _ _ d - - ⟨name, rfl⟩
      refine (verdict_expect .colon).bind ?_ ?_
      · rintro _ ⟨colon, rfl⟩
        exact ⟨[], some (name, colon), rfl⟩
      · rintro _ _ d₁ - - ⟨colon, rfl⟩
        exact verdict_pure ⟨some (name, colon), rfl⟩
  · exact verdict_pure ⟨none, rfl⟩

theorem Takes.tokens_eq
    {ts us : List (Located Token)}
    (h : Takes ts c d)
    (h' : Takes us c d) :
    ts = us :=
  List.append_cancel_right (h.1.symm.trans h'.1)

/-- What the rule for the label of a line has found. -/
theorem label_of_yields_definition
    {o : Option (Located String)}
    {label : Option (Located String × Span)}
    (hyields : Yields definition c o d)
    (htakes : Takes (labelTokens label) c d) :
    o.isSome = label.isSome ∧ (label = none → ∀ name, ahead d.rest ≠ some (.label name)) := by
  rcases yields_definition.1 hyields with ⟨rfl, rfl, hnone⟩ | ⟨name, colon, rfl, hlabel⟩
  · have hnil := htakes.tokens_eq (takes_nil.2 rfl)
    cases label with
    | none => exact ⟨rfl, fun _ => hnone⟩
    | some p => cases hnil
  · have hsame := htakes.tokens_eq hlabel
    cases label with
    | none => cases hsame
    | some p => exact ⟨rfl, nofun⟩

/-- The rule for a line decides behind whole lines. -/
theorem verdict_instruction
    (lead : List Span)
    (closed : List ClosedLine)
    (address : Nat) :
    Verdict (fun ts => ∃ line : Line, line.tokens = ts)
      (fun us => Breaks (wholeLines lead closed ++ us)) (instruction address) c := by
  refine verdict_definition.bind ?_ ?_
  · rintro _ ⟨label, rfl⟩
    have hle := length_toList_le_one label
    refine ⟨_, ⟨label, [(.halt (.point .start), .point .start)], by simp, ?_⟩, rfl⟩
    simp only [List.length_singleton, Instruction.slots]
    omega
  · rintro o _ d hyields htakes ⟨label, rfl⟩
    obtain ⟨hsome, hnone⟩ := label_of_yields_definition hyields htakes
    generalize hfree : (if o.isSome then Instruction.slots - 1 else Instruction.slots) = free
    have hslots : label.toList.length + free = Instruction.slots := by
      rw [← hfree, hsome]
      cases label <;> rfl
    have hlines : ∀ ts, Completes ⟨lead, closed, label, []⟩ free ts →
        ∃ line : Line, line.tokens = labelTokens label ++ ts := by
      rintro _ ⟨as, hne, hlen, rfl⟩
      refine ⟨⟨label, as, by simpa using hne, ?_⟩, rfl⟩
      omega
    have hloop : Verdict (Completes ⟨lead, closed, label, []⟩ free)
        (fun us => Breaks ((Front.mk lead closed label []).tokens ++ us))
        (subinstructions free) d := by
      refine verdict_subinstructions hslots ?_ ?_
      · intro hbegun
        refine hnone ?_
        by_contra hlabel
        exact hbegun (Or.inl hlabel)
      · rintro rfl
        have hle := length_toList_le_one label
        simp only [Instruction.slots] at hslots
        omega
    simp only [Front.tokens, actionTokens, List.append_nil, List.append_assoc] at hloop
    refine Verdict.bind hloop (fun us hus => ⟨[], ?_⟩) fun subs us d₁ _ _ hus => ?_
    · simpa using hlines us hus
    · exact verdict_pure (by simpa using hlines us hus)

end Lines

section Operands

variable {t : Located Token} {after ts : List (Located Token)} {op : ParamOp}

theorem refuse_apply
    {α : Type}
    {error : Token → ParseError}
    (h : c.rest = t :: after) :
    (refuse error : Parser α) c = .error ⟨error t.value, t.span⟩ := by
  rw [refuse, bind_apply, next_cons h]
  rfl

theorem spanning_eq_error
    {α : Type}
    {expected : Expected}
    {rule : Token → Parser α}
    {e : Located ParseError}
    (hrest : c.rest = t :: after)
    (h : rule t.value c = .error e) :
    spanning expected rule c = .error e := by
  obtain ⟨rest, last⟩ := c
  obtain rfl : rest = t :: after := hrest
  rw [spanning_cons, h]

/-- All operands of an operation are read. -/
theorem exists_yields_operands
    (h : IsOperands op ts)
    (htakes : Takes ts c d)
    (hplus : ahead d.rest ≠ some .plus) :
    ∃ expr, Yields (operands op) c expr d := by
  cases op with
  | band =>
      obtain ⟨_, comma, _, ⟨left, rfl⟩, ⟨right, rfl⟩, rfl⟩ := h
      exact ⟨_, yields_operands_band.2 ⟨left, comma, right, rfl, htakes⟩⟩
  | unary op =>
      obtain ⟨operand, rfl⟩ := h
      exact ⟨_, yields_operands_unary.2 ⟨operand, rfl, htakes, stops_of_ahead operand hplus⟩⟩

/-- A token that breaks the number of operands is refused. -/
theorem parameterized_eq_error
    {opening : Span}
    (hrest : c.rest = ⟨.openParen, opening⟩ :: (ts ++ t :: after))
    (h : BreaksArity op ts t.value) :
    parameterized op c = .error ⟨.structural (.arity op), t.span⟩ := by
  have hsplit : c.rest = [⟨.openParen, opening⟩] ++ (ts ++ t :: after) := hrest
  obtain ⟨c₁, hopening, hc₁⟩ := exists_takes hsplit
  obtain ⟨c₂, hts, hc₂⟩ := exists_takes hc₁
  have hahead : ahead c₂.rest = some t.value := by
    rw [hc₂]
    rfl
  refine bind_eq_error_of_yields (a := ()) (yields_expect.2 ⟨opening, hopening⟩) ?_
  rcases h with ⟨rfl, ⟨left, rfl⟩, ht⟩ | ⟨hoperands, ht⟩
  · refine bind_eq_error (bind_eq_error_of_yields (yields_register.2 ⟨left, rfl, hts⟩) ?_)
    refine bind_eq_error ?_
    rw [secondOperand, peek_bind_apply, hahead, ht]
    exact refuse_apply hc₂
  · obtain ⟨expr, hyields⟩ := exists_yields_operands hoperands hts (by rw [hahead, ht]; simp)
    refine bind_eq_error_of_yields hyields ?_
    rw [peek_bind_apply, hahead, ht]
    exact refuse_apply hc₂

theorem subinstruction_eq_error_of_arity
    {before : List (Located Token)}
    (hrest : c.rest = before ++ t :: after)
    (h : BreaksAssignedArity op before t.value) :
    subinstruction c = .error ⟨.structural (.arity op), t.span⟩ := by
  obtain ⟨_, sign, keyword, opening, ts, ⟨dest, rfl⟩, rfl, hbreaks⟩ := h
  have hsplit : c.rest = dest.tokens ++ ([⟨.assign, sign⟩] ++ ([⟨.keyword op.keyword, keyword⟩] ++
      ⟨.openParen, opening⟩ :: (ts ++ t :: after))) := by
    rw [hrest]
    simp
  obtain ⟨c₁, hdest, hc₁⟩ := exists_takes hsplit
  obtain ⟨c₂, hassign, hc₂⟩ := exists_takes hc₁
  obtain ⟨c₃, hkeyword, hc₃⟩ := exists_takes hc₂
  have hsource : source c₂ = .error ⟨.structural (.arity op), t.span⟩ := by
    refine spanning_eq_error hc₂ ?_
    simp only [ParamOp.ofKeyword?_keyword]
    exact bind_eq_error_of_yields (yields_next.2 hkeyword) (parameterized_eq_error hc₃ hbreaks)
  have hassignment : assignment c = .error ⟨.structural (.arity op), t.span⟩ :=
    bind_eq_error_of_yields (yields_register.2 ⟨dest, rfl, hdest⟩)
      (bind_eq_error_of_yields (a := ()) (yields_expect.2 ⟨sign, hassign⟩) (bind_eq_error hsource))
  cases dest with
  | bare r => exact spanning_eq_error hsplit hassignment
  | wrapped first r closing => exact spanning_eq_error hsplit hassignment

end Operands

end Parser

open Microcode.Parser

section FirstErrors

variable {before after : List (Located Token)} {t : Located Token} {start : Span}

theorem not_atEnd_cons
    (h : t.value ≠ .newline) :
    ¬ AtEnd (t :: after) := by
  simpa [AtEnd] using h

/-- The last token of all is one of those that are left. -/
theorem exists_getLast_ending
    {c : Cursor}
    (hne : c.rest ≠ []) :
    ∃ t, c.rest.getLast? = some t ∧ c.ending = t.span := by
  have hlast := List.getLast?_eq_some_getLast hne
  exact ⟨_, hlast, by rw [Cursor.ending, hlast]; rfl⟩

/-- A line end breaks no rule on the shape of lines. -/
theorem Breaks.ne_newline
    {error : StructuralError}
    {t : Token}
    (h : Breaks before error t) :
    t ≠ .newline := by
  cases error with
  | tooManySubinstructions => exact h.2
  | misplacedLabel name =>
      rw [h.2]
      simp
  | arity op =>
      obtain ⟨-, -, -, -, -, ⟨-, -, rfl⟩ | ⟨-, rfl⟩⟩ := h <;> simp

/-- Whether an error is about a token: it says that it found this one, or it is about
the shape of a line, of which a line end is no part. -/
def ParseError.Concerns : ParseError → Token → Prop
  | unexpected _ found, t => found = t
  | structural _, t => t ≠ .newline
  | _, _ => False

/-- An error about missing tokens is about none of those that are there. -/
theorem ParseError.AtEnd.not_concerns
    {error : ParseError}
    {t : Token}
    (h : error.AtEnd) :
    ¬ error.Concerns t := by
  cases error with
  | unexpected expected found => exact h.elim
  | structural error => exact h.elim
  | _ => exact id

/-- An error is located at a token that it names, or at the last one, which is no line
end, because tokens are missing behind it. -/
def LocatedIn (ts : List (Located Token)) (e : Located ParseError) : Prop :=
  (∃ t ∈ ts, e.span = t.span ∧ e.value.Concerns t.value) ∨
    (e.value.AtEnd ∧ ∃ t, ts.getLast? = some t ∧ t.value ≠ .newline ∧ e.span = t.span)

/-- A parse error is located at a token that it names, or at the last token of all. -/
theorem locatedIn_of_ofTokens
    {ts : List (Located Token)}
    {e : Located ParseError}
    (h : Program.ofTokens ts start = .error e) :
    LocatedIn ts e := by
  obtain ⟨lead, closed, d, htakes, hd, herror⟩ := ofTokens_eq_error_iff.1 h
  obtain rfl : ts = wholeLines lead closed ++ d.rest := htakes.1
  cases verdict_instruction (c := d) lead closed closed.length with
  | accepts i us d' hus htakes' hrun =>
      have hyields := yields_of_accepts htakes' hrun
      rw [Yields, herror] at hyields
      cases hyields
  | refuses before t after error hrest hrefutes hlang hrun =>
      have hrun' := hrun after
      rw [← hrest, herror] at hrun'
      cases hrun'
      refine Or.inl ⟨t, by simp [hrest], rfl, ?_⟩
      cases error with
      | unexpected expected found => exact hrefutes
      | structural error => exact Breaks.ne_newline hrefutes
      | _ => exact hrefutes.elim
  | awaits e' hrun hend hspan hlang =>
      rw [herror] at hrun
      cases hrun
      obtain ⟨us, line, hline⟩ := hlang
      obtain ⟨t, hlast, hending⟩ := exists_getLast_ending (ne_nil_of_not_atEnd hd)
      have hmem : t ∈ line.tokens := by
        rw [hline]
        exact List.mem_append_left _ (List.mem_of_getLast? hlast)
      refine Or.inr ⟨hend, t, ?_, line.ne_newline t hmem, hspan.trans hending⟩
      rw [List.getLast?_append, hlast]
      rfl

/-- What breaks a rule on the shape of lines is reported as such. -/
theorem ofTokens_eq_error_of_breaks
    {error : StructuralError}
    (after : List (Located Token))
    (hviable : Viable before start)
    (h : Breaks before error t.value) :
    Program.ofTokens (before ++ t :: after) start = .error ⟨.structural error, t.span⟩ := by
  cases error with
  | tooManySubinstructions =>
      obtain ⟨⟨f, hslots, rfl⟩, hnewline⟩ := h
      have hbegun : f.Begun := by
        by_contra hnot
        simp only [Front.Begun, not_or, not_not] at hnot
        simp [Front.slots, hnot.1, hnot.2] at hslots
      exact ofTokens_eq_error_of_front 0 hslots (not_atEnd_cons hnewline) (Or.inl hbegun)
        fun last => refuse_apply rfl
  | misplacedLabel name =>
      obtain ⟨⟨f, hslots, hbegun, rfl⟩, hname⟩ := h
      obtain ⟨free, hfree⟩ := Nat.exists_eq_add_of_lt hslots
      refine ofTokens_eq_error_of_front (free + 1) hfree.symm
        (not_atEnd_cons (by simp [hname])) (Or.inl hbegun) fun last => ?_
      refine bind_eq_error (spanning_eq_error rfl ?_)
      rw [hname]
      exact refuse_apply rfl
  | arity op =>
      obtain ⟨front, keyword, opening, ts, rfl, hbreaks⟩ := h
      obtain ⟨f, dest, sign, hslots, rfl⟩ := exists_front_of_viable hviable
      obtain ⟨free, hfree⟩ := Nat.exists_eq_add_of_lt hslots
      have hassigned : BreaksAssignedArity op (dest.tokens ++ ⟨.assign, sign⟩ ::
          ⟨.keyword op.keyword, keyword⟩ :: ⟨.openParen, opening⟩ :: ts) t.value :=
        ⟨dest.tokens, sign, keyword, opening, ts, ⟨dest, rfl⟩, rfl, hbreaks⟩
      have hsplit : f.tokens ++ (dest.tokens ++ [⟨.assign, sign⟩]) ++
          ⟨.keyword op.keyword, keyword⟩ :: ⟨.openParen, opening⟩ :: ts ++ t :: after =
          f.tokens ++ ((dest.tokens ++ ⟨.assign, sign⟩ :: ⟨.keyword op.keyword, keyword⟩ ::
            ⟨.openParen, opening⟩ :: ts) ++ t :: after) := by
        simp
      rw [hsplit]
      refine ofTokens_eq_error_of_front (free + 1) hfree.symm ?_ (Or.inr ?_) fun last => ?_
      · cases dest <;> simp [Reg.tokens, AtEnd]
      · cases dest <;> simp [Reg.tokens]
      · exact bind_eq_error (subinstruction_eq_error_of_arity rfl hassigned)

/-- **Parse errors point at the first impossible token.**  Call tokens viable if some
tokens complete them to a program.  If tokens are no program, there are two cases.

Either tokens are missing: the error is located at the last token, and the tokens are
viable.  Or the error is located at a token such that the tokens before it are viable,
but not with this token.  Then an unexpected token is this one, and a rule on the shape
of lines is reported if and only if this token breaks it. -/
theorem ofTokens_first_error
    (tokens : List (Located Token))
    (start : Span)
    (e : Located ParseError)
    (h : Program.ofTokens tokens start = .error e) :
    (e.value.AtEnd ∧ (∃ t, tokens.getLast? = some t ∧ e.span = t.span) ∧ Viable tokens start) ∨
    (¬ e.value.AtEnd ∧
      ∃ before t after, tokens = before ++ t :: after ∧ e.span = t.span ∧
        Viable before start ∧ ¬ Viable (before ++ [t]) start ∧
        (∀ expected found, e.value = .unexpected expected found → found = t.value) ∧
        ∀ error, e.value = .structural error ↔ Breaks before error t.value) := by
  obtain ⟨lead, closed, d, htakes, hd, herror⟩ := ofTokens_eq_error_iff.1 h
  have htokens : tokens = wholeLines lead closed ++ d.rest := htakes.1
  cases verdict_instruction (c := d) lead closed closed.length with
  | accepts i ts d' hts htakes' hrun =>
      have hyields := yields_of_accepts htakes' hrun
      rw [Yields, herror] at hyields
      cases hyields
  | awaits e' hrun hend hspan hlang =>
      rw [herror] at hrun
      cases hrun
      obtain ⟨us, line, hline⟩ := hlang
      refine Or.inl ⟨hend, ?_, ?_⟩
      · obtain ⟨t, hlast, hending⟩ := exists_getLast_ending (ne_nil_of_not_atEnd hd)
        refine ⟨t, ?_, hspan.trans hending⟩
        rw [htokens, List.getLast?_append, hlast]
        rfl
      · rw [htokens]
        exact viable_of_line start hline
  | refuses before t after error hrest hrefutes hlang hrun =>
      have he : e = ⟨error, t.span⟩ := by
        have hd' := hrun after
        rw [← hrest] at hd'
        exact Except.error.inj (herror.symm.trans hd')
      subst he
      obtain ⟨us, line, hline⟩ := hlang
      have hviable : Viable (wholeLines lead closed ++ before) start := viable_of_line start hline
      -- The rule for the line fails in the same way whatever stands behind the token.
      have hfails : ∀ more, Program.ofTokens (wholeLines lead closed ++ before ++ t :: more) start =
          .error ⟨error, t.span⟩ := by
        intro more
        refine ofTokens_eq_error_iff.2
          ⟨lead, closed, ⟨before ++ t :: more, d.last⟩, ⟨?_, htakes.2⟩, ?_, hrun more⟩
        · simp
        · have hsame : ahead (before ++ t :: more) = ahead d.rest := by
            rw [hrest]
            exact ahead_congr (head?_before before more after t)
          rwa [AtEnd, hsame]
      refine Or.inr ⟨?_, wholeLines lead closed ++ before, t, after, ?_, rfl, hviable, ?_, ?_, ?_⟩
      · exact hrefutes.not_atEnd
      · rw [htokens, hrest, List.append_assoc]
      · rintro ⟨more, p, hp⟩
        rw [List.append_assoc, List.singleton_append, hfails more] at hp
        cases hp
      · rintro expected found rfl
        exact hrefutes
      · intro broken
        constructor
        · rintro rfl
          exact hrefutes
        · intro hbreaks
          have hreported := ofTokens_eq_error_of_breaks after hviable hbreaks
          rw [hfails after] at hreported
          exact congrArg Located.value (Except.error.inj hreported)

/-- In `a := band(b);` the closing parenthesis is the first impossible token. -/
theorem ofTokens_first_error_band :
    ∃ tokens : List (Located Token),
      tokens = [⟨.register .a, .point ⟨1, 1⟩⟩, ⟨.assign, ⟨⟨1, 3⟩, ⟨1, 4⟩⟩⟩,
        ⟨.keyword .band, ⟨⟨1, 6⟩, ⟨1, 9⟩⟩⟩, ⟨.openParen, .point ⟨1, 10⟩⟩,
        ⟨.register .b, .point ⟨1, 11⟩⟩, ⟨.closeParen, .point ⟨1, 12⟩⟩,
        ⟨.semicolon, .point ⟨1, 13⟩⟩] ∧
      Program.ofTokens tokens (.point .start) =
        .error ⟨.structural (.arity .band), .point ⟨1, 12⟩⟩ ∧
      ∃ before t after, tokens = before ++ t :: after ∧ t.span = .point ⟨1, 12⟩ ∧
        Viable before (.point .start) ∧ ¬ Viable (before ++ [t]) (.point .start) ∧
        Breaks before (.arity .band) t.value := by
  refine ⟨_, rfl, (and_iff_left_of_imp fun herror => ?_).2 (ofTokens_eq_error_iff.2
    ⟨[], [], _, takes_nil.2 rfl, by simp [AtEnd], rfl⟩)⟩
  rcases ofTokens_first_error _ _ _ herror with
    ⟨hend, -⟩ | ⟨-, before, t, after, htokens, hspan, hviable, hnot, -, hbreaks⟩
  · exact hend.elim
  · exact ⟨before, t, after, htokens, hspan.symm, hviable, hnot, (hbreaks _).1 rfl⟩

end FirstErrors

end Microcode
