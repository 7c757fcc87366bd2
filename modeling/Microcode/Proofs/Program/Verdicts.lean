import Microcode.Proofs.Program.Parsing

/-!
# What a rule decides by the tokens it has seen

**Input.**  A rule for a part of a line at any cursor.

**Algorithm.**  A rule looks at one token at a time and never looks back.  It either
accepts tokens of its language, whatever comes behind the next one; or it refuses a
token, whatever comes behind that one, and then the tokens before it are the front of
an element of the language; or the tokens end, and then all of them are such a front and
the last one is blamed.

`Verdict L S p c` says so of the rule `p` at the cursor `c`.  Here `L` is the language
and `S` says when a rule on the shape of lines is broken: behind which tokens, by which
token.  A rule in a sequence has what is left of the language and of `S` behind the
tokens that the rules before it have accepted.

**Results.**
* `Verdict.bind`, `verdict_taken`, `verdict_expect` and `verdict_spanning`: the parts
  that rules are made of.
* `verdict_parameterized`: the number of operands is broken by a token right behind
  them only.
* `verdict_subinstruction`: the rule for an action.
-/

namespace Microcode

/-- Whether an error says that tokens are missing. -/
def ParseError.AtEnd : ParseError → Prop
  | missing _ => True
  | unexpectedEnd => True
  | _ => False

/-- The span of the last token of all. -/
def Cursor.ending (c : Cursor) : Span :=
  (c.rest.getLast?.map Located.span).getD c.last

namespace Parser

open Grammar

variable {α β : Type} {c : Cursor}

/-- An error about a token, given when a rule on the shape of lines is broken. -/
def Refutes (broken : StructuralError → Token → Prop) : ParseError → Token → Prop
  | .unexpected _ found, t => found = t
  | .structural error, t => broken error t
  | _, _ => False

theorem Refutes.not_atEnd
    {broken : StructuralError → Token → Prop}
    {error : ParseError}
    {t : Token}
    (h : Refutes broken error t) :
    ¬ error.AtEnd := by
  cases error with
  | unexpected expected found => exact id
  | structural error => exact id
  | _ => exact h.elim

/-- What a rule decides at a cursor by the tokens it has seen: it accepts some tokens,
it refuses a token, or it awaits more of them. -/
inductive Verdict (L : List (Located Token) → Prop)
    (S : List (Located Token) → StructuralError → Token → Prop) (p : Parser α) (c : Cursor) : Prop
  | accepts (a : α) (ts : List (Located Token)) (c' : Cursor) :
      L ts → Takes ts c c' →
      (∀ rest, rest.head? = c'.rest.head? →
        p ⟨ts ++ rest, c.last⟩ = .ok (a, ⟨rest, c'.last⟩)) → Verdict L S p c
  | refuses (before : List (Located Token)) (t : Located Token) (after : List (Located Token))
      (error : ParseError) :
      c.rest = before ++ t :: after → Refutes (S before) error t.value →
      (∃ us, L (before ++ us)) →
      (∀ after', p ⟨before ++ t :: after', c.last⟩ = .error ⟨error, t.span⟩) → Verdict L S p c
  | awaits (e : Located ParseError) :
      p c = .error e → e.value.AtEnd → e.span = c.ending → (∃ us, L (c.rest ++ us)) →
      Verdict L S p c

section Parts

variable {L K : List (Located Token) → Prop}
variable {S : List (Located Token) → StructuralError → Token → Prop}

theorem head?_append_congr
    {rest rest' : List (Located Token)}
    (ts : List (Located Token))
    (h : rest.head? = rest'.head?) :
    (ts ++ rest).head? = (ts ++ rest').head? := by
  rw [List.head?_append, List.head?_append, h]

theorem head?_before
    (before after after' : List (Located Token))
    (t : Located Token) :
    (before ++ t :: after).head? = (before ++ t :: after').head? :=
  head?_append_congr before rfl

theorem ahead_congr
    {ts ts' : List (Located Token)}
    (h : ts.head? = ts'.head?) :
    ahead ts = ahead ts' := by
  rw [ahead, ahead, h]

theorem Takes.ending_eq
    {ts : List (Located Token)}
    {c' : Cursor}
    (h : Takes ts c c') :
    c'.ending = c.ending := by
  rw [Cursor.ending, Cursor.ending, h.1, h.2, List.getLast?_append]
  cases c'.rest.getLast? <;> rfl

theorem ending_of_nil
    (h : c.rest = []) :
    c.last = c.ending := by
  rw [Cursor.ending, h]
  rfl

theorem Verdict.mono
    {p : Parser α}
    (h : Verdict K S p c)
    (hK : ∀ ts, K ts → L ts) :
    Verdict L S p c := by
  cases h with
  | accepts a ts c' hts htakes hrun => exact .accepts a ts c' (hK _ hts) htakes hrun
  | refuses before t after error hrest hrefutes hlang hrun =>
      exact .refuses before t after error hrest hrefutes (hlang.imp fun _ => hK _) hrun
  | awaits e hrun hend hspan hlang => exact .awaits e hrun hend hspan (hlang.imp fun _ => hK _)

/-- A rule that accepts tokens yields its value. -/
theorem yields_of_accepts
    {p : Parser α}
    {a : α}
    {ts : List (Located Token)}
    {c' : Cursor}
    (htakes : Takes ts c c')
    (hrun : ∀ rest, rest.head? = c'.rest.head? →
      p ⟨ts ++ rest, c.last⟩ = .ok (a, ⟨rest, c'.last⟩)) :
    Yields p c a c' := by
  have hc := hrun c'.rest rfl
  rwa [← htakes.1] at hc

/-- Rules in sequence: the second one decides about what the first one leaves. -/
theorem Verdict.bind
    {p : Parser α}
    {f : α → Parser β}
    (hp : Verdict K S p c)
    (hK : ∀ ts, K ts → ∃ us, L (ts ++ us))
    (hf : ∀ a ts c', Yields p c a c' → Takes ts c c' → K ts →
      Verdict (fun us => L (ts ++ us)) (fun us => S (ts ++ us)) (f a) c') :
    Verdict L S (p >>= f) c := by
  cases hp with
  | accepts a ts c' hts htakes hrun =>
      have hyields := yields_of_accepts htakes hrun
      -- The first rule accepts the same tokens if the second one meets the same token.
      have hbind : ∀ rest, rest.head? = c'.rest.head? →
          (p >>= f) ⟨ts ++ rest, c.last⟩ = f a ⟨rest, c'.last⟩ := by
        intro rest hhead
        rw [bind_apply, hrun rest hhead]
      cases hf a ts c' hyields htakes hts with
      | accepts b us c'' hus htakes' hrun' =>
          refine .accepts b (ts ++ us) c'' hus (takes_append.2 ⟨c', htakes, htakes'⟩) ?_
          intro rest hhead
          have hsame : (us ++ rest).head? = c'.rest.head? := by
            rw [htakes'.1]
            exact head?_append_congr us hhead
          rw [List.append_assoc, hbind _ hsame, hrun' rest hhead]
      | refuses before t after error hrest hrefutes hlang hrun' =>
          obtain ⟨us, hus⟩ := hlang
          refine .refuses (ts ++ before) t after error ?_ hrefutes ⟨us, ?_⟩ fun after' => ?_
          · rw [htakes.1, hrest, List.append_assoc]
          · rwa [List.append_assoc]
          · have hsame : (before ++ t :: after').head? = c'.rest.head? := by
              rw [hrest]
              exact head?_before before after' after t
            rw [List.append_assoc, hbind _ hsame, hrun' after']
      | awaits e hrun' hend hspan hlang =>
          obtain ⟨us, hus⟩ := hlang
          refine .awaits e ?_ hend (hspan.trans htakes.ending_eq) ⟨us, ?_⟩
          · have hc := hbind c'.rest rfl
            rw [← htakes.1] at hc
            exact hc.trans hrun'
          · rwa [htakes.1, List.append_assoc]
  | refuses before t after error hrest hrefutes hlang hrun =>
      obtain ⟨us, hus⟩ := hlang
      obtain ⟨more, hmore⟩ := hK _ hus
      refine .refuses before t after error hrest hrefutes ⟨us ++ more, ?_⟩ fun after' => ?_
      · rwa [← List.append_assoc]
      · rw [bind_apply, hrun after']
  | awaits e hrun hend hspan hlang =>
      obtain ⟨us, hus⟩ := hlang
      obtain ⟨more, hmore⟩ := hK _ hus
      refine .awaits e ?_ hend hspan ⟨us ++ more, ?_⟩
      · rw [bind_apply, hrun]
      · rwa [← List.append_assoc]

theorem verdict_pure
    {a : α}
    (h : L []) :
    Verdict L S (pure a : Parser α) c :=
  .accepts a [] c h (takes_nil.2 rfl) fun _ _ => rfl

theorem peek_bind_apply
    (f : Option Token → Parser α) :
    (peek >>= f) c = f (ahead c.rest) c := by
  rfl

/-- To look at the next token is to decide by it. -/
theorem verdict_peek_bind
    {f : Option Token → Parser α}
    (h : Verdict L S (f (ahead c.rest)) c) :
    Verdict L S (peek >>= f) c := by
  cases h with
  | accepts a ts c' hts htakes hrun =>
      refine .accepts a ts c' hts htakes fun rest hhead => ?_
      have hsame : ahead (ts ++ rest) = ahead c.rest := by
        rw [htakes.1]
        exact ahead_congr (head?_append_congr ts hhead)
      rw [peek_bind_apply, hsame, hrun rest hhead]
  | refuses before t after error hrest hrefutes hlang hrun =>
      refine .refuses before t after error hrest hrefutes hlang fun after' => ?_
      have hsame : ahead (before ++ t :: after') = ahead c.rest := by
        rw [hrest]
        exact ahead_congr (head?_before before after' after t)
      rw [peek_bind_apply, hsame, hrun after']
  | awaits e hrun hend hspan hlang => exact .awaits e hrun hend hspan hlang

/-- The next token is taken. -/
theorem verdict_taken
    {f : Located Token → Parser α}
    {t : Located Token}
    {rest : List (Located Token)}
    (hrest : c.rest = t :: rest)
    (h : Verdict (fun us => L (t :: us)) (fun us => S (t :: us)) (f t) ⟨rest, t.span⟩) :
    Verdict L S (next >>= f) c := by
  cases h with
  | accepts a ts c' hts htakes hrun =>
      exact .accepts a (t :: ts) c' hts (takes_cons.2 ⟨⟨rest, t.span⟩, ⟨hrest, rfl⟩, htakes⟩) hrun
  | refuses before u after error hrest' hrefutes hlang hrun =>
      have hrest'' : rest = before ++ u :: after := hrest'
      refine .refuses (t :: before) u after error ?_ hrefutes hlang hrun
      rw [hrest, hrest'', List.cons_append]
  | awaits e hrun hend hspan hlang =>
      have htakes : Takes [t] c ⟨rest, t.span⟩ := ⟨hrest, rfl⟩
      refine .awaits e ?_ hend (hspan.trans htakes.ending_eq) (by rwa [hrest])
      rw [bind_apply, next_cons hrest]
      exact hrun

/-- The next token is taken and refused. -/
theorem verdict_refused
    {f : Located Token → Parser α}
    {t : Located Token}
    {rest : List (Located Token)}
    {error : ParseError}
    (hrest : c.rest = t :: rest)
    (hf : f t = fail error)
    (hrefutes : Refutes (S []) error t.value)
    (hlang : ∃ us, L us) :
    Verdict L S (next >>= f) c := by
  refine .refuses [] t rest error hrest hrefutes hlang fun after' => ?_
  have hnext : (next >>= f) ⟨[] ++ t :: after', c.last⟩ = f t ⟨after', t.span⟩ := rfl
  rw [hnext, hf]
  rfl

/-- The next token is taken, if there is one. -/
theorem verdict_next_bind
    {f : Located Token → Parser α}
    (hlang : ∃ us, L us)
    (h : ∀ t rest, c.rest = t :: rest → Verdict L S (next >>= f) c) :
    Verdict L S (next >>= f) c := by
  cases hrest : c.rest with
  | nil =>
      refine .awaits ⟨.unexpectedEnd, c.last⟩ ?_ trivial (ending_of_nil hrest) (by rwa [hrest])
      rw [bind_apply, next_nil hrest]
  | cons t rest => exact h t rest hrest

/-- A next token that is known is taken. -/
theorem verdict_known_bind
    {f : Located Token → Parser α}
    {token : Token}
    (hahead : ahead c.rest = some token)
    (h : ∀ s d, Verdict (fun us => L (⟨token, s⟩ :: us)) (fun us => S (⟨token, s⟩ :: us))
      (f ⟨token, s⟩) d) :
    Verdict L S (next >>= f) c := by
  cases hrest : c.rest with
  | nil =>
      rw [hrest] at hahead
      cases hahead
  | cons t rest =>
      rw [hrest] at hahead
      obtain ⟨value, span⟩ := t
      obtain rfl : value = token := Option.some.inj hahead
      exact verdict_taken hrest (h span _)

theorem verdict_refuse
    {error : Token → ParseError}
    (hlang : ∃ us, L us)
    (h : ∀ t, ahead c.rest = some t → Refutes (S []) (error t) t) :
    Verdict L S (refuse error : Parser α) c :=
  verdict_next_bind hlang fun t _ hrest =>
    verdict_refused hrest rfl (h t.value (by rw [hrest]; rfl)) hlang

theorem verdict_expect
    (token : Token) :
    Verdict (fun ts => ∃ s, ts = [⟨token, s⟩]) S (expect token) c := by
  have hlang : ∃ us, ∃ s, us = [(⟨token, s⟩ : Located Token)] := ⟨_, .point .start, rfl⟩
  cases hrest : c.rest with
  | nil =>
      exact .awaits ⟨.missing (.token token), c.last⟩ (expect_nil hrest) trivial
        (ending_of_nil hrest) (by rwa [hrest])
  | cons t rest =>
      by_cases ht : t.value = token
      · subst ht
        refine .accepts () [t] ⟨rest, t.span⟩ ⟨t.span, rfl⟩ ⟨hrest, rfl⟩ fun rest' _ => ?_
        simp [expect]
      · refine .refuses [] t rest (.unexpected (.token token) t.value) hrest rfl hlang ?_
        intro after'
        simp [expect, ht]

theorem spanning_cons
    {expected : Expected}
    {rule : Token → Parser α}
    (t : Located Token)
    (ts : List (Located Token))
    (last : Span) :
    spanning expected rule ⟨t :: ts, last⟩ =
      match rule t.value ⟨t :: ts, last⟩ with
      | .error error => .error error
      | .ok (a, c') => .ok (⟨a, t.span.through c'.last⟩, c') := by
  rw [spanning, bind_apply, upcoming_cons rfl]
  simp only [bind_apply]
  cases rule t.value ⟨t :: ts, last⟩ <;> rfl

/-- A rule with its span decides as it does at the token that comes next. -/
theorem verdict_spanning
    {expected : Expected}
    {rule : Token → Parser α}
    (hlang : ∃ us, L us)
    (h : ∀ t, ahead c.rest = some t → Verdict L S (rule t) c) :
    Verdict L S (spanning expected rule) c := by
  obtain ⟨rest, last⟩ := c
  cases rest with
  | nil => exact .awaits ⟨.missing expected, last⟩ rfl trivial rfl hlang
  | cons t rest =>
      -- A list that starts as the tokens at the cursor do starts with the same token.
      have hcons : ∀ ts, ts.head? = (t :: rest).head? → ∃ us, ts = t :: us := by
        intro ts hhead
        obtain ⟨us, rfl⟩ := List.head?_eq_some_iff.1 hhead
        exact ⟨us, rfl⟩
      cases h t.value rfl with
      | accepts a ts c' hts htakes hrun =>
          refine .accepts ⟨a, t.span.through c'.last⟩ ts c' hts htakes fun rest' hhead => ?_
          obtain ⟨us, hus⟩ := hcons (ts ++ rest')
            ((head?_append_congr ts hhead).trans (congrArg List.head? htakes.1.symm))
          have hrule := hrun rest' hhead
          rw [hus] at hrule ⊢
          rw [spanning_cons, hrule]
      | refuses before u after error hrest hrefutes hlang' hrun =>
          refine .refuses before u after error hrest hrefutes hlang' fun after' => ?_
          obtain ⟨us, hus⟩ := hcons (before ++ u :: after')
            ((head?_before before after' after u).trans (congrArg List.head? hrest.symm))
          have hrule := hrun after'
          rw [hus] at hrule ⊢
          rw [spanning_cons, hrule]
      | awaits e hrun hend hspan hlang' =>
          refine .awaits e ?_ hend hspan hlang'
          rw [spanning_cons, hrun]

end Parts

section Languages

/-- The tokens of a register. -/
def IsReg (ts : List (Located Token)) : Prop :=
  ∃ tree : Reg, tree.tokens = ts

/-- The tokens of a register or an addition. -/
def IsSum (ts : List (Located Token)) : Prop :=
  ∃ tree : Sum, tree.tokens = ts

/-- The tokens of all operands of an operation: two registers for `band`, one register
or one addition for the others. -/
def IsOperands : ParamOp → List (Located Token) → Prop
  | .band, ts => ∃ left comma right, IsReg left ∧ IsReg right ∧
      ts = left ++ ⟨.comma, comma⟩ :: right
  | .unary _, ts => IsSum ts

/-- The tokens of a right-hand side. -/
def IsRight (ts : List (Located Token)) : Prop :=
  ∃ tree : RightSide, tree.tokens = ts

/-- The tokens of an action. -/
def IsAction (ts : List (Located Token)) : Prop :=
  ∃ tree : Action, tree.tokens = ts

/-- A token breaks the number of operands of an operation behind the given tokens in its
parentheses: they are closed behind the first operand of `band`, or a further operand is
announced behind all of them. -/
def BreaksArity (op : ParamOp) (ts : List (Located Token)) (t : Token) : Prop :=
  (op = .band ∧ IsReg ts ∧ t = .closeParen) ∨ (IsOperands op ts ∧ t = .comma)

/-- The tokens of an operation without its keyword. -/
def IsParameterized (op : ParamOp) (ts : List (Located Token)) : Prop :=
  ∃ opening us closing, IsOperands op us ∧
    ts = ⟨.openParen, opening⟩ :: (us ++ [⟨.closeParen, closing⟩])

theorem exists_isReg :
    ∃ ts, IsReg ts :=
  ⟨_, .bare ⟨.pc, .point .start⟩, rfl⟩

theorem IsReg.isSum
    {ts : List (Located Token)}
    (h : IsReg ts) :
    IsSum ts := by
  obtain ⟨tree, rfl⟩ := h
  exact ⟨.single tree, rfl⟩

theorem IsReg.isSum_plus
    {ts us : List (Located Token)}
    (h : IsReg ts)
    (sign : Span)
    (h' : IsReg us) :
    IsSum (ts ++ ⟨.plus, sign⟩ :: us) := by
  obtain ⟨left, rfl⟩ := h
  obtain ⟨right, rfl⟩ := h'
  exact ⟨.plus left sign right, rfl⟩

/-- The first operand of an operation can be completed to all of them. -/
theorem IsReg.exists_isOperands
    {ts : List (Located Token)}
    (h : IsReg ts)
    (op : ParamOp) :
    ∃ us, IsOperands op (ts ++ us) := by
  cases op with
  | band =>
      obtain ⟨us, hus⟩ := exists_isReg
      exact ⟨⟨.comma, .point .start⟩ :: us, ts, .point .start, us, h, hus, rfl⟩
  | unary op => exact ⟨[], by rw [List.append_nil]; exact h.isSum⟩

theorem exists_isOperands
    (op : ParamOp) :
    ∃ ts, IsOperands op ts := by
  obtain ⟨ts, hts⟩ := exists_isReg
  obtain ⟨us, hus⟩ := hts.exists_isOperands op
  exact ⟨ts ++ us, hus⟩

theorem IsSum.isRight
    {ts : List (Located Token)}
    (h : IsSum ts) :
    IsRight ts := by
  obtain ⟨tree, rfl⟩ := h
  exact ⟨.sum tree, rfl⟩

theorem IsParameterized.isRight
    {op : ParamOp}
    {ts : List (Located Token)}
    (h : IsParameterized op ts)
    (keyword : Span) :
    IsRight (⟨.keyword op.keyword, keyword⟩ :: ts) := by
  obtain ⟨opening, us, closing, hus, rfl⟩ := h
  cases op with
  | band =>
      obtain ⟨_, comma, _, ⟨left, rfl⟩, ⟨right, rfl⟩, rfl⟩ := hus
      refine ⟨.band keyword opening left comma right closing, ?_⟩
      simp [RightSide.tokens, ParamOp.keyword]
  | unary op =>
      obtain ⟨operand, rfl⟩ := hus
      exact ⟨.unary op keyword opening operand closing, rfl⟩

theorem IsReg.isAction_assign
    {ts us : List (Located Token)}
    (h : IsReg ts)
    (sign : Span)
    (h' : IsRight us) :
    IsAction (ts ++ ⟨.assign, sign⟩ :: us) := by
  obtain ⟨dest, rfl⟩ := h
  obtain ⟨source, rfl⟩ := h'
  exact ⟨.assign dest sign source, rfl⟩

theorem exists_isRight :
    ∃ ts, IsRight ts := by
  obtain ⟨ts, hts⟩ := exists_isReg
  exact ⟨ts, hts.isSum.isRight⟩

end Languages

section Rules

variable {S : List (Located Token) → StructuralError → Token → Prop}

theorem verdict_bareRegister :
    Verdict (fun ts => ∃ r : Located Register, ts = [⟨.register r.value, r.span⟩]) S
      bareRegister c := by
  have hlang : ∃ us, ∃ r : Located Register,
      us = [(⟨.register r.value, r.span⟩ : Located Token)] := ⟨_, ⟨.pc, .point .start⟩, rfl⟩
  refine verdict_next_bind hlang fun t rest hrest => ?_
  obtain ⟨value, span⟩ := t
  cases value with
  | register r => exact verdict_taken hrest (verdict_pure ⟨⟨r, span⟩, rfl⟩)
  | _ => exact verdict_refused hrest rfl rfl hlang

theorem verdict_register :
    Verdict IsReg S register c := by
  refine verdict_peek_bind ?_
  split
  · next hopen =>
      refine verdict_known_bind hopen fun opening d => ?_
      refine verdict_bareRegister.bind ?_ ?_
      · rintro _ ⟨r, rfl⟩
        exact ⟨[⟨.closeParen, .point .start⟩], .wrapped opening r (.point .start), rfl⟩
      · rintro r _ d' - - ⟨q, rfl⟩
        refine (verdict_expect .closeParen).bind ?_ ?_
        · rintro _ ⟨closing, rfl⟩
          exact ⟨[], .wrapped opening q closing, rfl⟩
        · rintro _ _ d'' - - ⟨closing, rfl⟩
          exact verdict_pure ⟨.wrapped opening q closing, rfl⟩
  · refine verdict_bareRegister.mono ?_
    rintro _ ⟨r, rfl⟩
    exact ⟨.bare r, rfl⟩

theorem verdict_label :
    Verdict (fun ts => ∃ name : Located String, ts = [⟨.label name.value, name.span⟩]) S
      label c := by
  have hlang : ∃ us, ∃ name : Located String,
      us = [(⟨.label name.value, name.span⟩ : Located Token)] := ⟨_, ⟨"", .point .start⟩, rfl⟩
  refine verdict_next_bind hlang fun t rest hrest => ?_
  obtain ⟨value, span⟩ := t
  cases value with
  | label name => exact verdict_taken hrest (verdict_pure ⟨⟨name, span⟩, rfl⟩)
  | _ => exact verdict_refused hrest rfl rfl hlang

theorem verdict_addend :
    Verdict (fun ts => ts = [] ∨ ∃ sign us, IsReg us ∧ ts = ⟨.plus, sign⟩ :: us) S addend c := by
  rw [addend_eq]
  refine verdict_peek_bind ?_
  split
  · next hplus =>
      refine verdict_known_bind hplus fun sign d => ?_
      refine verdict_register.bind (fun us hus => ⟨[], Or.inr ⟨sign, us, hus, by simp⟩⟩) ?_
      rintro r us d' - - hus
      exact verdict_pure (Or.inr ⟨sign, us, hus, by simp⟩)
  · exact verdict_pure (Or.inl rfl)

/-- A register and what `addend` finds behind it are a sum. -/
theorem verdict_register_addend
    (k : Operand → α) :
    Verdict IsSum S (register >>= fun left => addend >>= fun o =>
      match o with
      | some right => pure (k (.add left right))
      | none => pure (k (.read left))) c := by
  refine verdict_register.bind (fun ts hts => ⟨[], by rw [List.append_nil]; exact hts.isSum⟩) ?_
  rintro left ts d - - hts
  have hsum : ∀ us, (us = [] ∨ ∃ sign more, IsReg more ∧ us = ⟨.plus, sign⟩ :: more) →
      IsSum (ts ++ us) := by
    rintro us (rfl | ⟨sign, more, hmore, rfl⟩)
    · rw [List.append_nil]
      exact hts.isSum
    · exact hts.isSum_plus sign hmore
  refine verdict_addend.bind (fun us hus => ⟨[], by rw [List.append_nil]; exact hsum us hus⟩) ?_
  rintro o us d' - - hus
  cases o <;> exact verdict_pure (by rw [List.append_nil]; exact hsum us hus)

theorem verdict_sum :
    Verdict IsSum S sum c :=
  verdict_register_addend Operand.expr

theorem verdict_secondOperand
    (hS : S [] (.arity .band) .closeParen) :
    Verdict (fun ts => ∃ comma us, IsReg us ∧ ts = ⟨.comma, comma⟩ :: us) S secondOperand c := by
  obtain ⟨more, hmore⟩ := exists_isReg
  refine verdict_peek_bind ?_
  split
  · next hclose =>
      refine verdict_refuse ⟨_, .point .start, more, hmore, rfl⟩ fun t ht => ?_
      rw [hclose] at ht
      cases ht
      exact hS
  · refine (verdict_expect .comma).bind ?_ ?_
    · rintro _ ⟨comma, rfl⟩
      exact ⟨more, comma, more, hmore, rfl⟩
    · rintro _ _ d - - ⟨comma, rfl⟩
      exact verdict_register.mono fun us hus => ⟨comma, us, hus, rfl⟩

theorem verdict_operands
    (op : ParamOp)
    (hS : ∀ ts t, BreaksArity op ts t → S ts (.arity op) t) :
    Verdict (IsOperands op) S (operands op) c := by
  cases op with
  | band =>
      refine verdict_register.bind (fun ts hts => hts.exists_isOperands .band) ?_
      rintro left ts d - - hts
      have hclose : S (ts ++ []) (.arity .band) .closeParen := by
        rw [List.append_nil]
        exact hS ts _ (Or.inl ⟨rfl, hts, rfl⟩)
      refine (verdict_secondOperand hclose).bind ?_ ?_
      · rintro _ ⟨comma, us, hus, rfl⟩
        exact ⟨[], ts, comma, us, hts, hus, by simp⟩
      · rintro right _ d' - - ⟨comma, us, hus, rfl⟩
        exact verdict_pure ⟨ts, comma, us, hts, hus, by simp⟩
  | unary op => exact verdict_register_addend (Expr.unary op)

/-- The number of operands is broken by a token right behind them only. -/
theorem verdict_parameterized
    (op : ParamOp)
    (hS : ∀ opening ts t, BreaksArity op ts t → S (⟨.openParen, opening⟩ :: ts) (.arity op) t) :
    Verdict (IsParameterized op) S (parameterized op) c := by
  refine (verdict_expect .openParen).bind ?_ ?_
  · rintro _ ⟨opening, rfl⟩
    obtain ⟨us, hus⟩ := exists_isOperands op
    exact ⟨_, opening, us, .point .start, hus, rfl⟩
  · rintro _ _ d - - ⟨opening, rfl⟩
    refine (verdict_operands op (hS opening)).bind ?_ ?_
    · intro us hus
      exact ⟨[⟨.closeParen, .point .start⟩], opening, us, .point .start, hus, rfl⟩
    · rintro e us d' - - hus
      refine verdict_peek_bind ?_
      split
      · next hcomma =>
          refine verdict_refuse
            ⟨[⟨.closeParen, .point .start⟩], opening, us, .point .start, hus, rfl⟩ fun t ht => ?_
          rw [hcomma] at ht
          cases ht
          have hbroken := hS opening us _ (Or.inr ⟨hus, rfl⟩)
          simpa [Refutes] using hbroken
      · refine (verdict_expect .closeParen).bind ?_ ?_
        · rintro _ ⟨closing, rfl⟩
          exact ⟨[], opening, us, closing, hus, by simp⟩
        · rintro _ _ d'' - - ⟨closing, rfl⟩
          exact verdict_pure ⟨opening, us, closing, hus, by simp⟩

/-- A token breaks the number of operands of the operation that is assigned. -/
def BreaksAssignedArity (op : ParamOp) (before : List (Located Token)) (t : Token) : Prop :=
  ∃ dest sign keyword opening ts, IsReg dest ∧
    before = dest ++ ⟨.assign, sign⟩ :: ⟨.keyword op.keyword, keyword⟩ ::
      ⟨.openParen, opening⟩ :: ts ∧
    BreaksArity op ts t

theorem verdict_source
    (hS : ∀ op keyword opening ts t, BreaksArity op ts t →
      S (⟨.keyword op.keyword, keyword⟩ :: ⟨.openParen, opening⟩ :: ts) (.arity op) t) :
    Verdict IsRight S source c := by
  refine verdict_spanning exists_isRight fun t ht => ?_
  have hrefuse : Verdict IsRight S (refuse (.unexpected .source) : Parser Expr) c :=
    verdict_refuse exists_isRight fun _ _ => rfl
  have hsum : Verdict IsRight S sum c := verdict_sum.mono fun _ => IsSum.isRight
  cases t with
  | keyword k =>
      cases hop : ParamOp.ofKeyword? k with
      | some op =>
          obtain rfl := keyword_of_ofKeyword? hop
          simp only [hop]
          refine verdict_known_bind ht fun keyword d => ?_
          exact (verdict_parameterized op (hS op keyword)).mono fun _ hts => hts.isRight keyword
      | none =>
          simp only [hop]
          exact hrefuse
  | register r => exact hsum
  | openParen => exact hsum
  | _ => exact hrefuse

theorem verdict_assignment
    (hS : ∀ op before t, BreaksAssignedArity op before t → S before (.arity op) t) :
    Verdict IsAction S assignment c := by
  obtain ⟨more, hmore⟩ := exists_isRight
  refine verdict_register.bind ?_ ?_
  · intro ts hts
    exact ⟨_, hts.isAction_assign (.point .start) hmore⟩
  · rintro dest ts d - - hts
    refine (verdict_expect .assign).bind ?_ ?_
    · rintro _ ⟨sign, rfl⟩
      exact ⟨more, hts.isAction_assign sign hmore⟩
    · rintro _ _ d' - - ⟨sign, rfl⟩
      refine (verdict_source ?_).bind ?_ ?_
      · intro op keyword opening us t hbreaks
        exact hS op _ t ⟨ts, sign, keyword, opening, us, hts, rfl, hbreaks⟩
      · intro us hus
        exact ⟨[], by simpa using hts.isAction_assign sign hus⟩
      · rintro e us d'' - - hus
        exact verdict_pure (by simpa using hts.isAction_assign sign hus)

/-- The tokens of a jump. -/
def IsJump (ts : List (Located Token)) : Prop :=
  ∃ keyword target, jumpTokens keyword target = ts

theorem exists_isJump :
    ∃ ts, IsJump ts :=
  ⟨_, .point .start, ⟨"", .point .start⟩, rfl⟩

theorem verdict_target :
    Verdict IsJump S target c := by
  refine (verdict_expect _).bind ?_ ?_
  · rintro _ ⟨keyword, rfl⟩
    exact ⟨_, keyword, ⟨"", .point .start⟩, rfl⟩
  · rintro _ _ d - - ⟨keyword, rfl⟩
    refine verdict_label.mono ?_
    rintro _ ⟨name, rfl⟩
    exact ⟨keyword, name, rfl⟩

theorem verdict_condition :
    Verdict (fun ts => ∃ (wanted : Condition) (s : Span), ts = [⟨.keyword wanted.keyword, s⟩]) S
      condition c := by
  have hlang : ∃ us, ∃ (wanted : Condition) (s : Span),
      us = [(⟨.keyword wanted.keyword, s⟩ : Located Token)] := ⟨_, .zero, .point .start, rfl⟩
  refine verdict_next_bind hlang fun t rest hrest => ?_
  obtain ⟨value, span⟩ := t
  cases value with
  | keyword k =>
      cases k with
      | negative => exact verdict_taken hrest (verdict_pure ⟨.negative, span, rfl⟩)
      | zero => exact verdict_taken hrest (verdict_pure ⟨.zero, span, rfl⟩)
      | _ => exact verdict_refused hrest rfl rfl hlang
  | _ => exact verdict_refused hrest rfl rfl hlang

theorem verdict_conditional :
    Verdict IsAction S conditional c := by
  obtain ⟨_, gotoWord, name, rfl⟩ := exists_isJump
  have hbranch : ∀ ifWord (wanted : Condition) span thenWord ts, IsJump ts →
      IsAction (⟨.keyword .ifWord, ifWord⟩ :: ⟨.keyword wanted.keyword, span⟩ ::
        ⟨.keyword .thenWord, thenWord⟩ :: ts) := by
    rintro ifWord wanted span thenWord _ ⟨keyword, target, rfl⟩
    exact ⟨.branch ifWord ⟨wanted, span⟩ thenWord keyword target, rfl⟩
  refine (verdict_expect _).bind ?_ ?_
  · rintro _ ⟨ifWord, rfl⟩
    exact ⟨_, hbranch ifWord .zero (.point .start) (.point .start) _ ⟨gotoWord, name, rfl⟩⟩
  · rintro _ _ d - - ⟨ifWord, rfl⟩
    refine verdict_condition.bind ?_ ?_
    · rintro _ ⟨wanted, span, rfl⟩
      exact ⟨_, hbranch ifWord wanted span (.point .start) _ ⟨gotoWord, name, rfl⟩⟩
    · rintro _ _ d₁ - - ⟨wanted, span, rfl⟩
      refine (verdict_expect _).bind ?_ ?_
      · rintro _ ⟨thenWord, rfl⟩
        exact ⟨_, hbranch ifWord wanted span thenWord _ ⟨gotoWord, name, rfl⟩⟩
      · rintro _ _ d₂ - - ⟨thenWord, rfl⟩
        refine verdict_target.bind (fun ts hts => ⟨[], ?_⟩) fun _ ts d₃ _ _ hts => verdict_pure ?_
        · simpa using hbranch ifWord wanted span thenWord ts hts
        · simpa using hbranch ifWord wanted span thenWord ts hts

theorem exists_isAction :
    ∃ ts, IsAction ts :=
  ⟨_, .halt (.point .start), rfl⟩

/-- The rule for an action accepts actions; it refuses a label, and a token that breaks
the number of operands. -/
theorem verdict_subinstruction
    (harity : ∀ op before t, BreaksAssignedArity op before t → S before (.arity op) t)
    (hlabel : ∀ name, ahead c.rest = some (.label name) →
      S [] (.misplacedLabel name) (.label name)) :
    Verdict IsAction S subinstruction c := by
  refine verdict_spanning exists_isAction fun t ht => ?_
  -- A keyword that is an action by itself.
  have hsingle : ∀ k sub, t = .keyword k → (∀ s, IsAction [⟨.keyword k, s⟩]) →
      Verdict IsAction S (single sub) c := by
    rintro k sub rfl haction
    exact verdict_known_bind ht fun s d => verdict_pure (haction s)
  split
  · exact verdict_assignment harity
  · exact verdict_assignment harity
  · have hgoto : ∀ ts, IsJump ts → IsAction (ts ++ []) := by
      rintro _ ⟨keyword, target, rfl⟩
      exact ⟨.goto keyword target, rfl⟩
    exact verdict_target.bind (fun ts hts => ⟨[], hgoto ts hts⟩) fun _ ts d _ _ hts =>
      verdict_pure (hgoto ts hts)
  · exact verdict_conditional
  · exact hsingle _ _ rfl fun s => ⟨.read s, rfl⟩
  · exact hsingle _ _ rfl fun s => ⟨.write s, rfl⟩
  · exact hsingle _ _ rfl fun s => ⟨.halt s, rfl⟩
  · refine verdict_refuse exists_isAction fun u hu => ?_
    rw [ht] at hu
    cases hu
    exact hlabel _ ht
  · exact verdict_refuse exists_isAction fun _ _ => rfl

end Rules

end Parser
end Microcode
