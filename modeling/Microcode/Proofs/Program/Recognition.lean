import Microcode.Program.Progress
import Microcode.Proofs.Program.Grammar

/-!
# What the rules for the parts of a line accept

`Takes ts c c'`: the tokens `ts` stand between the cursors `c` and `c'`.  For
every rule, success is characterised by a tree: the rule yields a value and
leaves a cursor if and only if some tree has that value and its tokens stand
between the two cursors.  A rule that decides by the next token whether it goes
on also says what that token is not.

**Results.**
* `yields_bind`, `takes_append`: rules in sequence take their tokens in sequence.
* `yields_register`, `yields_source`, `yields_subinstruction`: what the rules for
  registers, right-hand sides and actions accept.
-/

namespace Microcode
namespace Parser

open Grammar

variable {α β : Type} {c c' c'' : Cursor} {ts us : List (Located Token)}

/-- The given tokens stand between two cursors. -/
def Takes (ts : List (Located Token)) (c c' : Cursor) : Prop :=
  c.rest = ts ++ c'.rest ∧ c'.last = (ts.getLast?.map Located.span).getD c.last

/-- A rule succeeds at a cursor with a value and leaves another cursor. -/
def Yields (p : Parser α) (c : Cursor) (a : α) (c' : Cursor) : Prop :=
  p c = .ok (a, c')

section Cursors

@[simp] theorem takes_nil :
    Takes [] c c' ↔ c' = c := by
  obtain ⟨rest, last⟩ := c
  obtain ⟨rest', last'⟩ := c'
  simp [Takes, eq_comm]

theorem takes_append :
    Takes (ts ++ us) c c'' ↔ ∃ c', Takes ts c c' ∧ Takes us c' c'' := by
  constructor
  · rintro ⟨hrest, hlast⟩
    refine ⟨⟨us ++ c''.rest, (ts.getLast?.map Located.span).getD c.last⟩,
      ⟨by rw [hrest, List.append_assoc], rfl⟩, rfl, ?_⟩
    rw [hlast, List.getLast?_append]
    cases us.getLast? <;> rfl
  · rintro ⟨c', ⟨hrest, hlast⟩, hrest', hlast'⟩
    refine ⟨by rw [hrest, hrest', List.append_assoc], ?_⟩
    rw [hlast', hlast, List.getLast?_append]
    cases us.getLast? <;> rfl

theorem takes_cons
    {t : Located Token} :
    Takes (t :: us) c c'' ↔ ∃ c', Takes [t] c c' ∧ Takes us c' c'' := by
  rw [← List.singleton_append, takes_append]

/-- The tokens between two cursors are the next ones at the first. -/
theorem Takes.ahead_eq
    (h : Takes ts c c') :
    ahead c.rest = ahead (ts ++ c'.rest) := by
  rw [h.1]

theorem Takes.ahead_cons
    {t : Located Token}
    (h : Takes (t :: ts) c c') :
    ahead c.rest = some t.value := by
  rw [h.ahead_eq]
  rfl

theorem Takes.exists_next
    (h : Takes ts c c')
    (hne : ts ≠ []) :
    ∃ t us, c.rest = t :: us := by
  cases ts with
  | nil => exact absurd rfl hne
  | cons t ts => exact ⟨t, ts ++ c'.rest, h.1⟩

/-- The span of some tokens runs from the next one to the last one taken. -/
theorem Takes.covering_eq
    {t : Located Token}
    (h : Takes ts c c')
    (hne : ts ≠ [])
    (hc : c.rest = t :: us) :
    covering ts hne = t.span.through c'.last := by
  obtain ⟨hrest, hlast⟩ := h
  rw [List.getLast?_eq_some_getLast hne] at hlast
  cases ts with
  | nil => exact absurd rfl hne
  | cons u ts =>
      rw [hc] at hrest
      rw [hlast, (List.cons.inj hrest).1]
      rfl

end Cursors

section Steps

theorem yields_bind
    {p : Parser α}
    {f : α → Parser β}
    {b : β} :
    Yields (p >>= f) c b c'' ↔ ∃ a c', Yields p c a c' ∧ Yields (f a) c' b c'' := by
  constructor
  · exact bind_eq_ok
  · rintro ⟨a, c', hp, hf⟩
    rw [Yields] at hp
    rw [Yields, bind_apply, hp]
    exact hf

theorem yields_pure
    {a b : α} :
    Yields (pure a) c b c' ↔ a = b ∧ c' = c := by
  rw [Yields, pure_apply, Except.ok.injEq, Prod.mk.injEq, eq_comm (a := c)]

theorem yields_peek_bind
    {f : Option Token → Parser β}
    {b : β} :
    Yields (peek >>= f) c b c' ↔ Yields (f (ahead c.rest)) c b c' :=
  Iff.rfl

theorem not_yields_fail
    {error : ParseError}
    {a : α} :
    ¬ Yields (fail error) c a c' := by
  simp [Yields, fail]

theorem not_yields_refuse
    {error : Token → ParseError}
    {a : α} :
    ¬ Yields (refuse error) c a c' := by
  intro h
  obtain ⟨t, c₁, -, hfail⟩ := yields_bind.1 h
  exact not_yields_fail hfail

theorem yields_next
    {t : Located Token} :
    Yields next c t c' ↔ Takes [t] c c' := by
  obtain ⟨rest, last⟩ := c
  obtain ⟨rest', last'⟩ := c'
  cases rest with
  | nil => simp [Yields, next, Takes]
  | cons u rest =>
      simp only [Yields, next, Takes, Except.ok.injEq, Prod.mk.injEq, Cursor.mk.injEq,
        List.cons_append, List.nil_append, List.cons.injEq, List.getLast?_singleton,
        Option.map_some, Option.getD_some]
      constructor
      · rintro ⟨rfl, rfl, rfl⟩
        exact ⟨⟨rfl, rfl⟩, rfl⟩
      · rintro ⟨⟨rfl, rfl⟩, rfl⟩
        exact ⟨rfl, rfl, rfl⟩

/-- To expect a token is to take the next one and to compare. -/
theorem yields_expect
    {token : Token}
    {u : Unit} :
    Yields (expect token) c u c' ↔ ∃ s, Takes [⟨token, s⟩] c c' := by
  have hiff : Yields (expect token) c u c' ↔ ∃ t, Yields next c t c' ∧ t.value = token := by
    obtain ⟨rest, last⟩ := c
    cases rest with
    | nil => simp [Yields, expect, next]
    | cons t rest =>
        by_cases ht : t.value = token
        · simp [Yields, expect, next, ht]
        · simp [Yields, expect, next, ht]
  rw [hiff]
  constructor
  · rintro ⟨⟨value, span⟩, hnext, rfl⟩
    exact ⟨span, yields_next.1 hnext⟩
  · rintro ⟨s, hs⟩
    exact ⟨⟨token, s⟩, yields_next.2 hs, rfl⟩

/-- A rule with a span starts at the next token and ends at the last one taken. -/
theorem yields_spanning
    {expected : Expected}
    {rule : Token → Parser α}
    {a : Located α} :
    Yields (spanning expected rule) c a c' ↔
      ∃ t ts, c.rest = t :: ts ∧ Yields (rule t.value) c a.value c' ∧
        a.span = t.span.through c'.last := by
  obtain ⟨rest, last⟩ := c
  obtain ⟨value, span⟩ := a
  cases rest with
  | nil =>
      have hnone : spanning expected rule ⟨[], last⟩ = .error ⟨.missing expected, last⟩ := rfl
      simp [Yields, hnone]
  | cons t ts =>
      have hrun : Yields (spanning expected rule) ⟨t :: ts, last⟩ ⟨value, span⟩ c' ↔
          Yields (rule t.value >>= fun v => Parser.last >>= fun stop =>
            pure (Located.mk v (t.span.through stop))) ⟨t :: ts, last⟩ ⟨value, span⟩ c' := Iff.rfl
      rw [hrun, yields_bind]
      constructor
      · rintro ⟨v, c₁, hrule, hpure⟩
        obtain ⟨hv, rfl⟩ := Prod.mk.inj (Except.ok.inj hpure)
        obtain ⟨rfl, rfl⟩ := Located.mk.inj hv
        exact ⟨t, ts, rfl, hrule, rfl⟩
      · rintro ⟨t', ts', heq, hrule, hspan⟩
        obtain ⟨rfl, rfl⟩ := List.cons.inj heq
        refine ⟨value, c', hrule, ?_⟩
        subst hspan
        rfl

end Steps

section Registers

/-- A rule for one token, which it turns into a value, takes that token. -/
theorem yields_next_bind
    {f : Located Token → Parser α}
    {a : α}
    {t : Located Token}
    (hf : ∀ u c₁, Yields (f u) c₁ a c' ↔ u = t ∧ c' = c₁) :
    Yields (next >>= f) c a c' ↔ Takes [t] c c' := by
  rw [yields_bind]
  constructor
  · rintro ⟨u, c₁, hnext, hu⟩
    obtain ⟨rfl, rfl⟩ := (hf u c₁).1 hu
    exact yields_next.1 hnext
  · intro h
    exact ⟨t, c', yields_next.2 h, (hf t c').2 ⟨rfl, rfl⟩⟩

theorem yields_bareRegister
    {r : Located Register} :
    Yields bareRegister c r c' ↔ Takes [⟨.register r.value, r.span⟩] c c' := by
  refine yields_next_bind fun u c₁ => ?_
  obtain ⟨value, span⟩ := u
  obtain ⟨q, s⟩ := r
  cases value with
  | register q' => simp [yields_pure]
  | _ => simp [not_yields_fail]

theorem yields_label
    {name : Located String} :
    Yields label c name c' ↔ Takes [⟨.label name.value, name.span⟩] c c' := by
  refine yields_next_bind fun u c₁ => ?_
  obtain ⟨value, span⟩ := u
  obtain ⟨n, s⟩ := name
  cases value with
  | label n' => simp [yields_pure]
  | _ => simp [not_yields_fail]

/-- A next token that is known stands first at the cursor. -/
theorem takes_of_next
    {t : Located Token}
    {token : Token}
    (hahead : ahead c.rest = some token)
    (hnext : Yields next c t c') :
    Takes [⟨token, t.span⟩] c c' := by
  have htakes := yields_next.1 hnext
  obtain rfl : t.value = token := by
    rw [htakes.ahead_cons] at hahead
    exact Option.some.inj hahead
  exact htakes

theorem yields_register
    {r : Located Register} :
    Yields register c r c' ↔ ∃ tree : Reg, tree.register = r ∧ Takes tree.tokens c c' := by
  unfold register
  rw [yields_peek_bind]
  constructor
  · intro h
    split at h
    · next hopen =>
        obtain ⟨t, c₁, hnext, h₁⟩ := yields_bind.1 h
        obtain ⟨q, c₂, hbare, h₂⟩ := yields_bind.1 h₁
        obtain ⟨u, c₃, hclose, h₃⟩ := yields_bind.1 h₂
        obtain ⟨rfl, rfl⟩ := yields_pure.1 h₃
        obtain ⟨closing, hclosing⟩ := yields_expect.1 hclose
        refine ⟨.wrapped t.span q closing, rfl, ?_⟩
        exact takes_cons.2 ⟨c₁, takes_of_next hopen hnext,
          takes_cons.2 ⟨c₂, yields_bareRegister.1 hbare, hclosing⟩⟩
    · exact ⟨.bare r, rfl, yields_bareRegister.1 h⟩
  · rintro ⟨tree, rfl, h⟩
    cases tree with
    | bare r =>
        rw [h.ahead_cons]
        exact yields_bareRegister.2 h
    | wrapped opening r closing =>
        rw [h.ahead_cons]
        obtain ⟨c₁, hopen, h₁⟩ := takes_cons.1 h
        obtain ⟨c₂, hbare, hclose⟩ := takes_cons.1 h₁
        exact yields_bind.2 ⟨_, c₁, yields_next.2 hopen,
          yields_bind.2 ⟨r, c₂, yields_bareRegister.2 hbare,
            yields_bind.2 ⟨(), c', yields_expect.2 ⟨closing, hclose⟩, rfl⟩⟩⟩

theorem yields_addend
    {o : Option (Located Register)} :
    Yields addend c o c' ↔
      (o = none ∧ c' = c ∧ ahead c.rest ≠ some .plus) ∨
      ∃ sign, ∃ tree : Reg, o = some tree.register ∧ Takes (⟨.plus, sign⟩ :: tree.tokens) c c' := by
  rw [addend_eq, yields_peek_bind]
  constructor
  · intro h
    split at h
    · next hplus =>
        obtain ⟨t, c₁, hnext, h₁⟩ := yields_bind.1 h
        obtain ⟨r, c₂, hreg, h₂⟩ := yields_bind.1 h₁
        obtain ⟨rfl, rfl⟩ := yields_pure.1 h₂
        obtain ⟨tree, rfl, htree⟩ := yields_register.1 hreg
        exact Or.inr ⟨t.span, tree, rfl, takes_cons.2 ⟨c₁, takes_of_next hplus hnext, htree⟩⟩
    · next hplus =>
        obtain ⟨rfl, rfl⟩ := yields_pure.1 h
        exact Or.inl ⟨rfl, rfl, hplus⟩
  · rintro (⟨rfl, rfl, hplus⟩ | ⟨sign, tree, rfl, h⟩)
    · split
      · next heq => exact absurd heq hplus
      · rfl
    · rw [h.ahead_cons]
      obtain ⟨c₁, hsign, htree⟩ := takes_cons.1 h
      exact yields_bind.2 ⟨_, c₁, yields_next.2 hsign,
        yields_bind.2 ⟨_, c', yields_register.2 ⟨tree, rfl, htree⟩, rfl⟩⟩

/-- Nothing makes a sum longer at a cursor: it is an addition or no `+` comes next. -/
def Stops (c : Cursor) : Sum → Prop
  | .single _ => ahead c.rest ≠ some .plus
  | .plus .. => True

theorem stops_of_ahead
    (s : Sum)
    (h : ahead c.rest ≠ some .plus) :
    Stops c s := by
  cases s with
  | single r => exact h
  | plus left sign right => trivial

/-- A register and what `addend` finds behind it are a sum. -/
theorem yields_register_addend
    (k : Operand → α)
    {a : α} :
    Yields (register >>= fun left => addend >>= fun o =>
        match o with
        | some right => pure (k (.add left right))
        | none => pure (k (.read left))) c a c' ↔
      ∃ tree : Sum, k tree.operand = a ∧ Takes tree.tokens c c' ∧ Stops c' tree := by
  rw [yields_bind]
  constructor
  · rintro ⟨left, c₁, hleft, h₁⟩
    obtain ⟨o, c₂, hadd, h₂⟩ := yields_bind.1 h₁
    obtain ⟨tree, rfl, htree⟩ := yields_register.1 hleft
    rcases yields_addend.1 hadd with ⟨rfl, rfl, hplus⟩ | ⟨sign, right, rfl, hright⟩
    · obtain ⟨rfl, rfl⟩ := yields_pure.1 h₂
      exact ⟨.single tree, rfl, htree, hplus⟩
    · obtain ⟨rfl, rfl⟩ := yields_pure.1 h₂
      exact ⟨.plus tree sign right, rfl, takes_append.2 ⟨c₁, htree, hright⟩, trivial⟩
  · rintro ⟨tree, rfl, htakes, hstops⟩
    cases tree with
    | single r =>
        exact ⟨r.register, c', yields_register.2 ⟨r, rfl, htakes⟩, yields_bind.2
          ⟨none, c', yields_addend.2 (Or.inl ⟨rfl, rfl, hstops⟩), yields_pure.2 ⟨rfl, rfl⟩⟩⟩
    | plus left sign right =>
        obtain ⟨c₁, hleft, hright⟩ := takes_append.1 htakes
        exact ⟨left.register, c₁, yields_register.2 ⟨left, rfl, hleft⟩, yields_bind.2
          ⟨some right.register, c', yields_addend.2 (Or.inr ⟨sign, right, rfl, hright⟩),
            yields_pure.2 ⟨rfl, rfl⟩⟩⟩

theorem yields_sum
    {e : Expr} :
    Yields sum c e c' ↔ ∃ tree : Sum, tree.expr = e ∧ Takes tree.tokens c c' ∧ Stops c' tree := by
  simp only [Sum.expr_eq]
  exact yields_register_addend Operand.expr

end Registers

section RightSides

theorem yields_secondOperand
    {r : Located Register} :
    Yields secondOperand c r c' ↔
      ∃ comma, ∃ tree : Reg, tree.register = r ∧ Takes (⟨.comma, comma⟩ :: tree.tokens) c c' := by
  unfold secondOperand
  rw [yields_peek_bind]
  constructor
  · intro h
    split at h
    · exact absurd h not_yields_refuse
    · obtain ⟨u, c₁, hcomma, hreg⟩ := yields_bind.1 h
      obtain ⟨comma, hcomma⟩ := yields_expect.1 hcomma
      obtain ⟨tree, rfl, htree⟩ := yields_register.1 hreg
      exact ⟨comma, tree, rfl, takes_cons.2 ⟨c₁, hcomma, htree⟩⟩
  · rintro ⟨comma, tree, rfl, h⟩
    rw [h.ahead_cons]
    obtain ⟨c₁, hcomma, htree⟩ := takes_cons.1 h
    exact yields_bind.2 ⟨(), c₁, yields_expect.2 ⟨comma, hcomma⟩,
      yields_register.2 ⟨tree, rfl, htree⟩⟩

theorem yields_operands_band
    {e : Expr} :
    Yields (operands .band) c e c' ↔
      ∃ left comma right, Expr.band (Reg.register left) (Reg.register right) = e ∧
        Takes (left.tokens ++ ⟨.comma, comma⟩ :: right.tokens) c c' := by
  unfold operands
  rw [yields_bind]
  constructor
  · rintro ⟨_, c₁, hleft, h₁⟩
    obtain ⟨_, c₂, hright, h₂⟩ := yields_bind.1 h₁
    obtain ⟨rfl, rfl⟩ := yields_pure.1 h₂
    obtain ⟨left, rfl, htakes⟩ := yields_register.1 hleft
    obtain ⟨comma, right, rfl, htakes'⟩ := yields_secondOperand.1 hright
    exact ⟨left, comma, right, rfl, takes_append.2 ⟨c₁, htakes, htakes'⟩⟩
  · rintro ⟨left, comma, right, rfl, h⟩
    obtain ⟨c₁, hleft, hright⟩ := takes_append.1 h
    exact ⟨_, c₁, yields_register.2 ⟨left, rfl, hleft⟩,
      yields_bind.2 ⟨_, c', yields_secondOperand.2 ⟨comma, right, rfl, hright⟩,
        yields_pure.2 ⟨rfl, rfl⟩⟩⟩

theorem yields_operands_unary
    {op : UnaryOp}
    {e : Expr} :
    Yields (operands (.unary op)) c e c' ↔
      ∃ tree : Sum, Expr.unary op tree.operand = e ∧ Takes tree.tokens c c' ∧ Stops c' tree :=
  yields_register_addend (Expr.unary op)

theorem yields_parameterized
    {op : ParamOp}
    {e : Expr} :
    Yields (parameterized op) c e c' ↔
      ∃ opening c₁ closing c₂, Takes [⟨.openParen, opening⟩] c c₁ ∧ Yields (operands op) c₁ e c₂ ∧
        Takes [⟨.closeParen, closing⟩] c₂ c' := by
  unfold parameterized
  rw [yields_bind]
  constructor
  · rintro ⟨_, c₁, hopen, h₁⟩
    obtain ⟨e', c₂, hoperands, h₂⟩ := yields_bind.1 h₁
    rw [yields_peek_bind] at h₂
    split at h₂
    · exact absurd h₂ not_yields_refuse
    · obtain ⟨_, c₃, hclose, h₃⟩ := yields_bind.1 h₂
      obtain ⟨rfl, rfl⟩ := yields_pure.1 h₃
      obtain ⟨opening, hopening⟩ := yields_expect.1 hopen
      obtain ⟨closing, hclosing⟩ := yields_expect.1 hclose
      exact ⟨opening, c₁, closing, c₂, hopening, hoperands, hclosing⟩
  · rintro ⟨opening, c₁, closing, c₂, hopening, hoperands, hclosing⟩
    refine ⟨(), c₁, yields_expect.2 ⟨opening, hopening⟩, yields_bind.2 ⟨e, c₂, hoperands, ?_⟩⟩
    rw [yields_peek_bind, hclosing.ahead_cons]
    exact yields_bind.2 ⟨(), c', yields_expect.2 ⟨closing, hclosing⟩, yields_pure.2 ⟨rfl, rfl⟩⟩

/-- Nothing makes a right-hand side longer at a cursor. -/
def RightStops (c : Cursor) : RightSide → Prop
  | .sum s => Stops c s
  | _ => True

theorem rightStops_of_ahead
    (s : RightSide)
    (h : ahead c.rest ≠ some .plus) :
    RightStops c s := by
  cases s with
  | sum s => exact stops_of_ahead s h
  | _ => trivial

/-- An operation with its keyword is a right-hand side. -/
theorem exists_rightSide
    {op : ParamOp}
    {keyword : Span}
    {e : Expr}
    (hkey : Takes [⟨.keyword op.keyword, keyword⟩] c c')
    (h : Yields (parameterized op) c' e c'') :
    ∃ tree : RightSide, tree.expr = e ∧ Takes tree.tokens c c'' ∧ RightStops c'' tree := by
  obtain ⟨opening, c₁, closing, c₂, hopening, hoperands, hclosing⟩ := yields_parameterized.1 h
  cases op with
  | band =>
      obtain ⟨left, comma, right, rfl, htakes⟩ := yields_operands_band.1 hoperands
      refine ⟨.band keyword opening left comma right closing, rfl, ?_, trivial⟩
      refine takes_cons.2 ⟨c', hkey, takes_cons.2 ⟨c₁, hopening, ?_⟩⟩
      have hall := takes_append.2 ⟨c₂, htakes, hclosing⟩
      rwa [List.append_assoc, List.cons_append] at hall
  | unary op =>
      obtain ⟨operand, rfl, htakes, -⟩ := yields_operands_unary.1 hoperands
      refine ⟨.unary op keyword opening operand closing, rfl, ?_, trivial⟩
      exact takes_cons.2 ⟨c', hkey, takes_cons.2 ⟨c₁, hopening,
        takes_append.2 ⟨c₂, htakes, hclosing⟩⟩⟩

theorem keyword_of_ofKeyword?
    {k : Keyword}
    {op : ParamOp}
    (h : ParamOp.ofKeyword? k = some op) :
    op.keyword = k := by
  unfold ParamOp.ofKeyword? at h
  split at h <;> cases h <;> rfl

/-- A right-hand side that is an operation is its keyword and the rest. -/
theorem yields_parameterized_of_takes
    {op : ParamOp}
    {keyword opening closing : Span}
    {e : Expr}
    (h : Takes (⟨.keyword op.keyword, keyword⟩ :: ⟨.openParen, opening⟩ ::
      (ts ++ [⟨.closeParen, closing⟩])) c c')
    (hts : ∀ c₁ c₂, Takes ts c₁ c₂ → ahead c₂.rest ≠ some .plus → Yields (operands op) c₁ e c₂) :
    ∃ t c₁, Yields next c t c₁ ∧ Yields (parameterized op) c₁ e c' := by
  obtain ⟨c₁, hkey, h₁⟩ := takes_cons.1 h
  obtain ⟨c₂, hopening, h₂⟩ := takes_cons.1 h₁
  obtain ⟨c₃, hmid, hclosing⟩ := takes_append.1 h₂
  have hoperands := hts c₂ c₃ hmid (by rw [hclosing.ahead_cons]; simp)
  exact ⟨_, c₁, yields_next.2 hkey,
    yields_parameterized.2 ⟨opening, c₂, closing, c₃, hopening, hoperands, hclosing⟩⟩

theorem yields_source
    {e : Located Expr} :
    Yields source c e c' ↔
      ∃ tree : RightSide, tree.located = e ∧ Takes tree.tokens c c' ∧ RightStops c' tree := by
  unfold source
  rw [yields_spanning]
  constructor
  · rintro ⟨t, us, hc, hrule, hspan⟩
    obtain ⟨value, span⟩ := e
    have hahead : ahead c.rest = some t.value := by rw [hc]; rfl
    suffices htree : ∃ tree : RightSide, tree.expr = value ∧ Takes tree.tokens c c' ∧
        RightStops c' tree by
      obtain ⟨tree, rfl, htakes, hstops⟩ := htree
      refine ⟨tree, ?_, htakes, hstops⟩
      rw [RightSide.located, htakes.covering_eq tree.tokens_ne_nil hc, ← hspan]
    split at hrule
    · next k hk =>
        split at hrule
        · next op hop =>
            obtain ⟨u, c₁, hnext, hparam⟩ := yields_bind.1 hrule
            rw [hk, ← keyword_of_ofKeyword? hop] at hahead
            exact exists_rightSide (takes_of_next hahead hnext) hparam
        · exact absurd hrule not_yields_refuse
    · obtain ⟨tree, rfl, htakes, hstops⟩ := yields_sum.1 hrule
      exact ⟨.sum tree, rfl, htakes, hstops⟩
    · obtain ⟨tree, rfl, htakes, hstops⟩ := yields_sum.1 hrule
      exact ⟨.sum tree, rfl, htakes, hstops⟩
    · exact absurd hrule not_yields_refuse
  · rintro ⟨tree, rfl, htakes, hstops⟩
    obtain ⟨t, us, hc⟩ := htakes.exists_next tree.tokens_ne_nil
    refine ⟨t, us, hc, ?_, htakes.covering_eq tree.tokens_ne_nil hc⟩
    have hahead : some t.value = ahead (tree.tokens ++ c'.rest) := by
      rw [← htakes.ahead_eq, hc]
      rfl
    cases tree with
    | sum s =>
        have hsum := yields_sum.2 ⟨s, rfl, htakes, hstops⟩
        rcases s.ahead_tokens c'.rest with hfirst | ⟨q, hfirst⟩
        · rw [Option.some.inj (hahead.trans hfirst)]
          exact hsum
        · rw [Option.some.inj (hahead.trans hfirst)]
          exact hsum
    | band keyword opening left comma right closing =>
        rw [Option.some.inj hahead]
        have hshape : (RightSide.band keyword opening left comma right closing).tokens =
            ⟨.keyword ParamOp.band.keyword, keyword⟩ :: ⟨.openParen, opening⟩ ::
              ((left.tokens ++ ⟨.comma, comma⟩ :: right.tokens) ++ [⟨.closeParen, closing⟩]) := by
          simp [RightSide.tokens, ParamOp.keyword]
        rw [hshape] at htakes
        refine yields_bind.2 (yields_parameterized_of_takes htakes ?_)
        intro c₁ c₂ hmid _
        exact yields_operands_band.2 ⟨left, comma, right, rfl, hmid⟩
    | unary op keyword opening operand closing =>
        rw [Option.some.inj hahead]
        simp only [ParamOp.ofKeyword?_keyword]
        refine yields_bind.2 (yields_parameterized_of_takes htakes ?_)
        intro c₁ c₂ hmid hplus
        exact yields_operands_unary.2 ⟨operand, rfl, hmid, stops_of_ahead operand hplus⟩

end RightSides

section Actions

theorem yields_target
    {name : Located String} :
    Yields target c name c' ↔ ∃ keyword, Takes (jumpTokens keyword name) c c' := by
  unfold target
  rw [yields_bind]
  constructor
  · rintro ⟨_, c₁, hgoto, hname⟩
    obtain ⟨keyword, hkeyword⟩ := yields_expect.1 hgoto
    exact ⟨keyword, takes_cons.2 ⟨c₁, hkeyword, yields_label.1 hname⟩⟩
  · rintro ⟨keyword, h⟩
    obtain ⟨c₁, hkeyword, hname⟩ := takes_cons.1 h
    exact ⟨(), c₁, yields_expect.2 ⟨keyword, hkeyword⟩, yields_label.2 hname⟩

theorem yields_condition
    {wanted : Condition} :
    Yields condition c wanted c' ↔ ∃ s, Takes [⟨.keyword wanted.keyword, s⟩] c c' := by
  unfold condition
  rw [yields_bind]
  constructor
  · rintro ⟨⟨value, span⟩, c₁, hnext, hrest⟩
    rw [yields_next] at hnext
    split at hrest
    · next hv =>
        obtain ⟨rfl, rfl⟩ := yields_pure.1 hrest
        obtain rfl : value = .keyword .negative := hv
        exact ⟨span, hnext⟩
    · next hv =>
        obtain ⟨rfl, rfl⟩ := yields_pure.1 hrest
        obtain rfl : value = .keyword .zero := hv
        exact ⟨span, hnext⟩
    · exact absurd hrest not_yields_fail
  · rintro ⟨s, h⟩
    refine ⟨_, c', yields_next.2 h, ?_⟩
    cases wanted with
    | negative => exact yields_pure.2 ⟨rfl, rfl⟩
    | zero => exact yields_pure.2 ⟨rfl, rfl⟩

/-- Nothing makes an action longer at a cursor. -/
def ActionStops (c : Cursor) : Action → Prop
  | .assign _ _ source => RightStops c source
  | _ => True

theorem actionStops_of_ahead
    (a : Action)
    (h : ahead c.rest ≠ some .plus) :
    ActionStops c a := by
  cases a with
  | assign dest sign source => exact rightStops_of_ahead source h
  | _ => trivial

theorem yields_assignment
    {sub : Subinstruction} :
    Yields assignment c sub c' ↔
      ∃ dest sign source, (Action.assign dest sign source).subinstruction = sub ∧
        Takes (Action.assign dest sign source).tokens c c' ∧ RightStops c' source := by
  unfold assignment
  rw [yields_bind]
  constructor
  · rintro ⟨r, c₁, hdest, h₁⟩
    obtain ⟨_, c₂, hsign, h₂⟩ := yields_bind.1 h₁
    obtain ⟨e, c₃, hsource, h₃⟩ := yields_bind.1 h₂
    obtain ⟨rfl, rfl⟩ := yields_pure.1 h₃
    obtain ⟨dest, rfl, htakes⟩ := yields_register.1 hdest
    obtain ⟨sign, hassign⟩ := yields_expect.1 hsign
    obtain ⟨source, rfl, htakes', hstops⟩ := yields_source.1 hsource
    exact ⟨dest, sign, source, rfl,
      takes_append.2 ⟨c₁, htakes, takes_cons.2 ⟨c₂, hassign, htakes'⟩⟩, hstops⟩
  · rintro ⟨dest, sign, source, rfl, h, hstops⟩
    obtain ⟨c₁, hdest, h₁⟩ := takes_append.1 h
    obtain ⟨c₂, hsign, hsource⟩ := takes_cons.1 h₁
    exact ⟨_, c₁, yields_register.2 ⟨dest, rfl, hdest⟩,
      yields_bind.2 ⟨(), c₂, yields_expect.2 ⟨sign, hsign⟩,
        yields_bind.2 ⟨_, c', yields_source.2 ⟨source, rfl, hsource, hstops⟩,
          yields_pure.2 ⟨rfl, rfl⟩⟩⟩⟩

theorem yields_conditional
    {sub : Subinstruction} :
    Yields conditional c sub c' ↔
      ∃ ifWord condition thenWord gotoWord target,
        (Action.branch ifWord condition thenWord gotoWord target).subinstruction = sub ∧
        Takes (Action.branch ifWord condition thenWord gotoWord target).tokens c c' := by
  unfold conditional
  rw [yields_bind]
  constructor
  · rintro ⟨_, c₁, hif, h₁⟩
    obtain ⟨wanted, c₂, hcond, h₂⟩ := yields_bind.1 h₁
    obtain ⟨_, c₃, hthen, h₃⟩ := yields_bind.1 h₂
    obtain ⟨name, c₄, hgoto, h₄⟩ := yields_bind.1 h₃
    obtain ⟨rfl, rfl⟩ := yields_pure.1 h₄
    obtain ⟨ifWord, hifWord⟩ := yields_expect.1 hif
    obtain ⟨span, hspan⟩ := yields_condition.1 hcond
    obtain ⟨thenWord, hthenWord⟩ := yields_expect.1 hthen
    obtain ⟨gotoWord, hjump⟩ := yields_target.1 hgoto
    exact ⟨ifWord, ⟨wanted, span⟩, thenWord, gotoWord, name, rfl,
      takes_cons.2 ⟨c₁, hifWord, takes_cons.2 ⟨c₂, hspan, takes_cons.2 ⟨c₃, hthenWord, hjump⟩⟩⟩⟩
  · rintro ⟨ifWord, ⟨wanted, span⟩, thenWord, gotoWord, name, rfl, h⟩
    obtain ⟨c₁, hif, h₁⟩ := takes_cons.1 h
    obtain ⟨c₂, hcond, h₂⟩ := takes_cons.1 h₁
    obtain ⟨c₃, hthen, hjump⟩ := takes_cons.1 h₂
    exact ⟨(), c₁, yields_expect.2 ⟨ifWord, hif⟩,
      yields_bind.2 ⟨wanted, c₂, yields_condition.2 ⟨span, hcond⟩,
        yields_bind.2 ⟨(), c₃, yields_expect.2 ⟨thenWord, hthen⟩,
          yields_bind.2 ⟨name, c', yields_target.2 ⟨gotoWord, hjump⟩,
            yields_pure.2 ⟨rfl, rfl⟩⟩⟩⟩⟩

/-- A rule for one token, which is known, takes that token. -/
theorem yields_single
    {sub sub' : Subinstruction}
    {token : Token}
    (hahead : ahead c.rest = some token) :
    Yields (single sub) c sub' c' ↔ sub = sub' ∧ ∃ s, Takes [⟨token, s⟩] c c' := by
  unfold single
  rw [yields_bind]
  constructor
  · rintro ⟨t, c₁, hnext, hpure⟩
    obtain ⟨rfl, rfl⟩ := yields_pure.1 hpure
    exact ⟨rfl, t.span, takes_of_next hahead hnext⟩
  · rintro ⟨rfl, s, h⟩
    exact ⟨_, c', yields_next.2 h, yields_pure.2 ⟨rfl, rfl⟩⟩

theorem yields_subinstruction
    {sub : Located Subinstruction} :
    Yields subinstruction c sub c' ↔
      ∃ tree : Action, tree.located = sub ∧ Takes tree.tokens c c' ∧ ActionStops c' tree := by
  unfold subinstruction
  rw [yields_spanning]
  constructor
  · rintro ⟨t, us, hc, hrule, hspan⟩
    obtain ⟨value, span⟩ := sub
    have hahead : ahead c.rest = some t.value := by rw [hc]; rfl
    suffices htree : ∃ tree : Action, tree.subinstruction = value ∧ Takes tree.tokens c c' ∧
        ActionStops c' tree by
      obtain ⟨tree, rfl, htakes, hstops⟩ := htree
      refine ⟨tree, ?_, htakes, hstops⟩
      rw [Action.located, htakes.covering_eq tree.tokens_ne_nil hc, ← hspan]
    split at hrule
    · obtain ⟨dest, sign, source, hsub, htakes, hstops⟩ := yields_assignment.1 hrule
      exact ⟨_, hsub, htakes, hstops⟩
    · obtain ⟨dest, sign, source, hsub, htakes, hstops⟩ := yields_assignment.1 hrule
      exact ⟨_, hsub, htakes, hstops⟩
    · obtain ⟨name, c₁, hname, hpure⟩ := yields_bind.1 hrule
      obtain ⟨rfl, rfl⟩ := yields_pure.1 hpure
      obtain ⟨keyword, htakes⟩ := yields_target.1 hname
      exact ⟨.goto keyword name, rfl, htakes, trivial⟩
    · obtain ⟨ifWord, condition, thenWord, gotoWord, target, hsub, htakes⟩ :=
        yields_conditional.1 hrule
      exact ⟨_, hsub, htakes, trivial⟩
    · next hv =>
        obtain ⟨rfl, s, htakes⟩ := (yields_single (hahead.trans (congrArg some hv))).1 hrule
        exact ⟨.read s, rfl, htakes, trivial⟩
    · next hv =>
        obtain ⟨rfl, s, htakes⟩ := (yields_single (hahead.trans (congrArg some hv))).1 hrule
        exact ⟨.write s, rfl, htakes, trivial⟩
    · next hv =>
        obtain ⟨rfl, s, htakes⟩ := (yields_single (hahead.trans (congrArg some hv))).1 hrule
        exact ⟨.halt s, rfl, htakes, trivial⟩
    · exact absurd hrule not_yields_refuse
    · exact absurd hrule not_yields_refuse
  · rintro ⟨tree, rfl, htakes, hstops⟩
    obtain ⟨t, us, hc⟩ := htakes.exists_next tree.tokens_ne_nil
    refine ⟨t, us, hc, ?_, htakes.covering_eq tree.tokens_ne_nil hc⟩
    have hahead : some t.value = ahead (tree.tokens ++ c'.rest) := by
      rw [← htakes.ahead_eq, hc]
      rfl
    cases tree with
    | assign dest sign source =>
        have hassign := yields_assignment.2 ⟨dest, sign, source, rfl, htakes, hstops⟩
        rw [Action.tokens, List.append_assoc] at hahead
        rcases dest.ahead_tokens (⟨.assign, sign⟩ :: source.tokens ++ c'.rest) with
          hfirst | ⟨q, hfirst⟩
        · rw [Option.some.inj (hahead.trans hfirst)]
          exact hassign
        · rw [Option.some.inj (hahead.trans hfirst)]
          exact hassign
    | goto keyword target =>
        rw [Option.some.inj hahead]
        exact yields_bind.2 ⟨target, c', yields_target.2 ⟨keyword, htakes⟩,
          yields_pure.2 ⟨rfl, rfl⟩⟩
    | branch ifWord condition thenWord gotoWord target =>
        rw [Option.some.inj hahead]
        exact yields_conditional.2 ⟨ifWord, condition, thenWord, gotoWord, target, rfl, htakes⟩
    | read keyword =>
        rw [Option.some.inj hahead]
        exact (yields_single htakes.ahead_cons).2 ⟨rfl, keyword, htakes⟩
    | write keyword =>
        rw [Option.some.inj hahead]
        exact (yields_single htakes.ahead_cons).2 ⟨rfl, keyword, htakes⟩
    | halt keyword =>
        rw [Option.some.inj hahead]
        exact (yields_single htakes.ahead_cons).2 ⟨rfl, keyword, htakes⟩

end Actions

end Parser
end Microcode
