import Microcode.Program.Rules
import Mathlib.Tactic

/-!
# The grammar of microprograms

A `Derivation` is a concrete syntax tree: it keeps every token, parentheses and
line ends included, with the place where it stands.  Its type is the grammar.
The bounds on a line (at least one action, at most six slots) are fields of
`Line`, so there are no trees of other lines.

`tokens` spells a tree, and `program` forgets what only serves its spelling and
numbers the lines.

**Results.**  `Derivation.tokens_injective`: a list of tokens has at most one
derivation.  For the parts of a line, this holds of the front of a list: trees
whose tokens start the same list are equal, and what follows them is the same.
`Line.ne_newline`: a line holds no line end.
-/

namespace Microcode

/-- The keyword of a condition. -/
def Condition.keyword : Condition → Keyword
  | negative => .negative
  | zero => .zero

/-- An operand that is a right-hand side by itself. -/
def Operand.expr : Operand → Expr
  | read r => .read r
  | add left right => .add left right

namespace Grammar

/-- A register, possibly in one pair of parentheses. -/
inductive Reg where
  | bare (r : Located Register)
  | wrapped (opening : Span) (r : Located Register) (closing : Span)

/-- A register or an addition. -/
inductive Sum where
  | single (r : Reg)
  | plus (left : Reg) (sign : Span) (right : Reg)

/-- The right-hand side of an assignment. -/
inductive RightSide where
  | sum (s : Sum)
  | band (keyword opening : Span) (left : Reg) (comma : Span) (right : Reg) (closing : Span)
  | unary (op : UnaryOp) (keyword opening : Span) (operand : Sum) (closing : Span)

/-- A sub-instruction without its `;`. -/
inductive Action where
  | assign (dest : Reg) (sign : Span) (source : RightSide)
  | goto (keyword : Span) (target : Located String)
  | branch (ifWord : Span) (condition : Located Condition) (thenWord gotoWord : Span)
      (target : Located String)
  | read (keyword : Span)
  | write (keyword : Span)
  | halt (keyword : Span)

/-- An instruction: a label with its `:`, if there is one, and actions with their
`;`. -/
@[ext] structure Line where
  label : Option (Located String × Span)
  actions : List (Action × Span)
  actions_ne_nil : actions ≠ []
  slots_le : label.toList.length + actions.length ≤ Instruction.slots

/-- Instructions, each ended by one or more line ends or by the end of the
tokens. -/
inductive Lines where
  | done
  | last (line : Line)
  | ended (line : Line) (newline : Span) (more : List Span) (rest : Lines)

/-- A whole program: line ends, then instructions. -/
structure Derivation where
  lead : List Span
  lines : Lines

/-- Line ends at some places. -/
def newlines (spans : List Span) : List (Located Token) :=
  spans.map fun s => ⟨.newline, s⟩

/-- From the start of the first token to the end of the last one. -/
def covering (ts : List (Located Token)) (h : ts ≠ []) : Span :=
  (ts.head h).span.through (ts.getLast h).span

/-- The token that comes first, if there is one. -/
def ahead (ts : List (Located Token)) : Option Token :=
  ts.head?.map Located.value

@[simp] theorem ahead_nil :
    ahead [] = none := by
  rfl

@[simp] theorem ahead_cons
    (t : Located Token)
    (ts : List (Located Token)) :
    ahead (t :: ts) = some t.value := by
  rfl

section Spelling

def Reg.tokens : Reg → List (Located Token)
  | bare r => [⟨.register r.value, r.span⟩]
  | wrapped opening r closing =>
      [⟨.openParen, opening⟩, ⟨.register r.value, r.span⟩, ⟨.closeParen, closing⟩]

def Sum.tokens : Sum → List (Located Token)
  | single r => r.tokens
  | plus left sign right => left.tokens ++ ⟨.plus, sign⟩ :: right.tokens

def RightSide.tokens : RightSide → List (Located Token)
  | sum s => s.tokens
  | band keyword opening left comma right closing =>
      ⟨.keyword .band, keyword⟩ :: ⟨.openParen, opening⟩ ::
        (left.tokens ++ ⟨.comma, comma⟩ :: (right.tokens ++ [⟨.closeParen, closing⟩]))
  | unary op keyword opening operand closing =>
      ⟨.keyword (ParamOp.unary op).keyword, keyword⟩ :: ⟨.openParen, opening⟩ ::
        (operand.tokens ++ [⟨.closeParen, closing⟩])

/-- The `goto` of a jump and its target. -/
def jumpTokens (keyword : Span) (target : Located String) : List (Located Token) :=
  [⟨.keyword .goto, keyword⟩, ⟨.label target.value, target.span⟩]

def Action.tokens : Action → List (Located Token)
  | assign dest sign source => dest.tokens ++ ⟨.assign, sign⟩ :: source.tokens
  | goto keyword target => jumpTokens keyword target
  | branch ifWord condition thenWord gotoWord target =>
      ⟨.keyword .ifWord, ifWord⟩ :: ⟨.keyword condition.value.keyword, condition.span⟩ ::
        ⟨.keyword .thenWord, thenWord⟩ :: jumpTokens gotoWord target
  | read keyword => [⟨.keyword .rd, keyword⟩]
  | write keyword => [⟨.keyword .wr, keyword⟩]
  | halt keyword => [⟨.keyword .halt, keyword⟩]

/-- The label of a line and its `:`. -/
def labelTokens : Option (Located String × Span) → List (Located Token)
  | none => []
  | some (name, colon) => [⟨.label name.value, name.span⟩, ⟨.colon, colon⟩]

/-- The actions of a line, each with its `;`. -/
def actionTokens : List (Action × Span) → List (Located Token)
  | [] => []
  | (a, semicolon) :: rest => a.tokens ++ ⟨.semicolon, semicolon⟩ :: actionTokens rest

def Line.tokens (line : Line) : List (Located Token) :=
  labelTokens line.label ++ actionTokens line.actions

def Lines.tokens : Lines → List (Located Token)
  | done => []
  | last line => line.tokens
  | ended line newline more rest => line.tokens ++ newlines (newline :: more) ++ rest.tokens

/-- The tokens of a derivation. -/
def Derivation.tokens (tree : Derivation) : List (Located Token) :=
  newlines tree.lead ++ tree.lines.tokens

end Spelling

section Heads

theorem Reg.ahead_tokens
    (r : Reg)
    (ts : List (Located Token)) :
    ahead (r.tokens ++ ts) = some .openParen ∨
      ∃ q, ahead (r.tokens ++ ts) = some (.register q) := by
  cases r with
  | bare r => exact Or.inr ⟨r.value, rfl⟩
  | wrapped opening r closing => exact Or.inl rfl

theorem Sum.ahead_tokens
    (s : Sum)
    (ts : List (Located Token)) :
    ahead (s.tokens ++ ts) = some .openParen ∨
      ∃ q, ahead (s.tokens ++ ts) = some (.register q) := by
  cases s with
  | single r =>
      exact r.ahead_tokens ts
  | plus left sign right =>
      rw [Sum.tokens, List.append_assoc]
      exact left.ahead_tokens _

/-- An action starts with a parenthesis, a register or a keyword. -/
theorem Action.ahead_tokens
    (a : Action)
    (ts : List (Located Token)) :
    ahead (a.tokens ++ ts) = some .openParen ∨
      (∃ q, ahead (a.tokens ++ ts) = some (.register q)) ∨
      ∃ k, ahead (a.tokens ++ ts) = some (.keyword k) := by
  cases a with
  | assign dest sign source =>
      rw [Action.tokens, List.append_assoc]
      rcases dest.ahead_tokens (⟨.assign, sign⟩ :: source.tokens ++ ts) with h | h
      · exact Or.inl h
      · exact Or.inr (Or.inl h)
  | _ => exact Or.inr (Or.inr ⟨_, rfl⟩)

theorem ne_nil_of_ahead
    {ts : List (Located Token)}
    {t : Token}
    (h : ahead ts = some t) :
    ts ≠ [] := by
  rintro rfl
  cases h

theorem RightSide.tokens_ne_nil
    (s : RightSide) :
    s.tokens ≠ [] := by
  cases s with
  | sum s =>
      rcases s.ahead_tokens [] with h | ⟨q, h⟩ <;>
        · rw [List.append_nil] at h
          exact ne_nil_of_ahead h
  | _ => simp [RightSide.tokens]

theorem Action.tokens_ne_nil
    (a : Action) :
    a.tokens ≠ [] := by
  rcases a.ahead_tokens [] with h | ⟨q, h⟩ | ⟨k, h⟩ <;>
    · rw [List.append_nil] at h
      exact ne_nil_of_ahead h

end Heads

section Meaning

/-- The register, without its parentheses. -/
def Reg.register : Reg → Located Register
  | bare r => r
  | wrapped _ r _ => r

/-- A sum as a right-hand side. -/
def Sum.expr : Sum → Expr
  | single r => .read r.register
  | plus left _ right => .add left.register right.register

/-- A sum in the parentheses of an operation. -/
def Sum.operand : Sum → Operand
  | single r => .read r.register
  | plus left _ right => .add left.register right.register

theorem Sum.expr_eq
    (s : Sum) :
    s.expr = s.operand.expr := by
  cases s <;> rfl

def RightSide.expr : RightSide → Expr
  | sum s => s.expr
  | band _ _ left _ right _ => .band left.register right.register
  | unary op _ _ operand _ => .unary op operand.operand

/-- A right-hand side with the span of its tokens. -/
def RightSide.located (s : RightSide) : Located Expr :=
  ⟨s.expr, covering s.tokens s.tokens_ne_nil⟩

def Action.subinstruction : Action → Subinstruction
  | assign dest _ source => .assign dest.register source.located
  | goto _ target => .goto target
  | branch _ condition _ _ target => .branch condition.value target
  | read _ => .read
  | write _ => .write
  | halt _ => .halt

/-- An action with the span of its tokens. -/
def Action.located (a : Action) : Located Subinstruction :=
  ⟨a.subinstruction, covering a.tokens a.tokens_ne_nil⟩

def Line.instruction (address : Nat) (line : Line) : Instruction :=
  ⟨line.label.map Prod.fst, address, line.actions.map fun a => a.1.located⟩

/-- The instructions of some lines, the first one with the given address. -/
def Lines.instructions (address : Nat) : Lines → List Instruction
  | done => []
  | last line => [line.instruction address]
  | ended line _ _ rest => line.instruction address :: rest.instructions (address + 1)

/-- The program of a derivation. -/
def Derivation.program (tree : Derivation) : Program :=
  ⟨tree.lines.instructions 0⟩

/-- The target of an action is one of its tokens. -/
theorem Action.mem_tokens_of_target
    (a : Action)
    {name : Located String}
    (h : a.subinstruction.target? = some name) :
    ⟨.label name.value, name.span⟩ ∈ a.tokens := by
  cases a with
  | goto keyword target =>
      cases h
      simp [Action.tokens, jumpTokens]
  | branch ifWord condition thenWord gotoWord target =>
      cases h
      simp [Action.tokens, jumpTokens]
  | _ => cases h

/-- The tokens of an action stand together among those of its line. -/
theorem infix_actionTokens
    {as : List (Action × Span)}
    {a : Action × Span}
    (h : a ∈ as) :
    a.1.tokens <:+: actionTokens as := by
  induction as with
  | nil =>
      cases h
  | cons b as ih =>
      rcases List.mem_cons.1 h with rfl | h
      · exact (List.prefix_append _ _).isInfix
      · exact (ih h).trans ⟨b.1.tokens ++ [⟨.semicolon, b.2⟩], [], by simp [actionTokens]⟩

end Meaning

section Unambiguity

variable {rest rest' : List (Located Token)}

theorem Reg.tokens_append_inj
    {r r' : Reg}
    (h : r.tokens ++ rest = r'.tokens ++ rest') :
    r = r' ∧ rest = rest' := by
  rcases r with ⟨q, s⟩ | ⟨opening, ⟨q, s⟩, closing⟩ <;>
    rcases r' with ⟨q', s'⟩ | ⟨opening', ⟨q', s'⟩, closing'⟩ <;>
      simp_all [Reg.tokens]

/-- Sums that start the same list are equal if no `+` follows them. -/
theorem Sum.tokens_append_inj
    {s s' : Sum}
    (h : s.tokens ++ rest = s'.tokens ++ rest')
    (hrest : ahead rest ≠ some .plus)
    (hrest' : ahead rest' ≠ some .plus) :
    s = s' ∧ rest = rest' := by
  cases s with
  | single r =>
      cases s' with
      | single r' =>
          obtain ⟨rfl, hsame⟩ := Reg.tokens_append_inj h
          exact ⟨rfl, hsame⟩
      | plus left' sign' right' =>
          rw [Sum.tokens, Sum.tokens, List.append_assoc] at h
          obtain ⟨-, rfl⟩ := Reg.tokens_append_inj h
          exact absurd rfl hrest
  | plus left sign right =>
      cases s' with
      | single r' =>
          rw [Sum.tokens, Sum.tokens, List.append_assoc] at h
          obtain ⟨-, rfl⟩ := Reg.tokens_append_inj h
          exact absurd rfl hrest'
      | plus left' sign' right' =>
          rw [Sum.tokens, Sum.tokens, List.append_assoc, List.append_assoc] at h
          obtain ⟨rfl, hsign⟩ := Reg.tokens_append_inj h
          obtain ⟨hmark, hright⟩ := List.cons.inj hsign
          obtain ⟨rfl, hsame⟩ := Reg.tokens_append_inj hright
          cases hmark
          exact ⟨rfl, hsame⟩

theorem Sum.ahead_tokens_ne_keyword
    (s : Sum)
    (ts : List (Located Token))
    (k : Keyword) :
    ahead (s.tokens ++ ts) ≠ some (.keyword k) := by
  rcases s.ahead_tokens ts with h | ⟨q, h⟩ <;> simp [h]

theorem unary_keyword_injective
    {op op' : UnaryOp}
    (h : (ParamOp.unary op).keyword = (ParamOp.unary op').keyword) :
    op = op' := by
  have hop := ParamOp.ofKeyword?_keyword (.unary op)
  rw [h, ParamOp.ofKeyword?_keyword] at hop
  exact (ParamOp.unary.inj (Option.some.inj hop)).symm

theorem unary_keyword_ne_band
    (op : UnaryOp) :
    (ParamOp.unary op).keyword ≠ .band := by
  cases op <;> simp [ParamOp.keyword]

theorem RightSide.tokens_append_inj
    {s s' : RightSide}
    (h : s.tokens ++ rest = s'.tokens ++ rest')
    (hrest : ahead rest ≠ some .plus)
    (hrest' : ahead rest' ≠ some .plus) :
    s = s' ∧ rest = rest' := by
  have hahead := congrArg ahead h
  cases s with
  | sum s =>
      cases s' with
      | sum s' =>
          obtain ⟨rfl, hsame⟩ := Sum.tokens_append_inj h hrest hrest'
          exact ⟨rfl, hsame⟩
      | _ => exact absurd hahead (s.ahead_tokens_ne_keyword _ _)
  | band keyword opening left comma right closing =>
      cases s' with
      | sum s' => exact absurd hahead.symm (s'.ahead_tokens_ne_keyword _ _)
      | unary op' keyword' opening' operand' closing' =>
          have hkey := Token.keyword.inj (Option.some.inj hahead)
          exact absurd hkey.symm (unary_keyword_ne_band op')
      | band keyword' opening' left' comma' right' closing' =>
          simp only [RightSide.tokens, List.cons_append, List.append_assoc, List.cons.injEq,
            Located.mk.injEq, true_and, List.nil_append] at h
          obtain ⟨rfl, rfl, hleft⟩ := h
          obtain ⟨rfl, hmid⟩ := Reg.tokens_append_inj hleft
          obtain ⟨hcomma, hright⟩ := List.cons.inj hmid
          obtain ⟨rfl, hend⟩ := Reg.tokens_append_inj hright
          obtain ⟨hclosing, hsame⟩ := List.cons.inj hend
          cases hcomma
          cases hclosing
          exact ⟨rfl, hsame⟩
  | unary op keyword opening operand closing =>
      cases s' with
      | sum s' => exact absurd hahead.symm (s'.ahead_tokens_ne_keyword _ _)
      | band keyword' opening' left' comma' right' closing' =>
          have hkey := Token.keyword.inj (Option.some.inj hahead)
          exact absurd hkey (unary_keyword_ne_band op)
      | unary op' keyword' opening' operand' closing' =>
          simp only [RightSide.tokens, List.cons_append, List.append_assoc, List.cons.injEq,
            Located.mk.injEq, Token.keyword.injEq, true_and, List.nil_append] at h
          obtain ⟨⟨hop, rfl⟩, rfl, hoperand⟩ := h
          obtain ⟨rfl, hend⟩ := Sum.tokens_append_inj hoperand (by simp) (by simp)
          obtain ⟨hclosing, hsame⟩ := List.cons.inj hend
          cases unary_keyword_injective hop
          cases hclosing
          exact ⟨rfl, hsame⟩

theorem jumpTokens_append_inj
    {keyword keyword' : Span}
    {target target' : Located String}
    (h : jumpTokens keyword target ++ rest = jumpTokens keyword' target' ++ rest') :
    keyword = keyword' ∧ target = target' ∧ rest = rest' := by
  obtain ⟨name, span⟩ := target
  obtain ⟨name', span'⟩ := target'
  simpa [jumpTokens, and_assoc] using h

theorem condition_keyword_injective
    {c c' : Condition}
    (h : c.keyword = c'.keyword) :
    c = c' := by
  revert h
  cases c <;> cases c' <;> simp [Condition.keyword]

theorem Reg.ahead_assign_ne_keyword
    (dest : Reg)
    (sign : Span)
    (source : RightSide)
    (ts : List (Located Token))
    (k : Keyword) :
    ahead ((Action.assign dest sign source).tokens ++ ts) ≠ some (.keyword k) := by
  rw [Action.tokens, List.append_assoc]
  intro hkey
  rcases dest.ahead_tokens (⟨.assign, sign⟩ :: source.tokens ++ ts) with h | ⟨q, h⟩ <;>
    · rw [hkey] at h
      cases h

/-- Assignments that start the same list are equal if no `+` follows them. -/
theorem assign_tokens_append_inj
    {dest dest' : Reg}
    {sign sign' : Span}
    {source source' : RightSide}
    (h : (Action.assign dest sign source).tokens ++ rest =
      (Action.assign dest' sign' source').tokens ++ rest')
    (hrest : ahead rest ≠ some .plus)
    (hrest' : ahead rest' ≠ some .plus) :
    Action.assign dest sign source = .assign dest' sign' source' ∧ rest = rest' := by
  rw [Action.tokens, Action.tokens, List.append_assoc, List.append_assoc] at h
  obtain ⟨rfl, hmid⟩ := Reg.tokens_append_inj h
  obtain ⟨hsign, hsource⟩ := List.cons.inj hmid
  obtain ⟨rfl, hsame⟩ := RightSide.tokens_append_inj hsource hrest hrest'
  cases hsign
  exact ⟨rfl, hsame⟩

theorem branch_tokens_append_inj
    {ifWord ifWord' thenWord thenWord' gotoWord gotoWord' : Span}
    {condition condition' : Located Condition}
    {target target' : Located String}
    (h : (Action.branch ifWord condition thenWord gotoWord target).tokens ++ rest =
      (Action.branch ifWord' condition' thenWord' gotoWord' target').tokens ++ rest') :
    Action.branch ifWord condition thenWord gotoWord target =
      .branch ifWord' condition' thenWord' gotoWord' target' ∧ rest = rest' := by
  obtain ⟨c, span⟩ := condition
  obtain ⟨c', span'⟩ := condition'
  simp only [Action.tokens, List.cons_append, List.cons.injEq, Located.mk.injEq,
    Token.keyword.injEq, true_and] at h
  obtain ⟨rfl, ⟨hc, rfl⟩, rfl, hjump⟩ := h
  cases condition_keyword_injective hc
  obtain ⟨rfl, rfl, hsame⟩ := jumpTokens_append_inj hjump
  exact ⟨rfl, hsame⟩

/-- Two actions of different kinds do not start the same list, so the cases left
are those of equal kinds. -/
theorem Action.tokens_append_inj
    {a a' : Action}
    (h : a.tokens ++ rest = a'.tokens ++ rest')
    (hrest : ahead rest ≠ some .plus)
    (hrest' : ahead rest' ≠ some .plus) :
    a = a' ∧ rest = rest' := by
  have hahead := congrArg ahead h
  cases a with
  | assign dest sign source =>
      cases a' with
      | assign dest' sign' source' => exact assign_tokens_append_inj h hrest hrest'
      | _ => exact absurd hahead (dest.ahead_assign_ne_keyword _ _ _ _)
  | goto keyword target =>
      cases a' with
      | assign dest' sign' source' =>
          exact absurd hahead.symm (dest'.ahead_assign_ne_keyword _ _ _ _)
      | goto keyword' target' =>
          obtain ⟨rfl, rfl, hsame⟩ := jumpTokens_append_inj h
          exact ⟨rfl, hsame⟩
      | _ => cases hahead
  | branch ifWord condition thenWord gotoWord target =>
      cases a' with
      | assign dest' sign' source' =>
          exact absurd hahead.symm (dest'.ahead_assign_ne_keyword _ _ _ _)
      | branch ifWord' condition' thenWord' gotoWord' target' => exact branch_tokens_append_inj h
      | _ => cases hahead
  | read keyword =>
      cases a' with
      | assign dest' sign' source' =>
          exact absurd hahead.symm (dest'.ahead_assign_ne_keyword _ _ _ _)
      | read keyword' => cases h; exact ⟨rfl, rfl⟩
      | _ => cases hahead
  | write keyword =>
      cases a' with
      | assign dest' sign' source' =>
          exact absurd hahead.symm (dest'.ahead_assign_ne_keyword _ _ _ _)
      | write keyword' => cases h; exact ⟨rfl, rfl⟩
      | _ => cases hahead
  | halt keyword =>
      cases a' with
      | assign dest' sign' source' =>
          exact absurd hahead.symm (dest'.ahead_assign_ne_keyword _ _ _ _)
      | halt keyword' => cases h; exact ⟨rfl, rfl⟩
      | _ => cases hahead

/-- What can follow a line: a line end or nothing. -/
def AtEnd (ts : List (Located Token)) : Prop :=
  ahead ts = none ∨ ahead ts = some .newline

theorem Action.not_atEnd
    (a : Action)
    (ts : List (Located Token)) :
    ¬ AtEnd (a.tokens ++ ts) := by
  rcases a.ahead_tokens ts with h | ⟨q, h⟩ | ⟨k, h⟩ <;> simp [AtEnd, h]

theorem Action.ahead_tokens_ne_label
    (a : Action)
    (ts : List (Located Token))
    (name : String) :
    ahead (a.tokens ++ ts) ≠ some (.label name) := by
  rcases a.ahead_tokens ts with h | ⟨q, h⟩ | ⟨k, h⟩ <;> simp [h]

theorem actionTokens_append_inj
    {as as' : List (Action × Span)}
    (h : actionTokens as ++ rest = actionTokens as' ++ rest')
    (hrest : AtEnd rest)
    (hrest' : AtEnd rest') :
    as = as' ∧ rest = rest' := by
  induction as generalizing as' with
  | nil =>
      cases as' with
      | nil => exact ⟨rfl, h⟩
      | cons p' as' =>
          obtain ⟨a', semicolon'⟩ := p'
          rw [actionTokens, actionTokens, List.append_assoc] at h
          obtain rfl : rest = _ := h
          exact absurd hrest (a'.not_atEnd _)
  | cons p as ih =>
      obtain ⟨a, semicolon⟩ := p
      cases as' with
      | nil =>
          rw [actionTokens, actionTokens, List.append_assoc] at h
          obtain rfl : _ = rest' := h
          exact absurd hrest' (a.not_atEnd _)
      | cons p' as' =>
          obtain ⟨a', semicolon'⟩ := p'
          rw [actionTokens, actionTokens, List.append_assoc, List.append_assoc] at h
          obtain ⟨rfl, hmid⟩ := Action.tokens_append_inj h (by simp) (by simp)
          obtain ⟨hmark, hmore⟩ := List.cons.inj hmid
          obtain ⟨rfl, hsame⟩ := ih hmore
          cases hmark
          exact ⟨rfl, hsame⟩

theorem ahead_actionTokens
    {as : List (Action × Span)}
    (hne : as ≠ [])
    (ts : List (Located Token)) :
    ¬ AtEnd (actionTokens as ++ ts) ∧
      ∀ name, ahead (actionTokens as ++ ts) ≠ some (.label name) := by
  cases as with
  | nil =>
      exact absurd rfl hne
  | cons p as =>
      rw [actionTokens, List.append_assoc]
      exact ⟨p.1.not_atEnd _, p.1.ahead_tokens_ne_label _⟩

theorem Line.not_atEnd
    (line : Line)
    (ts : List (Located Token)) :
    ¬ AtEnd (line.tokens ++ ts) := by
  rw [Line.tokens, List.append_assoc]
  cases line.label with
  | none => exact (ahead_actionTokens line.actions_ne_nil ts).1
  | some p => simp [labelTokens, AtEnd]

theorem Line.tokens_append_inj
    {line line' : Line}
    (h : line.tokens ++ rest = line'.tokens ++ rest')
    (hrest : AtEnd rest)
    (hrest' : AtEnd rest') :
    line = line' ∧ rest = rest' := by
  obtain ⟨label, actions, hne, hslots⟩ := line
  obtain ⟨label', actions', hne', hslots'⟩ := line'
  simp only [Line.tokens, List.append_assoc] at h
  rcases label with _ | ⟨⟨name, span⟩, colon⟩ <;>
    rcases label' with _ | ⟨⟨name', span'⟩, colon'⟩
  · obtain ⟨rfl, hsame⟩ := actionTokens_append_inj h hrest hrest'
    exact ⟨rfl, hsame⟩
  · exact absurd (congrArg ahead h) ((ahead_actionTokens hne rest).2 name')
  · exact absurd (congrArg ahead h).symm ((ahead_actionTokens hne' rest').2 name)
  · simp only [labelTokens, List.cons_append, List.nil_append, List.cons.injEq,
      Located.mk.injEq, Token.label.injEq, true_and] at h
    obtain ⟨⟨rfl, rfl⟩, rfl, hactions⟩ := h
    obtain ⟨rfl, hsame⟩ := actionTokens_append_inj hactions hrest hrest'
    exact ⟨rfl, hsame⟩

theorem newlines_append_inj
    {spans spans' : List Span}
    (h : newlines spans ++ rest = newlines spans' ++ rest')
    (hrest : ahead rest ≠ some .newline)
    (hrest' : ahead rest' ≠ some .newline) :
    spans = spans' ∧ rest = rest' := by
  induction spans generalizing spans' with
  | nil =>
      cases spans' with
      | nil => exact ⟨rfl, h⟩
      | cons s' spans' =>
          obtain rfl : rest = _ := h
          exact absurd rfl hrest
  | cons s spans ih =>
      cases spans' with
      | nil =>
          obtain rfl : _ = rest' := h
          exact absurd rfl hrest'
      | cons s' spans' =>
          obtain ⟨hmark, hmore⟩ := List.cons.inj h
          obtain ⟨rfl, hsame⟩ := ih hmore
          cases hmark
          exact ⟨rfl, hsame⟩

theorem Lines.ahead_tokens_ne_newline
    (lines : Lines) :
    ahead lines.tokens ≠ some .newline := by
  have hline : ∀ (line : Line) (ts : List (Located Token)),
      ahead (line.tokens ++ ts) ≠ some .newline :=
    fun line ts h => line.not_atEnd ts (Or.inr h)
  cases lines with
  | done =>
      simp [Lines.tokens]
  | last line =>
      simpa [Lines.tokens] using hline line []
  | ended line newline more rest =>
      rw [Lines.tokens, List.append_assoc]
      exact hline line _

/-- The tokens of lines are no end of a line unless there are no lines. -/
theorem Lines.eq_done_of_atEnd
    {lines : Lines}
    (h : AtEnd lines.tokens) :
    lines = .done := by
  cases lines with
  | done => rfl
  | last line => exact absurd h (by simpa [Lines.tokens] using line.not_atEnd [])
  | ended line newline more rest =>
      rw [Lines.tokens, List.append_assoc] at h
      exact absurd h (line.not_atEnd _)

theorem Lines.tokens_injective
    {lines lines' : Lines}
    (h : lines.tokens = lines'.tokens) :
    lines = lines' := by
  induction lines generalizing lines' with
  | done =>
      exact (Lines.eq_done_of_atEnd (h ▸ Or.inl rfl)).symm
  | last line =>
      cases lines' with
      | done =>
          exact Lines.eq_done_of_atEnd (h ▸ Or.inl rfl)
      | last line' =>
          have happ : line.tokens ++ [] = line'.tokens ++ [] := by simpa [Lines.tokens] using h
          obtain ⟨rfl, -⟩ := Line.tokens_append_inj happ (Or.inl rfl) (Or.inl rfl)
          rfl
      | ended line' newline' more' rest' =>
          have happ : line.tokens ++ [] =
              line'.tokens ++ (newlines (newline' :: more') ++ rest'.tokens) := by
            simpa [Lines.tokens] using h
          obtain ⟨-, hnil⟩ := Line.tokens_append_inj happ (Or.inl rfl) (Or.inr rfl)
          cases hnil
  | ended line newline more rest ih =>
      cases lines' with
      | done =>
          exact Lines.eq_done_of_atEnd (h ▸ Or.inl rfl)
      | last line' =>
          have happ : line.tokens ++ (newlines (newline :: more) ++ rest.tokens) =
              line'.tokens ++ [] := by
            simpa [Lines.tokens] using h
          obtain ⟨-, hnil⟩ := Line.tokens_append_inj happ (Or.inr rfl) (Or.inl rfl)
          cases hnil
      | ended line' newline' more' rest' =>
          rw [Lines.tokens, Lines.tokens, List.append_assoc, List.append_assoc] at h
          obtain ⟨rfl, hends⟩ := Line.tokens_append_inj h (Or.inr rfl) (Or.inr rfl)
          obtain ⟨hspans, hrest⟩ := newlines_append_inj hends rest.ahead_tokens_ne_newline
            rest'.ahead_tokens_ne_newline
          cases hspans
          rw [ih hrest]

/-- A list of tokens has at most one derivation. -/
theorem Derivation.tokens_injective
    {tree tree' : Derivation}
    (h : tree.tokens = tree'.tokens) :
    tree = tree' := by
  obtain ⟨lead, lines⟩ := tree
  obtain ⟨lead', lines'⟩ := tree'
  simp only [Derivation.tokens] at h
  obtain ⟨rfl, hlines⟩ := newlines_append_inj h lines.ahead_tokens_ne_newline
    lines'.ahead_tokens_ne_newline
  rw [Lines.tokens_injective hlines]

end Unambiguity

section Parts

/-- The tokens that registers and right-hand sides are made of. -/
def IsPart : Token → Prop
  | .register _ | .keyword _ | .plus | .comma | .openParen | .closeParen => True
  | _ => False

theorem Reg.isPart
    (r : Reg) :
    ∀ t ∈ r.tokens, IsPart t.value := by
  cases r <;> simp [Reg.tokens, IsPart]

theorem Sum.isPart
    (s : Sum) :
    ∀ t ∈ s.tokens, IsPart t.value := by
  cases s with
  | single r => exact r.isPart
  | plus left sign right =>
      simp only [Sum.tokens, List.forall_mem_append, List.forall_mem_cons]
      exact ⟨left.isPart, trivial, right.isPart⟩

theorem RightSide.isPart
    (s : RightSide) :
    ∀ t ∈ s.tokens, IsPart t.value := by
  cases s with
  | sum s => exact s.isPart
  | band keyword opening left comma right closing =>
      simp only [RightSide.tokens, List.forall_mem_append, List.forall_mem_cons]
      exact ⟨trivial, trivial, left.isPart, trivial, right.isPart, by simp [IsPart]⟩
  | unary op keyword opening operand closing =>
      simp only [RightSide.tokens, List.forall_mem_append, List.forall_mem_cons]
      exact ⟨trivial, trivial, operand.isPart, by simp [IsPart]⟩

/-- An action stands between the marks that end actions, labels and lines. -/
theorem Action.inside
    (a : Action) :
    ∀ t ∈ a.tokens, t.value ≠ .semicolon ∧ t.value ≠ .colon ∧ t.value ≠ .newline := by
  have hpart : ∀ t : Token, IsPart t → t ≠ .semicolon ∧ t ≠ .colon ∧ t ≠ .newline := by
    intro t ht
    cases t <;> simp [IsPart] at ht ⊢
  cases a with
  | assign dest sign source =>
      simp only [Action.tokens, List.forall_mem_append, List.forall_mem_cons]
      exact ⟨fun t ht => hpart _ (dest.isPart t ht), by simp, fun t ht => hpart _ (source.isPart t ht)⟩
  | _ => simp [Action.tokens, jumpTokens]

theorem ne_newline_of_mem_actionTokens
    (as : List (Action × Span)) :
    ∀ t ∈ actionTokens as, t.value ≠ .newline := by
  induction as with
  | nil =>
      simp [actionTokens]
  | cons a as ih =>
      obtain ⟨a, semicolon⟩ := a
      simp only [actionTokens, List.forall_mem_append, List.forall_mem_cons]
      exact ⟨fun t ht => (a.inside t ht).2.2, by simp, ih⟩

/-- No line end is a token of a line. -/
theorem Line.ne_newline
    (line : Line) :
    ∀ t ∈ line.tokens, t.value ≠ .newline := by
  rw [Line.tokens, List.forall_mem_append]
  refine ⟨?_, ne_newline_of_mem_actionTokens line.actions⟩
  cases line.label <;> simp [labelTokens]

end Parts

end Grammar
end Microcode
