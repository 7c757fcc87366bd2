import Microcode.Program.ParseError

/-!
# Rules for the parts of a program

A `Rule` takes tokens from the front of a list and yields a value, or fails; it
never leaves more tokens than it was given.  A `Parser` is a rule that fails with
a located error.  The rules follow the grammar by recursive descent.  Most of
them decide by the token that comes next.  Where a part may be missing, a rule is
tried: if it fails weakly, nothing has been taken and the part is missing; if it
fails strictly, so does the whole.  A rule for an instruction reads one line, up
to its last `;`, and never fills more than six slots.

An error is located at the token that is wrong; if a token is missing, at the
last one taken.

**Results.**
* `addend_eq` and `definition_eq`: the two parts that may be missing are missing
  exactly if the next token does not start them, so to try a rule is to look at
  the next token.
-/

namespace Microcode

/-- The tokens still to be read, and the span of the last one taken. -/
structure Cursor where
  rest : List (Located Token)
  last : Span

/-- A rule that takes tokens from the front and yields a value, or fails. -/
@[ext] structure Rule (ε α : Type) where
  run : Cursor → Except ε (α × Cursor)
  forward : ∀ {c a c'}, run c = .ok (a, c') → c'.rest.length ≤ c.rest.length

/-- A rule that fails with a located error. -/
abbrev Parser := Rule (Located ParseError)

namespace Rule

variable {ε ε' α β : Type}

instance : CoeFun (Rule ε α) fun _ => Cursor → Except ε (α × Cursor) :=
  ⟨run⟩

/-- Yields a value without taking a token. -/
protected def pure (a : α) : Rule ε α where
  run c := .ok (a, c)
  forward h := by
    cases h
    exact Nat.le_refl _

/-- A rule, and then another that depends on its value. -/
protected def bind (p : Rule ε α) (f : α → Rule ε β) : Rule ε β where
  run c :=
    match p c with
    | .error error => .error error
    | .ok (a, c') => f a c'
  forward h := by
    split at h
    · cases h
    · next hp => exact Nat.le_trans ((f _).forward h) (p.forward hp)

instance : Monad (Rule ε) where
  pure := Rule.pure
  bind := Rule.bind

@[simp] theorem pure_apply
    (a : α)
    (c : Cursor) :
    (pure a : Rule ε α) c = .ok (a, c) := by
  rfl

theorem bind_apply
    (p : Rule ε α)
    (f : α → Rule ε β)
    (c : Cursor) :
    (p >>= f) c =
      match p c with
      | .error error => .error error
      | .ok (a, c') => f a c' := by
  rfl

/-- The same rule with other errors. -/
def mapError (f : ε → ε') (p : Rule ε α) : Rule ε' α where
  run c := (p c).mapError f
  forward {c a c'} h := by
    cases hp : p c with
    | error error =>
        rw [hp] at h
        cases h
    | ok result =>
        rw [hp] at h
        cases h
        exact p.forward hp

theorem mapError_apply
    (f : ε → ε')
    (p : Rule ε α)
    (c : Cursor) :
    p.mapError f c = (p c).mapError f := by
  rfl

end Rule

namespace Parser

export Rule (pure_apply bind_apply)

variable {α β : Type} {c : Cursor}

/-- Fails at the last token taken. -/
def fail (error : ParseError) : Parser α where
  run c := .error ⟨error, c.last⟩
  forward h := by cases h

/-- The span of the last token taken. -/
def last : Parser Span where
  run c := .ok (c.last, c)
  forward h := by
    cases h
    exact Nat.le_refl _

/-- The next token, which is not taken, if there is one. -/
def peek : Parser (Option Token) where
  run c := .ok (c.rest.head?.map Located.value, c)
  forward h := by
    cases h
    exact Nat.le_refl _

/-- Takes the next token. -/
def next : Parser (Located Token) where
  run c :=
    match c.rest with
    | [] => .error ⟨.unexpectedEnd, c.last⟩
    | t :: ts => .ok (t, ⟨ts, t.span⟩)
  forward h := by
    split at h
    · cases h
    · next hrest =>
        cases h
        simp [hrest]

theorem next_nil
    (h : c.rest = []) :
    next c = .error ⟨.unexpectedEnd, c.last⟩ := by
  simp only [next, h]

theorem next_cons
    {t : Located Token}
    {ts : List (Located Token)}
    (h : c.rest = t :: ts) :
    next c = .ok (t, ⟨ts, t.span⟩) := by
  simp only [next, h]

/-- The next token, which is not taken and must exist. -/
def upcoming (expected : Expected) : Parser (Located Token) where
  run c :=
    match c.rest with
    | [] => .error ⟨.missing expected, c.last⟩
    | t :: _ => .ok (t, c)
  forward h := by
    split at h
    · cases h
    · cases h
      exact Nat.le_refl _

theorem upcoming_nil
    {expected : Expected}
    (h : c.rest = []) :
    upcoming expected c = .error ⟨.missing expected, c.last⟩ := by
  simp only [upcoming, h]

theorem upcoming_cons
    {expected : Expected}
    {t : Located Token}
    {ts : List (Located Token)}
    (h : c.rest = t :: ts) :
    upcoming expected c = .ok (t, c) := by
  simp only [upcoming, h]

/-- Takes the given token. -/
def expect (token : Token) : Parser Unit where
  run c :=
    match c.rest with
    | [] => .error ⟨.missing (.token token), c.last⟩
    | t :: ts =>
        if t.value = token then .ok ((), ⟨ts, t.span⟩)
        else .error ⟨.unexpected (.token token) t.value, t.span⟩
  forward h := by
    split at h
    · cases h
    · next hrest =>
        split at h
        · cases h
          simp [hrest]
        · cases h

theorem expect_nil
    {token : Token}
    (h : c.rest = []) :
    expect token c = .error ⟨.missing (.token token), c.last⟩ := by
  simp only [expect, h]

theorem expect_cons
    {token : Token}
    {t : Located Token}
    {ts : List (Located Token)}
    (h : c.rest = t :: ts) :
    expect token c =
      if t.value = token then .ok ((), ⟨ts, t.span⟩)
      else .error ⟨.unexpected (.token token) t.value, t.span⟩ := by
  simp only [expect, h]

section Attempts

/-- How a rule has failed: weakly, so that it can be passed over, or strictly. -/
inductive Failure where
  | weak (error : Located ParseError)
  | strict (error : Located ParseError)

/-- A rule that is tried. -/
abbrev Attempt := Rule Failure

/-- A rule whose every failure is weak. -/
def weakly (p : Parser α) : Attempt α :=
  p.mapError .weak

/-- A rule whose every failure is strict. -/
def strictly (p : Parser α) : Attempt α :=
  p.mapError .strict

/-- Tries a rule on the tokens ahead.  If it fails weakly, the cursor stays where it was. -/
def optional (rule : Attempt α) : Parser (Option α) where
  run c :=
    match rule c with
    | .ok (a, c') => .ok (some a, c')
    | .error (.weak _) => .ok (none, c)
    | .error (.strict error) => .error error
  forward h := by
    split at h
    · next hrule =>
        cases h
        exact rule.forward hrule
    · cases h
      exact Nat.le_refl _
    · cases h

variable {rule : Attempt α} {a : α} {c' : Cursor} {error : Located ParseError}

theorem optional_of_ok
    (h : rule c = .ok (a, c')) :
    optional rule c = .ok (some a, c') := by
  simp only [optional, h]

theorem optional_of_weak
    (h : rule c = .error (.weak error)) :
    optional rule c = .ok (none, c) := by
  simp only [optional, h]

theorem optional_of_strict
    (h : rule c = .error (.strict error)) :
    optional rule c = .error error := by
  simp only [optional, h]

end Attempts

/-- Takes the next token and refuses it. -/
def refuse (error : Token → ParseError) : Parser α := do
  let t ← next
  fail (error t.value)

/-- Adds to a rule the span from the next token to the last one it takes. -/
def spanning (expected : Expected) (rule : Token → Parser α) : Parser (Located α) := do
  let start ← upcoming expected
  let value ← rule start.value
  let stop ← last
  pure ⟨value, start.span.through stop⟩

/-- A register that stands by itself. -/
def bareRegister : Parser (Located Register) := do
  let t ← next
  match t.value with
  | .register r => pure ⟨r, t.span⟩
  | found => fail (.unexpected .register found)

/-- A register, possibly in one pair of parentheses. -/
def register : Parser (Located Register) := do
  match ← peek with
  | some .openParen =>
      let _ ← next
      let r ← bareRegister
      expect .closeParen
      pure r
  | _ => bareRegister

/-- A label. -/
def label : Parser (Located String) := do
  let t ← next
  match t.value with
  | .label name => pure ⟨name, t.span⟩
  | found => fail (.unexpected .label found)

/-- The second register of an addition, if there is a `+`. -/
def addend : Parser (Option (Located Register)) := do
  match ← optional (weakly (expect .plus)) with
  | some () =>
      let r ← register
      pure (some r)
  | none => pure none

/-- The second operand of `band`. -/
def secondOperand : Parser (Located Register) := do
  match ← peek with
  | some .closeParen => refuse (fun _ => .structural (.arity .band))
  | _ =>
      expect .comma
      register

/-- The operands of an operation up to the closing parenthesis. -/
def operands (op : ParamOp) : Parser Expr := do
  let left ← register
  match op with
  | .band =>
      let right ← secondOperand
      pure (.band left right)
  | .unary op =>
      match ← addend with
      | some right => pure (.unary op (.add left right))
      | none => pure (.unary op (.read left))

/-- The rest of an operation after its keyword. -/
def parameterized (op : ParamOp) : Parser Expr := do
  expect .openParen
  let expr ← operands op
  match ← peek with
  | some .comma => refuse (fun _ => .structural (.arity op))
  | _ =>
      expect .closeParen
      pure expr

/-- A register or an addition. -/
def sum : Parser Expr := do
  let left ← register
  match ← addend with
  | some right => pure (.add left right)
  | none => pure (.read left)

/-- The right-hand side of an assignment. -/
def source : Parser (Located Expr) :=
  spanning .source fun
    | .keyword k =>
        match ParamOp.ofKeyword? k with
        | some op => do
            let _ ← next
            parameterized op
        | none => refuse (.unexpected .source)
    | .register _ => sum
    | .openParen => sum
    | _ => refuse (.unexpected .source)

/-- An assignment. -/
def assignment : Parser Subinstruction := do
  let dest ← register
  expect .assign
  let expr ← source
  pure (.assign dest expr)

/-- The target of a jump, after `goto`. -/
def target : Parser (Located String) := do
  expect (.keyword .goto)
  label

/-- The condition of a jump. -/
def condition : Parser Condition := do
  let t ← next
  match t.value with
  | .keyword .negative => pure .negative
  | .keyword .zero => pure .zero
  | found => fail (.unexpected .condition found)

/-- A conditional jump. -/
def conditional : Parser Subinstruction := do
  expect (.keyword .ifWord)
  let wanted ← condition
  expect (.keyword .thenWord)
  let name ← target
  pure (.branch wanted name)

/-- Takes the next token, which stands for a whole sub-instruction. -/
def single (sub : Subinstruction) : Parser Subinstruction := do
  let _ ← next
  pure sub

/-- A sub-instruction without its `;`. -/
def subinstruction : Parser (Located Subinstruction) :=
  spanning .subinstruction fun
    | .register _ => assignment
    | .openParen => assignment
    | .keyword .goto => do
        let name ← target
        pure (.goto name)
    | .keyword .ifWord => conditional
    | .keyword .rd => single .read
    | .keyword .wr => single .write
    | .keyword .halt => single .halt
    | .label name => refuse (fun _ => .structural (.misplacedLabel name))
    | _ => refuse (.unexpected .subinstruction)

/-- The sub-instructions of a line, each with its `;`, as long as slots are free. -/
def subinstructions : Nat → Parser (List (Located Subinstruction))
  | 0 => refuse (fun _ => .structural .tooManySubinstructions)
  | free + 1 => do
      let sub ← subinstruction
      expect .semicolon
      match ← peek with
      | none => pure [sub]
      | some .newline => pure [sub]
      | some _ =>
          let subs ← subinstructions free
          pure (sub :: subs)

/-- The definition of a label.  A label without `:` behind it is a strict failure. -/
def labelDefinition : Attempt (Located String) := do
  let name ← weakly label
  strictly (expect .colon)
  pure name

/-- The label that an instruction defines, if it starts with one. -/
def definition : Parser (Option (Located String)) :=
  optional labelDefinition

/-- An instruction, which gets the given address. -/
def instruction (address : Nat) : Parser Instruction := do
  let name ← definition
  let free := if name.isSome then Instruction.slots - 1 else Instruction.slots
  let subs ← subinstructions free
  pure ⟨name, address, subs⟩

section Lookahead

theorem peek_bind_head
    (f : Option Token → Parser α)
    (c : Cursor) :
    (peek >>= f) c = f (c.rest.head?.map Located.value) c := by
  rfl

/-- A token that does not come next is passed over. -/
theorem optional_expect_of_ne
    {token : Token}
    (h : c.rest.head?.map Located.value ≠ some token) :
    optional (weakly (expect token)) c = .ok (none, c) := by
  cases hrest : c.rest with
  | nil =>
      have hweak : weakly (expect token) c =
          .error (.weak ⟨.missing (.token token), c.last⟩) := by
        rw [weakly, Rule.mapError_apply, expect_nil hrest]
        rfl
      exact optional_of_weak hweak
  | cons t ts =>
      have ht : t.value ≠ token := by simpa [hrest] using h
      have hweak : weakly (expect token) c =
          .error (.weak ⟨.unexpected (.token token) t.value, t.span⟩) := by
        rw [weakly, Rule.mapError_apply, expect_cons hrest, if_neg ht]
        rfl
      exact optional_of_weak hweak

/-- A token that comes next is taken. -/
theorem optional_expect_of_eq
    {token : Token}
    (h : c.rest.head?.map Located.value = some token) :
    optional (weakly (expect token)) c = (next >>= fun _ => pure (some ())) c := by
  cases hrest : c.rest with
  | nil =>
      rw [hrest] at h
      cases h
  | cons t ts =>
      have ht : t.value = token := by simpa [hrest] using h
      rw [bind_apply, next_cons hrest]
      refine optional_of_ok ?_
      rw [weakly, Rule.mapError_apply, expect_cons hrest, if_pos ht]
      rfl

/-- A second register is read exactly if a `+` comes next. -/
theorem addend_eq :
    addend = (do
      match ← peek with
      | some .plus =>
          let _ ← next
          let r ← register
          pure (some r)
      | _ => pure none) := by
  refine Rule.ext (funext fun c => ?_)
  rw [addend, peek_bind_head]
  split
  · next hplus =>
      rw [bind_apply, optional_expect_of_eq hplus, bind_apply, bind_apply]
      cases next c <;> rfl
  · next hplus =>
      rw [bind_apply, optional_expect_of_ne hplus]

/-- Without a label in front, the rule for a label fails. -/
theorem exists_label_error
    (h : ∀ name, c.rest.head?.map Located.value ≠ some (.label name)) :
    ∃ error, label c = .error error := by
  cases hrest : c.rest with
  | nil => exact ⟨_, by rw [label, bind_apply, next_nil hrest]⟩
  | cons t ts =>
      rw [label, bind_apply, next_cons hrest]
      cases hvalue : t.value with
      | label name => exact absurd (by rw [hrest, ← hvalue]; rfl) (h name)
      | _ => exact ⟨_, by simp only [hvalue]; rfl⟩

/-- With a label in front, the rule for a label succeeds. -/
theorem exists_label_ok
    {name : String}
    (h : c.rest.head?.map Located.value = some (.label name)) :
    ∃ found c', label c = .ok (found, c') := by
  cases hrest : c.rest with
  | nil =>
      rw [hrest] at h
      cases h
  | cons t ts =>
      have hvalue : t.value = .label name := by simpa [hrest] using h
      exact ⟨⟨name, t.span⟩, ⟨ts, t.span⟩, by
        rw [label, bind_apply, next_cons hrest]
        simp only [hvalue]
        rfl⟩

/-- A label is read exactly if a label comes next. -/
theorem definition_eq :
    definition = (do
      match ← peek with
      | some (.label _) =>
          let name ← label
          expect .colon
          pure (some name)
      | _ => pure none) := by
  refine Rule.ext (funext fun c => ?_)
  rw [definition, peek_bind_head]
  split
  · next hlabel =>
      obtain ⟨name, c', hname⟩ := exists_label_ok hlabel
      have hattempt : labelDefinition c = (strictly (expect .colon) >>= fun _ => pure name) c' := by
        rw [labelDefinition, bind_apply, weakly, Rule.mapError_apply, hname]
        rfl
      rw [bind_apply, hname]
      simp only [bind_apply]
      cases hcolon : expect .colon c' with
      | error error =>
          refine optional_of_strict ?_
          rw [hattempt, bind_apply, strictly, Rule.mapError_apply, hcolon]
          rfl
      | ok result =>
          refine optional_of_ok ?_
          rw [hattempt, bind_apply, strictly, Rule.mapError_apply, hcolon]
          rfl
  · next hlabel =>
      obtain ⟨error, herror⟩ := exists_label_error hlabel
      have hweak : labelDefinition c = .error (.weak error) := by
        rw [labelDefinition, bind_apply, weakly, Rule.mapError_apply, herror]
        rfl
      exact optional_of_weak hweak

end Lookahead

/-- Takes all line ends in front. -/
def skipNewlines (c : Cursor) : Cursor :=
  go c.rest c.last
where
  /-- Takes all line ends at the front of some tokens. -/
  go : List (Located Token) → Span → Cursor
    | [], last => ⟨[], last⟩
    | t :: ts, last => if t.value = .newline then go ts t.span else ⟨t :: ts, last⟩

end Parser
end Microcode
