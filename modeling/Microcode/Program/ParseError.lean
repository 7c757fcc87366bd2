import Microcode.Program

/-!
# Why a list of tokens is not a program

A token is wrong or missing, the tokens end too early, or a rule on the shape of
instructions is broken: too many slots, a label in the middle of a line, or a
wrong number of operands.
-/

namespace Microcode

/-- An operation whose operands stand in parentheses. -/
inductive ParamOp where
  | band
  | unary (op : UnaryOp)
deriving DecidableEq

namespace ParamOp

/-- The keyword of an operation. -/
def keyword : ParamOp → Keyword
  | band => .band
  | unary .leftShift => .lshift
  | unary .rightShift => .rshift
  | unary .invert => .inv

/-- The number of operands; an addition counts as one. -/
def arity : ParamOp → Nat
  | band => 2
  | unary _ => 1

/-- The operation of a keyword. -/
def ofKeyword? : Keyword → Option ParamOp
  | .band => some band
  | .lshift => some (unary .leftShift)
  | .rshift => some (unary .rightShift)
  | .inv => some (unary .invert)
  | _ => none

theorem ofKeyword?_keyword
    (op : ParamOp) :
    ofKeyword? op.keyword = some op := by
  rcases op with _ | op
  · rfl
  · cases op <;> rfl

end ParamOp

/-- What should have come next. -/
inductive Expected where
  | token (t : Token)
  | register
  | label
  | subinstruction
  | source
  | condition
deriving DecidableEq

/-- The wording of what should have come next. -/
def Expected.render : Expected → String
  | token t => t.render
  | register => "a register"
  | label => "a label"
  | subinstruction => "a sub-instruction"
  | source => "a register or a parameterized operation"
  | condition => "a jump condition (`z` or `n`)"

/-- A broken rule on the shape of instructions. -/
inductive StructuralError where
  | tooManySubinstructions
  | misplacedLabel (name : String)
  | arity (op : ParamOp)
deriving DecidableEq

/-- The wording of a broken rule. -/
def StructuralError.message : StructuralError → String
  | tooManySubinstructions =>
      "An instruction holds at most " ++ Instruction.slots.repr ++
        " sub-instructions, label included"
  | misplacedLabel name =>
      "Label `" ++ name ++ "` may only be defined at the start of an instruction"
  | arity op =>
      "`" ++ op.keyword.name ++ "` takes exactly " ++ op.arity.repr ++ " operand(s)"

/-- Why a list of tokens is not a program. -/
inductive ParseError where
  | unexpected (expected : Expected) (found : Token)
  | missing (expected : Expected)
  | unexpectedEnd
  | structural (error : StructuralError)
deriving DecidableEq

namespace ParseError

/-- The wording of a failed parse. -/
def message : ParseError → String
  | unexpected expected found =>
      "Expected " ++ expected.render ++ ", found " ++ found.render ++ " instead"
  | missing expected => "Expected " ++ expected.render ++ ", none was found instead"
  | unexpectedEnd => "Abrupt end of program"
  | structural error => error.message

/-- Whether a rule on the shape of instructions is broken. -/
def isStructural : ParseError → Bool
  | structural _ => true
  | _ => false

end ParseError
end Microcode
