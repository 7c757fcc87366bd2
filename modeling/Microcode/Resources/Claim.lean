import Microcode.Register

/-!
# Claims on the data path

In one cycle the data path has an A bus and a B bus that feed the ALU, a shifter
behind it, a C bus that stores the result, lines that load `mbr` and `mar` or
start a memory access, and a jump.  A `Claim` asks for some of them, and a
`Conflict` says why it cannot have them.
-/

namespace Microcode

/-- An operand bus. -/
inductive Bus where
  | a
  | b
deriving DecidableEq

/-- The wording of a bus. -/
def Bus.render : Bus → String
  | a => "A bus"
  | b => "B bus"

/-- An operation of the ALU. -/
inductive AluOp where
  | add
  | band
  | pass
  | invert
deriving DecidableEq

namespace AluOp

/-- The code of an operation in a control word. -/
def code : AluOp → UInt8
  | add => 0
  | band => 1
  | pass => 2
  | invert => 3

/-- The wording of an operation. -/
def render : AluOp → String
  | add => "addition"
  | band => "bitwise and"
  | pass => "pass-through"
  | invert => "inversion"

end AluOp

/-- An operation of the shifter. -/
inductive ShiftOp where
  | keep
  | right
  | left
deriving DecidableEq

namespace ShiftOp

/-- The code of an operation in a control word. -/
def code : ShiftOp → UInt8
  | keep => 0
  | right => 1
  | left => 2

/-- The wording of an operation. -/
def render : ShiftOp → String
  | keep => "no shift"
  | right => "a right shift"
  | left => "a left shift"

end ShiftOp

/-- When a jump is taken. -/
inductive Jump where
  | negative
  | zero
  | always
deriving DecidableEq

/-- The code of a jump in a control word; zero stands for no jump. -/
def Jump.code : Jump → UInt8
  | negative => 1
  | zero => 2
  | always => 3

/-- Something that a sub-instruction asks of the cycle. -/
inductive Claim where
  | routeA (r : Register)
  | routeB (r : Register)
  | add (left right : Register)
  | alu (op : AluOp)
  | shifter (op : ShiftOp)
  | output (dest : Register)
  | loadMar (r : Register)
  | read
  | write
  | branch (jump : Jump) (address : UInt8)
deriving DecidableEq

/-- Why a claim is refused. -/
inductive Conflict where
  | readWrite
  | immutable (r : Register)
  | unreadable (r : Register)
  | outputTaken (wanted taken : Register)
  | bus (line : Bus) (wanted taken : Register)
  | alu (wanted taken : AluOp)
  | shifter (wanted taken : ShiftOp)
  | jumpDefined
  | mbrOnBBus
  | marSource
deriving DecidableEq

/-- The wording of a conflict. -/
def Conflict.message : Conflict → String
  | readWrite => "Memory read and write in the same cycle"
  | immutable r => "Register `" ++ r.name ++ "` is read-only"
  | unreadable r => "Register `" ++ r.name ++ "` cannot be read"
  | outputTaken wanted taken =>
      "Output path already writes `" ++ taken.name ++ "`, cannot also write `" ++
        wanted.name ++ "`"
  | bus line wanted taken =>
      line.render ++ " already carries `" ++ taken.name ++ "`, cannot also carry `" ++
        wanted.name ++ "`"
  | alu wanted taken =>
      "ALU already performs " ++ taken.render ++ ", cannot also perform " ++ wanted.render
  | shifter wanted taken =>
      "Shifter already performs " ++ taken.render ++ ", cannot also perform " ++ wanted.render
  | jumpDefined => "Jump condition already defined for this instruction"
  | mbrOnBBus =>
      "`mbr` reaches the ALU through the A multiplexer only, never through the B bus"
  | marSource => "`mar` can only be loaded from a plain register"

end Microcode
