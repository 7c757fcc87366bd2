import Microcode.Source
import Microcode.Token

/-!
# Microprograms

A program is a list of instructions, one for each line that is not empty.  An
instruction may define a label and holds one or more sub-instructions, which
the machine performs in the same cycle.  Its address is its number in the
program.

Registers, labels, right-hand sides and sub-instructions keep the span they
were read from.
-/

namespace Microcode

/-- The result that a conditional jump waits for. -/
inductive Condition where
  | negative
  | zero
deriving DecidableEq

/-- An operation with one operand in parentheses. -/
inductive UnaryOp where
  | leftShift
  | rightShift
  | invert
deriving DecidableEq

/-- The operand of an operation in parentheses. -/
inductive Operand where
  | read (r : Located Register)
  | add (left right : Located Register)
deriving DecidableEq

/-- The right-hand side of an assignment. -/
inductive Expr where
  | read (r : Located Register)
  | add (left right : Located Register)
  | band (left right : Located Register)
  | unary (op : UnaryOp) (operand : Operand)
deriving DecidableEq

/-- One of the actions of a cycle. -/
inductive Subinstruction where
  | assign (dest : Located Register) (source : Located Expr)
  | goto (target : Located String)
  | branch (condition : Condition) (target : Located String)
  | read
  | write
  | halt
deriving DecidableEq

/-- The label that a sub-instruction jumps to. -/
def Subinstruction.target? : Subinstruction → Option (Located String)
  | goto target => some target
  | branch _ target => some target
  | _ => none

/-- A labelled or unlabelled line of sub-instructions. -/
structure Instruction where
  label : Option (Located String)
  address : Nat
  subs : List (Located Subinstruction)
deriving DecidableEq

/-- A microprogram. -/
structure Program where
  instructions : List Instruction
deriving DecidableEq

/-- The number of slots of an instruction; its label takes one. -/
def Instruction.slots : Nat :=
  6

end Microcode
