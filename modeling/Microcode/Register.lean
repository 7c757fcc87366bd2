/-!
# Registers

The machine has nineteen named registers.  The first sixteen travel on the
buses, and their number is what the bus fields of a control word hold.  The
last three have lines of their own: `mar` is loaded from the B bus, `mbr` is
read through the multiplexer in front of the A input, and `alu` names the
result that is stored nowhere.

The five constant registers cannot be written; `mar` and `alu` cannot be read.
-/

namespace Microcode

/-- A register, in the order of the register numbers. -/
inductive Register where
  | pc
  | ac
  | sp
  | ir
  | tir
  | zero
  | one
  | minusOne
  | amask
  | smask
  | a
  | b
  | c
  | d
  | e
  | f
  | mar
  | mbr
  | alu
deriving DecidableEq

namespace Register

/-- All registers in the order of their numbers. -/
def all : List Register :=
  [pc, ac, sp, ir, tir, zero, one, minusOne, amask, smask, a, b, c, d, e, f, mar, mbr, alu]

/-- The number of a register. -/
def index : Register → Nat
  | pc => 0
  | ac => 1
  | sp => 2
  | ir => 3
  | tir => 4
  | zero => 5
  | one => 6
  | minusOne => 7
  | amask => 8
  | smask => 9
  | a => 10
  | b => 11
  | c => 12
  | d => 13
  | e => 14
  | f => 15
  | mar => 16
  | mbr => 17
  | alu => 18

/-- The name of a register in a microprogram. -/
def name : Register → String
  | pc => "pc"
  | ac => "ac"
  | sp => "sp"
  | ir => "ir"
  | tir => "tir"
  | zero => "0"
  | one => "1"
  | minusOne => "-1"
  | amask => "amask"
  | smask => "smask"
  | a => "a"
  | b => "b"
  | c => "c"
  | d => "d"
  | e => "e"
  | f => "f"
  | mar => "mar"
  | mbr => "mbr"
  | alu => "alu"

/-- Whether a register may be assigned to. -/
def isMutable : Register → Bool
  | zero | one | minusOne | amask | smask => false
  | _ => true

/-- Whether a register may be an operand. -/
def isReadable : Register → Bool
  | mar | alu => false
  | _ => true

/-- The register of a name. -/
def ofName? (name : String) : Option Register :=
  all.find? (fun r => r.name == name)

theorem mem_all
    (r : Register) :
    r ∈ all := by
  cases r <;> decide

/-- Registers have different numbers. -/
theorem index_injective
    {r s : Register}
    (h : r.index = s.index) :
    r = s := by
  revert h
  cases r <;> cases s <;> decide

/-- The name of a register finds that register. -/
@[simp] theorem ofName?_name
    (r : Register) :
    ofName? r.name = some r := by
  cases r <;> decide

/-- Registers have different names. -/
theorem name_injective
    {r s : Register}
    (h : r.name = s.name) :
    r = s := by
  have found := ofName?_name r
  rw [h, ofName?_name] at found
  exact (Option.some.inj found).symm

/-- A name that finds a register is the name of that register. -/
theorem name_of_ofName?
    {text : String}
    {r : Register}
    (h : ofName? text = some r) :
    r.name = text := by
  simpa using List.find?_some h

end Register
end Microcode
