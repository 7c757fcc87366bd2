import Microcode.Program

/-!
# Labels and addresses

`Program.resolve` ties every label of a program to the address of its
instruction and checks every jump.

* A label that is defined again is an error at the later definition, which
  cites the first; the first definition counts.
* A jump to an address that does not fit in eight bits is an error, once for
  each jump.
* All targets without a definition make up one error, located at the first of
  them.

All errors are reported together, in this order.
-/

namespace Microcode

/-- The number of addresses that a jump can name. -/
def addressSpace : Nat :=
  256

/-- What is wrong with the labels of a program. -/
inductive LabelError where
  | duplicate (name : String) (first : Span)
  | undefined (names : List String)
  | outOfRange (name : String) (address : Nat)
deriving DecidableEq

/-- The wording of a label error in a source of the given name. -/
def LabelError.message (source : String) : LabelError → String
  | duplicate name first => "Label `" ++ name ++ "` is already defined at " ++ first.render source
  | undefined names =>
      "Undefined label(s): " ++ ", ".intercalate (names.map fun name => "`" ++ name ++ "`")
  | outOfRange name address =>
      "Label `" ++ name ++ "` resolves to address " ++ address.repr ++
        ", which does not fit in 8 bits"

/-- The labels of a program with their addresses, in the order of the addresses. -/
structure LabelTable where
  entries : List (String × Nat)
deriving DecidableEq

namespace LabelTable

/-- The address of a label. -/
def address? (t : LabelTable) (name : String) : Option Nat :=
  t.entries.lookup name

/-- The address of a label as a jump holds it, if it fits. -/
def target? (t : LabelTable) (name : String) : Option UInt8 :=
  match t.address? name with
  | some address => if address < addressSpace then some (UInt8.ofNat address) else none
  | none => none

end LabelTable

/-- A label at the start of an instruction. -/
structure Definition where
  label : Located String
  address : Nat
deriving DecidableEq

namespace Definition

/-- Keeps the first definition of each name and reports the others, given the
definitions already known. -/
def sort (known : List Definition) :
    List Definition → List Definition × List (Located LabelError)
  | [] => ([], [])
  | d :: ds =>
      match known.find? (fun k => k.label.value == d.label.value) with
      | some first =>
          let (firsts, errors) := sort known ds
          (firsts, ⟨.duplicate d.label.value first.label.span, d.label.span⟩ :: errors)
      | none =>
          let (firsts, errors) := sort (d :: known) ds
          (d :: firsts, errors)

end Definition

namespace Program

/-- The labels that a program defines. -/
def definitions (p : Program) : List Definition :=
  p.instructions.filterMap fun i => i.label.map fun name => ⟨name, i.address⟩

/-- The labels that a program jumps to. -/
def targets (p : Program) : List (Located String) :=
  p.instructions.flatMap fun i => i.subs.filterMap fun sub => sub.value.target?

/-- The label table of the first definitions. -/
def labelTable (p : Program) : LabelTable :=
  ⟨(Definition.sort [] p.definitions).1.map fun d => (d.label.value, d.address)⟩

/-- One error for each definition of a name that is already taken. -/
def duplicateErrors (p : Program) : List (Located LabelError) :=
  (Definition.sort [] p.definitions).2

/-- One error for each jump to an address that does not fit. -/
def rangeErrors (p : Program) : List (Located LabelError) :=
  let table := p.labelTable
  p.targets.filterMap fun target =>
    match table.address? target.value with
    | some address =>
        if addressSpace ≤ address then some ⟨.outOfRange target.value address, target.span⟩
        else none
    | none => none

/-- The jumps to names without a definition. -/
def missingTargets (p : Program) : List (Located String) :=
  let table := p.labelTable
  p.targets.filter fun target => (table.address? target.value).isNone

/-- One error for all names without a definition, each named once. -/
def undefinedErrors (p : Program) : List (Located LabelError) :=
  match p.missingTargets with
  | [] => []
  | first :: others =>
      [⟨.undefined ((first :: others).map Located.value).eraseDups, first.span⟩]

/-- The label table of a program, or everything that is wrong with its labels. -/
def resolve (p : Program) : Except (List (Located LabelError)) LabelTable :=
  match p.duplicateErrors ++ p.rangeErrors ++ p.undefinedErrors with
  | [] => .ok p.labelTable
  | errors => .error errors

end Program
end Microcode
