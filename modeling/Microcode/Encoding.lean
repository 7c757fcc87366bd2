import Microcode.Label
import Microcode.Resources

/-!
# From instructions to control words

Every sub-instruction stands for a list of claims.  An instruction starts with
a fresh cycle and makes the claims of its sub-instructions from left to right;
the word is what the cycle packs to.  A `halt` gives the halting word at once,
whatever stands after it.

An assignment claims only the units that it needs: a plain read passes the ALU
unshifted, a shift of a single register leaves the ALU free, and all other
operations leave the shifter free.  `mar` is loaded from the B bus and from a
plain register only.

A conflict is located at its sub-instruction, except that a read-only
destination is located at the register itself.

A `Defect` is not the fault of the program: it tells that the label table lacks
a target or that a field does not fit.
-/

namespace Microcode

/-- An encoding that went wrong through no fault of the program. -/
inductive Defect where
  | badTarget
  | overflow (o : Overflow)
deriving DecidableEq

/-- The wording of a defect. -/
def Defect.message : Defect → String
  | badTarget => "label resolution let through a bad target"
  | overflow o => o.message

/-- Why an instruction has no control word. -/
inductive Fault where
  | conflict (error : Located Conflict)
  | defect (cause : Defect)
deriving DecidableEq

/-- The claims of the operand of an operation in parentheses. -/
def Operand.claims : Operand → List Claim
  | read r => [.routeA r.value]
  | add left right => [.add left.value right.value, .alu .add]

/-- The claim of an operation in parentheses. -/
def UnaryOp.claim : UnaryOp → Claim
  | leftShift => .shifter .left
  | rightShift => .shifter .right
  | invert => .alu .invert

/-- The claims of a right-hand side. -/
def Expr.claims : Expr → List Claim
  | read r => [.routeA r.value, .alu .pass, .shifter .keep]
  | add left right => [.add left.value right.value, .alu .add]
  | band left right => [.routeA left.value, .routeB right.value, .alu .band]
  | unary op operand => operand.claims ++ [op.claim]

/-- The claims of an assignment. -/
def assignmentClaims (dest : Register) (source : Expr) : Except Conflict (List Claim) :=
  if dest = .mar then
    match source with
    | .read r => .ok [.loadMar r.value]
    | _ => .error .marSource
  else .ok (source.claims ++ [.output dest])

/-- When a conditional jump is taken. -/
def Condition.jump : Condition → Jump
  | negative => .negative
  | zero => .zero

/-- What a sub-instruction asks for: to stop, or some claims. -/
inductive Demand where
  | stop
  | claims (list : List Claim)
deriving DecidableEq

/-- The claim of a jump to a label. -/
def jumpDemand (labels : LabelTable) (jump : Jump) (target : String) : Except Fault Demand :=
  match labels.target? target with
  | some address => .ok (.claims [.branch jump address])
  | none => .error (.defect .badTarget)

/-- What a sub-instruction asks for. -/
def Subinstruction.demand (labels : LabelTable) (sub : Located Subinstruction) :
    Except Fault Demand :=
  match sub.value with
  | .halt => .ok .stop
  | .read => .ok (.claims [.read])
  | .write => .ok (.claims [.write])
  | .goto target => jumpDemand labels .always target.value
  | .branch condition target => jumpDemand labels condition.jump target.value
  | .assign dest source =>
      if !dest.value.isMutable then .error (.conflict ⟨.immutable dest.value, dest.span⟩)
      else
        match assignmentClaims dest.value source.value with
        | .ok claims => .ok (.claims claims)
        | .error conflict => .error (.conflict ⟨conflict, sub.span⟩)

/-- The word of a cycle. -/
def Resources.word (s : Resources) : Except Fault ControlWord :=
  match s.pack with
  | .ok word => .ok word
  | .error o => .error (.defect (.overflow o))

/-- The word of some sub-instructions that share a cycle with earlier claims. -/
def encodeFrom (labels : LabelTable) (s : Resources) :
    List (Located Subinstruction) → Except Fault ControlWord
  | [] => s.word
  | sub :: subs =>
      match Subinstruction.demand labels sub with
      | .error fault => .error fault
      | .ok .stop => .ok .halt
      | .ok (.claims claims) =>
          match s.claimAll claims with
          | .ok s' => encodeFrom labels s' subs
          | .error conflict => .error (.conflict ⟨conflict, sub.span⟩)

/-- The word of an instruction. -/
def Instruction.encode (labels : LabelTable) (i : Instruction) : Except Fault ControlWord :=
  encodeFrom labels .fresh i.subs

/-- The words of some instructions, or the first fault. -/
def encodeAll (labels : LabelTable) : List Instruction → Except Fault (List ControlWord)
  | [] => .ok []
  | i :: is =>
      match i.encode labels with
      | .error fault => .error fault
      | .ok word =>
          match encodeAll labels is with
          | .error fault => .error fault
          | .ok words => .ok (word :: words)

/-- Every instruction has one word. -/
theorem length_of_encodeAll
    {labels : LabelTable}
    {is : List Instruction}
    {words : List ControlWord}
    (h : encodeAll labels is = .ok words) :
    words.length = is.length := by
  induction is generalizing words with
  | nil =>
      cases h
      rfl
  | cons i is ih =>
      unfold encodeAll at h
      split at h
      · simp at h
      · split at h
        · simp at h
        · next rest hrest =>
            cases h
            simp [ih hrest]

/-- The words of a program, in the order of the addresses. -/
def Program.emit (p : Program) (labels : LabelTable) : Except Fault (List ControlWord) :=
  encodeAll labels p.instructions

end Microcode
