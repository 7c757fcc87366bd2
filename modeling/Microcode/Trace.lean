import Microcode.Assembly

/-!
# Following an assembly

The events of an assembly in the order in which they happen: the sizes after
each stage, each addition whose registers were exchanged, and each word.  If
the assembly fails, the events before the failure remain.
-/

namespace Microcode

/-- Something that happens during an assembly. -/
inductive Event where
  | lexed (tokens : Nat)
  | parsed (instructions : Nat)
  | resolved (labels : Nat)
  | commuted (left right : Register)
  | packed (address : Nat) (word : ControlWord)
  | emitted (words : Nat)
deriving DecidableEq

namespace Event

/-- Whether an event belongs to a single instruction. -/
def isDetail : Event → Bool
  | commuted _ _ => true
  | packed _ _ => true
  | _ => false

/-- The wording of an event. -/
def message : Event → String
  | lexed _ => "lexical analysis done"
  | parsed _ => "syntax analysis done"
  | resolved _ => "label resolution done"
  | commuted _ _ => "commuting addition"
  | packed _ _ => "packed"
  | emitted _ => "code generation done"

end Event

/-- The exchange that a claim leads to, if any. -/
def Resources.claimEvents (s : Resources) : Claim → List Event
  | .add left right =>
      if left.isReadable && right.isReadable && left != .mbr && right != .mbr &&
          s.mustCommute left right then
        [.commuted left right]
      else []
  | _ => []

/-- The events of some claims. -/
def Resources.claimsEvents (s : Resources) : List Claim → List Event
  | [] => []
  | c :: cs =>
      s.claimEvents c ++
        match s.claim c with
        | .ok s' => s'.claimsEvents cs
        | .error _ => []

/-- The events of some sub-instructions that share a cycle with earlier claims. -/
def eventsFrom (labels : LabelTable) (s : Resources) :
    List (Located Subinstruction) → List Event
  | [] => []
  | sub :: subs =>
      match Subinstruction.demand labels sub with
      | .ok (.claims claims) =>
          s.claimsEvents claims ++
            match s.claimAll claims with
            | .ok s' => eventsFrom labels s' subs
            | .error _ => []
      | _ => []

/-- The events of some instructions, up to the first fault. -/
def instructionEvents (labels : LabelTable) : List Instruction → List Event
  | [] => []
  | i :: is =>
      eventsFrom labels .fresh i.subs ++
        match i.encode labels with
        | .ok word => .packed i.address word :: instructionEvents labels is
        | .error _ => []

/-- The events of the encoding of a program. -/
def Program.emitEvents (p : Program) (labels : LabelTable) : List Event :=
  instructionEvents labels p.instructions ++
    match p.emit labels with
    | .ok words => [.emitted words.length]
    | .error _ => []

/-- The events of the assembly of a source. -/
def Source.trace (s : Source) : List Event :=
  match s.tokens with
  | .error _ => []
  | .ok tokens =>
      .lexed tokens.length ::
        match Program.ofTokens tokens (.point .start) with
        | .error _ => []
        | .ok program =>
            .parsed program.instructions.length ::
              match program.resolve with
              | .error _ => []
              | .ok labels => .resolved labels.entries.length :: program.emitEvents labels

end Microcode
