import Microcode.Resources.Claim
import Microcode.Word.Field

/-!
# The resources of a cycle

`Resources` records what one instruction has claimed so far.  Asking again for
what is already held changes nothing; asking a unit that is taken for something
else is a conflict.

* A register is put on the A bus, except `mbr`, which enters through the
  multiplexer in front of the A input.  `mbr` cannot travel on the B bus.
* The registers of an addition may be exchanged: `mbr` always goes to the A
  side, and otherwise they are exchanged if they fit only that way.
* A jump is claimed at most once.

`Resources.attempt` performs a claim and says what stays claimed if it fails;
`Resources.claim` is its successful half.  `Resources.fields` gives the fields
of the control word, zero where nothing is claimed.
-/

namespace Microcode

/-- What a cycle has claimed so far.  `a = some .mbr` selects the multiplexer. -/
structure Resources where
  a : Option Register := none
  b : Option Register := none
  c : Option Register := none
  alu : Option AluOp := none
  shifter : Option ShiftOp := none
  branch : Option (Jump × UInt8) := none
  mbr : Bool := false
  mar : Bool := false
  rd : Bool := false
  wr : Bool := false
deriving DecidableEq

/-- The claims of a fresh cycle. -/
def Resources.fresh : Resources :=
  {}

section Units

variable {α : Type} [DecidableEq α]

/-- Whether a unit is free or already does what is wanted. -/
def fits (unit : Option α) (wanted : α) : Bool :=
  match unit with
  | none => true
  | some taken => decide (taken = wanted)

/-- Claims a unit. -/
def occupy (unit : Option α) (wanted : α) (conflict : α → Conflict) :
    Except Conflict (Option α) :=
  match unit with
  | none => .ok (some wanted)
  | some taken => if taken = wanted then .ok (some wanted) else .error (conflict taken)

/-- A unit is granted exactly if it fits, and then holds what was wanted. -/
theorem occupy_eq_ok_iff
    (unit held : Option α)
    (wanted : α)
    (conflict : α → Conflict) :
    occupy unit wanted conflict = .ok held ↔
      fits unit wanted = true ∧ held = some wanted := by
  cases unit with
  | none =>
      simp [occupy, fits, eq_comm]
  | some taken =>
      by_cases h : taken = wanted
      · simp [occupy, fits, h, eq_comm]
      · simp [occupy, fits, h]

end Units

/-- A register that can be read, or the conflict of one that cannot. -/
def readable (r : Register) : Except Conflict Unit :=
  if r.isReadable then .ok () else .error (.unreadable r)

namespace Resources

section Claims

/-- Puts a register on the A bus, or selects `mbr` in the multiplexer. -/
def routeA (s : Resources) (r : Register) : Except Conflict Resources := do
  readable r
  let a ← occupy s.a r (.bus .a r)
  pure { s with a := a }

/-- Puts a register on the B bus. -/
def routeB (s : Resources) (r : Register) : Except Conflict Resources := do
  readable r
  if r = .mbr then
    .error .mbrOnBBus
  else
    let b ← occupy s.b r (.bus .b r)
    pure { s with b := b }

/-- Whether two registers other than `mbr` can be added only if they are exchanged. -/
def mustCommute (s : Resources) (left right : Register) : Bool :=
  !(fits s.a left && fits s.b right) && (fits s.a right && fits s.b left)

/-- The registers that an addition puts on the A side and on the B bus. -/
def placement (s : Resources) (left right : Register) : Register × Register :=
  if left = .mbr then (left, right)
  else if right = .mbr then (right, left)
  else if s.mustCommute left right then (right, left)
  else (left, right)

/-- Claims an operation of the ALU. -/
def claimAlu (s : Resources) (op : AluOp) : Except Conflict Resources := do
  let alu ← occupy s.alu op (.alu op)
  pure { s with alu := alu }

/-- Claims an operation of the shifter. -/
def claimShifter (s : Resources) (op : ShiftOp) : Except Conflict Resources := do
  let shifter ← occupy s.shifter op (.shifter op)
  pure { s with shifter := shifter }

/-- Claims the way to a destination: `mbr` has a line of its own, `alu` stores
nothing, and everything else takes the C bus. -/
def claimOutput (s : Resources) (dest : Register) : Except Conflict Resources :=
  if !dest.isMutable then .error (.immutable dest)
  else if dest = .mbr then .ok { s with mbr := true }
  else if dest = .alu then .ok s
  else do
    let c ← occupy s.c dest (.outputTaken dest)
    pure { s with c := c }

/-- Loads `mar` from the B bus. -/
def loadMar (s : Resources) (r : Register) : Except Conflict Resources := do
  let s ← s.routeB r
  pure { s with mar := true }

/-- Starts a memory read. -/
def read (s : Resources) : Except Conflict Resources :=
  if s.wr then .error .readWrite else .ok { s with rd := true }

/-- Starts a memory write. -/
def write (s : Resources) : Except Conflict Resources :=
  if s.rd then .error .readWrite else .ok { s with wr := true }

/-- Claims the jump. -/
def jump (s : Resources) (jump : Jump) (address : UInt8) : Except Conflict Resources :=
  match s.branch with
  | none => .ok { s with branch := some (jump, address) }
  | some _ => .error .jumpDefined

end Claims

/-- What stays claimed after a claim that is granted or refused as a whole. -/
def settle (s : Resources) : Except Conflict Resources → Resources × Option Conflict
  | .ok s' => (s', none)
  | .error conflict => (s, some conflict)

/-- Puts two registers on the A side and on the B bus.  The first stays claimed if
the second is refused. -/
def routeBoth (s : Resources) (onA onB : Register) : Resources × Option Conflict :=
  match s.routeA onA with
  | .error conflict => (s, some conflict)
  | .ok s' => s'.settle (s'.routeB onB)

/-- Claims both inputs of the ALU for an addition. -/
def attemptAdd (s : Resources) (left right : Register) : Resources × Option Conflict :=
  if !left.isReadable then (s, some (.unreadable left))
  else if !right.isReadable then (s, some (.unreadable right))
  else s.routeBoth (s.placement left right).1 (s.placement left right).2

/-- Performs a claim: what is claimed afterwards, and the conflict if it is refused. -/
def attempt (s : Resources) : Claim → Resources × Option Conflict
  | .routeA r => s.settle (s.routeA r)
  | .routeB r => s.settle (s.routeB r)
  | .add left right => s.attemptAdd left right
  | .alu op => s.settle (s.claimAlu op)
  | .shifter op => s.settle (s.claimShifter op)
  | .output dest => s.settle (s.claimOutput dest)
  | .loadMar r => s.settle (s.loadMar r)
  | .read => s.settle s.read
  | .write => s.settle s.write
  | .branch jump address => s.settle (s.jump jump address)

/-- What is claimed after a claim that is granted. -/
def claim (s : Resources) (c : Claim) : Except Conflict Resources :=
  match s.attempt c with
  | (s', none) => .ok s'
  | (_, some conflict) => .error conflict

/-- What is claimed after several claims, or the first conflict. -/
def claimAll (s : Resources) : List Claim → Except Conflict Resources
  | [] => .ok s
  | c :: cs =>
      match s.claim c with
      | .ok s' => s'.claimAll cs
      | .error conflict => .error conflict

theorem claim_eq_ok_iff
    (s s' : Resources)
    (c : Claim) :
    s.claim c = .ok s' ↔ s.attempt c = (s', none) := by
  unfold claim
  rcases s.attempt c with ⟨t, conflict⟩
  cases conflict <;> simp

theorem claimAll_append
    (s : Resources)
    (cs ds : List Claim) :
    s.claimAll (cs ++ ds) =
      match s.claimAll cs with
      | .ok s' => s'.claimAll ds
      | .error conflict => .error conflict := by
  induction cs generalizing s with
  | nil =>
      rfl
  | cons c cs ih =>
      simp only [List.cons_append, claimAll]
      cases s.claim c with
      | error conflict =>
          rfl
      | ok s' =>
          exact ih s'

section Packing

/-- The number of the register on a bus, zero if the bus is free. -/
def busCode (bus : Option Register) : UInt8 :=
  match bus with
  | some r => UInt8.ofNat r.index
  | none => 0

/-- A line as a field. -/
def lineCode (line : Bool) : UInt8 :=
  if line then 1 else 0

/-- The fields of the control word. -/
def fields (s : Resources) : Fields
  | .amux => lineCode (decide (s.a = some .mbr))
  | .cond => match s.branch with
      | some (jump, _) => jump.code
      | none => 0
  | .alu => match s.alu with
      | some op => op.code
      | none => 0
  | .sh => match s.shifter with
      | some op => op.code
      | none => 0
  | .mbr => lineCode s.mbr
  | .mar => lineCode s.mar
  | .rd => lineCode s.rd
  | .wr => lineCode s.wr
  | .enc => lineCode s.c.isSome
  | .c => busCode s.c
  | .b => busCode s.b
  | .a => if s.a = some .mbr then 0 else busCode s.a
  | .addr => match s.branch with
      | some (_, address) => address
      | none => 0

/-- The control word of the cycle. -/
def pack (s : Resources) : Except Overflow ControlWord :=
  s.fields.pack

end Packing

end Resources
end Microcode
