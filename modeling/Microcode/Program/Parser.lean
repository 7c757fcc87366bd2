import Microcode.Program.Progress

/-!
# From tokens to programs

**Input.**  A list of tokens and the span to blame if it ends before any token
has been taken.

**Output.**  The program that the tokens spell, or the first error.

Line ends before, between and after instructions are skipped, and instructions
are numbered in the order in which they stand.
-/

namespace Microcode

/-- All instructions up to the end of the tokens, the first one with the given
address. -/
def Parser.instructions (address : Nat) (c : Cursor) :
    Except (Located ParseError) (List Instruction) :=
  if (Parser.skipNewlines c).rest.isEmpty then .ok []
  else
    match _h : Parser.instruction address (Parser.skipNewlines c) with
    | .error error => .error error
    | .ok (i, c') =>
        match Parser.instructions (address + 1) c' with
        | .error error => .error error
        | .ok is => .ok (i :: is)
termination_by c.rest.length
decreasing_by
  exact Nat.lt_of_lt_of_le (Parser.advances_instruction _ _ _ _ _h)
    (Parser.length_skipNewlines_le c)

/-- The program that a list of tokens spells.  A token missing before any has been
taken is blamed on `start`. -/
def Program.ofTokens (tokens : List (Located Token)) (start : Span) :
    Except (Located ParseError) Program :=
  match Parser.instructions 0 ⟨tokens, start⟩ with
  | .error error => .error error
  | .ok is => .ok ⟨is⟩

end Microcode
