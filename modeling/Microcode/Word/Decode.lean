import Microcode.Text.Quoted
import Microcode.Text.WhiteSpace
import Microcode.Word.Field

/-!
# Reading control words

A word is read from exactly 32 binary digits.  White space around them and one
leading `0b` are skipped.  The number of digits is checked before the digits
themselves, and the first wrong digit is the one reported.
-/

namespace Microcode

/-- Why a text is not a control word. -/
inductive WordError where
  | length (found : Nat)
  | digit (found : Char)
deriving DecidableEq

/-- The wording of a failed reading. -/
def WordError.message : WordError → String
  | length found => "Expected 32 binary digits, found " ++ found.repr
  | digit found => "Bad binary digit " ++ Text.quoted found

/-- Skips one leading `0b`. -/
def skipRadix : List Char → List Char
  | '0' :: 'b' :: digits => digits
  | digits => digits

/-- Whether a character is a binary digit. -/
def isBinaryDigit (c : Char) : Bool :=
  c == '0' || c == '1'

/-- The word that exactly 32 binary digits spell. -/
def ControlWord.ofDigits (digits : List Char) : Except WordError ControlWord :=
  if digits.length ≠ 32 then .error (.length digits.length)
  else
    match digits.find? (fun c => !isBinaryDigit c) with
    | some c => .error (.digit c)
    | none => .ok ⟨UInt32.ofNat (Nat.ofDigitChars 2 digits 0)⟩

/-- Reads a word from a text. -/
def ControlWord.decode (text : String) : Except WordError ControlWord :=
  ControlWord.ofDigits (skipRadix (Text.trimmed text.toList))

end Microcode
