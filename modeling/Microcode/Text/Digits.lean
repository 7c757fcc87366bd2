/-!
# Numerals of a least width

`Text.numeral base width n` writes `n` in a base of at most sixteen, with zeros
in front up to a least width.  A number with more digits than the width keeps
all of them.
-/

namespace Microcode
namespace Text

/-- The digits of a number in a base, filled with zeros in front up to a least width. -/
def numeral (base width n : Nat) : List Char :=
  (Nat.toDigits base n).leftpad width '0'

/-- A decimal number moved to the right end of a column. -/
def rightAligned (width n : Nat) : List Char :=
  (Nat.toDigits 10 n).leftpad width ' '

/-- The same character several times. -/
def run (n : Nat) (c : Char) : String :=
  String.ofList (List.replicate n c)

theorem length_numeral
    (base width n : Nat) :
    (numeral base width n).length = max width (Nat.toDigits base n).length :=
  List.length_leftpad

theorem length_rightAligned
    (width n : Nat) :
    (rightAligned width n).length = max width (Nat.toDigits 10 n).length :=
  List.length_leftpad

end Text
end Microcode
