import Microcode.Text.GraphemeExtend
import Microcode.Text.Unprintable

/-!
# Quoting one character

`Text.quoted` shows a character between single quotes so that it can be read
off a message.  Six characters have a short escape; a character that joins the
one before it, or cannot be seen, is written by its code point in
lower-case hexadecimal; every other character stands for itself.
-/

namespace Microcode
namespace Text

/-- The short escape of a character, if it has one. -/
def shortEscape? : Char → Option String
  | '\x00' => some "\\0"
  | '\t' => some "\\t"
  | '\r' => some "\\r"
  | '\n' => some "\\n"
  | '\x27' => some "\\'"
  | '\\' => some "\\\\"
  | _ => none

/-- The escape of a character by its code point. -/
def codeEscape (c : Char) : String :=
  "\\u\x7b" ++ String.ofList (Nat.toDigits 16 c.toNat) ++ "\x7d"

/-- A character as it appears between quotes. -/
def escaped (c : Char) : String :=
  match shortEscape? c with
  | some text => text
  | none =>
      if joinsPrevious c || !isPrintable c then codeEscape c
      else c.toString

/-- A character between single quotes. -/
def quoted (c : Char) : String :=
  "'" ++ escaped c ++ "'"

end Text
end Microcode
