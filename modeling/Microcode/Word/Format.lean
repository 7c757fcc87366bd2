import Microcode.Text.Digits
import Microcode.Word.Field

/-!
# Rendering control words

A word is written in one of four formats: 32 binary digits, the same after
`0b`, eight lower-case hexadecimal digits after `0x`, or plain decimal.  The
listing of a word names every field with its bits.
-/

namespace Microcode

/-- The way in which a control word is written. -/
inductive WordFormat where
  | binary
  | literal
  | hex
  | decimal
deriving DecidableEq

namespace WordFormat

/-- All formats. -/
def all : List WordFormat :=
  [binary, literal, hex, decimal]

/-- The name by which a format is chosen. -/
def name : WordFormat → String
  | binary => "binary"
  | literal => "literal"
  | hex => "hex"
  | decimal => "decimal"

/-- The format of a name. -/
def ofName? (name : String) : Option WordFormat :=
  all.find? (fun format => format.name == name)

end WordFormat

/-- The 32 binary digits of a word. -/
def ControlWord.binary (w : ControlWord) : String :=
  String.ofList (Text.numeral 2 32 w.bits.toNat)

/-- A word in a format. -/
def WordFormat.render (format : WordFormat) (w : ControlWord) : String :=
  match format with
  | binary => w.binary
  | literal => "0b" ++ w.binary
  | hex => "0x" ++ String.ofList (Text.numeral 16 8 w.bits.toNat)
  | decimal => w.bits.toNat.repr

/-- The line of a field in a listing: its name and its bits, at least as many
as the field is wide. -/
def Fields.listingLine (v : Fields) (f : Field) : String :=
  f.name ++ ":\t" ++ String.ofList (Text.numeral 2 f.width (v f).toNat) ++ "\n"

/-- One line for every field, in layout order. -/
def Fields.listing (v : Fields) : String :=
  String.join (Field.layout.map v.listingLine)

end Microcode
