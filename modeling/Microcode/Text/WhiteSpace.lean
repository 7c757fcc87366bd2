import Microcode.Text.CodeRanges

/-!
# White space

The characters with the Unicode property `White_Space`, as a table of code
points, and trimming a text of them at both ends.
-/

namespace Microcode
namespace Text

/-- The code points of white space. -/
def whiteSpace : CodeRanges :=
  [(0x0009, 0x000D), (0x0020, 0x0020), (0x0085, 0x0085), (0x00A0, 0x00A0),
    (0x1680, 0x1680), (0x2000, 0x200A), (0x2028, 0x2029), (0x202F, 0x202F),
    (0x205F, 0x205F), (0x3000, 0x3000)]

/-- Whether a character is white space. -/
def isWhiteSpace (c : Char) : Bool :=
  whiteSpace.contains c

/-- A text without the white space at its two ends. -/
def trimmed (text : List Char) : List Char :=
  ((text.dropWhile isWhiteSpace).reverse.dropWhile isWhiteSpace).reverse

/-- The table has the twenty-five white space characters of the standard. -/
example : (whiteSpace.map (fun range => range.2 + 1 - range.1)).sum = 25 := by
  decide

end Text
end Microcode
