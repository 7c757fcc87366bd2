/-!
# Sets of characters given by code point ranges

A property of characters that a standard fixes by a table is kept as a list of
closed ranges of code points, in increasing order.
-/

namespace Microcode
namespace Text

/-- A list of closed ranges of code points. -/
abbrev CodeRanges := List (Nat × Nat)

namespace CodeRanges

/-- Whether some range covers the character. -/
def contains (ranges : CodeRanges) (c : Char) : Bool :=
  ranges.any (fun range => decide (range.1 ≤ c.toNat) && decide (c.toNat ≤ range.2))

theorem contains_iff
    (ranges : CodeRanges)
    (c : Char) :
    ranges.contains c = true ↔
      ∃ range ∈ ranges, range.1 ≤ c.toNat ∧ c.toNat ≤ range.2 := by
  simp [contains]

end CodeRanges
end Text
end Microcode
