/-!
# Lines of a text

**Input.**  A text as a list of characters.

**Output.**  `Text.lines` cuts it into lines without their ends.  A line ends
at a line feed; a carriage return directly before that line feed belongs to the
end of the line, and any other carriage return is an ordinary character.  A
text that does not finish with a line end still has its last line, and the
empty text has no lines.

`Text.lineAt` picks a line by its number, and `Text.normalized` writes the lines
back with exactly one line feed after each.
-/

namespace Microcode
namespace Text

/-- Puts a character in front of the first line, opening a line if there is none. -/
def consLine (c : Char) : List (List Char) → List (List Char)
  | [] => [[c]]
  | line :: lines => (c :: line) :: lines

/-- The lines of a text, without their ends. -/
def lines : List Char → List (List Char)
  | [] => []
  | '\n' :: cs => [] :: lines cs
  | '\r' :: '\n' :: cs => [] :: lines cs
  | c :: cs => consLine c (lines cs)

/-- The line of a number among some lines, counted from one; empty if there is
none. -/
def lineAt (lines : List (List Char)) : Nat → String
  | 0 => ""
  | n + 1 => String.ofList (lines[n]?.getD [])

/-- The text with one line feed after every line, the last one included. -/
def normalized (text : List Char) : List Char :=
  (lines text).flatMap (fun line => line ++ ['\n'])

@[simp] theorem lines_nil :
    lines [] = [] := by
  rfl

@[simp] theorem lines_newline
    (cs : List Char) :
    lines ('\n' :: cs) = [] :: lines cs := by
  simp [lines]

/-- No line holds a line feed. -/
theorem not_mem_of_mem_lines
    (cs line : List Char)
    (h : line ∈ lines cs) :
    '\n' ∉ line := by
  fun_induction lines cs generalizing line with
  | case1 =>
      simp at h
  | case2 cs ih =>
      rcases List.mem_cons.1 h with h | h
      · simp [h]
      · exact ih line h
  | case3 cs ih =>
      rcases List.mem_cons.1 h with h | h
      · simp [h]
      · exact ih line h
  | case4 c cs hn _ ih =>
      have hc : c ≠ '\n' := fun hc => hn hc
      cases hl : lines cs with
      | nil =>
          simp only [hl, consLine, List.mem_singleton] at h
          simp [h, Ne.symm hc]
      | cons first rest =>
          simp only [hl, consLine, List.mem_cons] at h
          rcases h with h | h
          · have := ih first (by simp [hl])
            simp [h, Ne.symm hc, this]
          · exact ih line (by simp [hl, h])

end Text
end Microcode
