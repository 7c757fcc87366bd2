import Microcode.Text.Lines

/-!
# Source texts and places in them

A `Source` is a named text.  A `Position` is a line and a column, both counted
from one, a column being one character.  A `Span` is a closed range of
positions, and `Located` pairs a value with the span it was read from.

Spans do not name their source: whoever shows one supplies the name.
-/

namespace Microcode

/-- A line and a column, both counted from one.  The counters are unbounded here; those
of a text with fewer than `2 ^ 32 - 1` lines and columns fit in 32 bits. -/
structure Position where
  line : Nat
  column : Nat
deriving DecidableEq

namespace Position

/-- The place of the first character. -/
def start : Position :=
  ⟨1, 1⟩

/-- The place after a character that stands here. -/
def after (p : Position) (c : Char) : Position :=
  if c = '\n' then ⟨p.line + 1, 1⟩ else ⟨p.line, p.column + 1⟩

/-- The place after several characters that start here. -/
def advance (p : Position) (cs : List Char) : Position :=
  cs.foldl after p

/-- The place as `line:column`. -/
def render (p : Position) : String :=
  p.line.repr ++ ":" ++ p.column.repr

@[simp] theorem advance_nil
    (p : Position) :
    p.advance [] = p := by
  rfl

@[simp] theorem advance_cons
    (p : Position)
    (c : Char)
    (cs : List Char) :
    p.advance (c :: cs) = (p.after c).advance cs := by
  rfl

theorem advance_append
    (p : Position)
    (cs ds : List Char) :
    p.advance (cs ++ ds) = (p.advance cs).advance ds := by
  simp [advance]

end Position

/-- A closed range of places. -/
structure Span where
  first : Position
  last : Position
deriving DecidableEq

namespace Span

/-- The span of a single place. -/
def point (p : Position) : Span :=
  ⟨p, p⟩

/-- From the start of one span to the end of another. -/
def through (s t : Span) : Span :=
  ⟨s.first, t.last⟩

/-- The places of the characters of a text that starts at a place. -/
def cover (p : Position) (text : List Char) : Span :=
  ⟨p, p.advance text.dropLast⟩

/-- The span as `name:place`, or as `name:[first-last]` if its ends differ. -/
def render (name : String) (s : Span) : String :=
  if s.first = s.last then name ++ ":" ++ s.first.render
  else name ++ ":[" ++ s.first.render ++ "-" ++ s.last.render ++ "]"

end Span

/-- A value and the span it was read from. -/
structure Located (α : Type) where
  value : α
  span : Span
deriving DecidableEq

/-- A named text. -/
structure Source where
  name : String
  text : String

namespace Source

/-- The lines of the text. -/
def lines (s : Source) : List (List Char) :=
  Text.lines s.text.toList

/-- The characters to be read: every line, the last one included, ends with a
line feed. -/
def chars (s : Source) : List Char :=
  Text.normalized s.text.toList

/-- The line of a number, counted from one; empty if there is none. -/
def line (s : Source) (number : Nat) : String :=
  Text.lineAt s.lines number

/-- Each character that is read, with the place of the one after it. -/
def stream (s : Source) : List (Char × Position) :=
  go .start s.chars
where
  /-- The stream of some characters that start at a place. -/
  go (p : Position) : List Char → List (Char × Position)
    | [] => []
    | c :: cs => (c, p.after c) :: go (p.after c) cs

theorem map_fst_go
    (p : Position)
    (cs : List Char) :
    (stream.go p cs).map Prod.fst = cs := by
  induction cs generalizing p with
  | nil =>
      rfl
  | cons c cs ih =>
      simp [stream.go, ih]

/-- The stream holds the characters of the source. -/
theorem map_fst_stream
    (s : Source) :
    s.stream.map Prod.fst = s.chars :=
  map_fst_go _ _

end Source
end Microcode
