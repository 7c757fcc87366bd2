import Microcode.Assembly
import Microcode.Text.Digits

/-!
# Reporting errors

A report shows each error with its class and wording, its place, the lines of
the source that it covers, and a row of carets under its columns.  Line numbers
stand in a gutter as wide as the last of them.  Under several lines the carets
go from the smaller of the two columns, which is never less than one, to the
larger.
-/

namespace Microcode
namespace Report

/-- The width of the gutter of an error. -/
def gutter (span : Span) : Nat :=
  (Nat.toDigits 10 span.last.line).length

/-- The numbers of the lines that a span covers. -/
def lineNumbers (span : Span) : List Nat :=
  List.range' span.first.line (span.last.line + 1 - span.first.line)

/-- A line of the source behind its number. -/
def excerptLine (lines : List (List Char)) (width number : Nat) : String :=
  String.ofList (Text.rightAligned width number) ++ " | " ++ Text.lineAt lines number

/-- The row of carets under the columns of a span. -/
def caretLine (span : Span) : String :=
  let least := max (min span.first.column span.last.column) 1
  let greatest := max span.first.column span.last.column
  Text.run (gutter span) ' ' ++ " | " ++ Text.run (least - 1) ' ' ++
    Text.run (greatest - least + 1) '^'

/-- The lines that show an error, the empty one after it included. -/
def block (source : Source) (error : AssemblyError) : List String :=
  [error.kind ++ ": " ++ error.message source.name,
    " --> " ++ error.span.render source.name,
    Text.run (gutter error.span) ' ' ++ " |"] ++
  (lineNumbers error.span).map (excerptLine source.lines (gutter error.span)) ++
  [caretLine error.span, ""]

/-- The last line of a report. -/
def verdict (count : Nat) : String :=
  "Build failed with " ++ count.repr ++ (if count = 1 then " error" else " errors")

/-- The lines of a report. -/
def lines (source : Source) (errors : List AssemblyError) : List String :=
  if errors.isEmpty then ["No errors were reported"]
  else errors.flatMap (block source) ++ [verdict errors.length]

/-- The report on the errors of a source. -/
def render (source : Source) (errors : List AssemblyError) : String :=
  String.join ((lines source errors).map fun line => line ++ "\n")

end Report
end Microcode
