import Microcode.Encoding
import Microcode.Program.Parser
import Microcode.Token.Lexer

/-!
# Assembling a source

`Source.assemble` reads the tokens of a source, the program they spell, its
label table and its control words.  A failed reading and a conflict are
reported alone; label errors are reported all together.
-/

namespace Microcode

/-- An error in a source. -/
inductive AssemblyError where
  | lex (error : Located LexError)
  | parse (error : Located ParseError)
  | label (error : Located LabelError)
  | conflict (error : Located Conflict)
deriving DecidableEq

namespace AssemblyError

/-- The class of an error. -/
def kind : AssemblyError → String
  | lex _ => "lexical error"
  | parse error => if error.value.isStructural then "structural error" else "syntax error"
  | label _ => "label error"
  | conflict _ => "resource conflict"

/-- Where the error is. -/
def span : AssemblyError → Span
  | lex error => error.span
  | parse error => error.span
  | label error => error.span
  | conflict error => error.span

/-- The wording of an error in a source of the given name. -/
def message (name : String) : AssemblyError → String
  | lex error => error.value.message
  | parse error => error.value.message
  | label error => error.value.message name
  | conflict error => error.value.message

/-- The error on one line: its class, place and wording. -/
def summary (name : String) (error : AssemblyError) : String :=
  error.kind ++ " at " ++ error.span.render name ++ ": " ++ error.message name

end AssemblyError

/-- Why a source cannot be assembled. -/
inductive Failure where
  | errors (list : List AssemblyError)
  | defect (cause : Defect)
deriving DecidableEq

/-- A fault of the encoding as a failure. -/
def Failure.ofFault : Fault → Failure
  | .conflict error => .errors [.conflict error]
  | .defect cause => .defect cause

/-- The control words and the labels of a source. -/
structure Assembly where
  words : List ControlWord
  labels : LabelTable
deriving DecidableEq

namespace Source

/-- The program that a source spells. -/
def program (s : Source) : Except AssemblyError Program :=
  match s.tokens with
  | .error error => .error (.lex error)
  | .ok tokens =>
      match Program.ofTokens tokens (.point .start) with
      | .error error => .error (.parse error)
      | .ok program => .ok program

/-- The program and the label table of a source. -/
def resolved (s : Source) : Except (List AssemblyError) (Program × LabelTable) :=
  match s.program with
  | .error error => .error [error]
  | .ok program =>
      match program.resolve with
      | .error errors => .error (errors.map .label)
      | .ok labels => .ok (program, labels)

/-- The control words and the labels of a source. -/
def assemble (s : Source) : Except Failure Assembly :=
  match s.resolved with
  | .error errors => .error (.errors errors)
  | .ok (program, labels) =>
      match program.emit labels with
      | .error fault => .error (.ofFault fault)
      | .ok words => .ok ⟨words, labels⟩

end Source
end Microcode
