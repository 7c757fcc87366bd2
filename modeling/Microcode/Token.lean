import Microcode.Register

/-!
# Tokens of a microprogram

A token is a register, a label, a keyword, one of seven symbols, or the end of
one or more lines.  `Token.render` is the wording of a token in messages,
`Token.kind` its coarse class.

What a word stands for depends on where it is read; `Context` is what the token
before it says about that place.
-/

namespace Microcode

/-- A reserved word. -/
inductive Keyword where
  | rd
  | wr
  | halt
  | band
  | lshift
  | rshift
  | inv
  | ifWord
  | thenWord
  | goto
  | zero
  | negative
deriving DecidableEq

/-- The coarse class of a token. -/
inductive TokenKind where
  | operation
  | paramOperation
  | ifKeyword
  | jumpCondition
  | labelDefiner
  | separator
  | wrapper
  | newline
  | register
  | label
deriving DecidableEq

namespace Keyword

/-- All reserved words. -/
def all : List Keyword :=
  [rd, wr, halt, band, lshift, rshift, inv, ifWord, thenWord, goto, zero, negative]

/-- The spelling of a reserved word. -/
def name : Keyword → String
  | rd => "rd"
  | wr => "wr"
  | halt => "halt"
  | band => "band"
  | lshift => "lshift"
  | rshift => "rshift"
  | inv => "inv"
  | ifWord => "if"
  | thenWord => "then"
  | goto => "goto"
  | zero => "z"
  | negative => "n"

/-- The class of a reserved word. -/
def kind : Keyword → TokenKind
  | rd | wr | halt => .operation
  | band | lshift | rshift | inv => .paramOperation
  | ifWord | thenWord | goto => .ifKeyword
  | zero | negative => .jumpCondition

/-- The reserved word of a spelling. -/
def ofName? (name : String) : Option Keyword :=
  all.find? (fun k => k.name == name)

/-- The spelling of a reserved word finds that word. -/
@[simp] theorem ofName?_name
    (k : Keyword) :
    ofName? k.name = some k := by
  cases k <;> decide

/-- A spelling that finds a reserved word is the spelling of that word. -/
theorem name_of_ofName?
    {text : String}
    {k : Keyword}
    (h : ofName? text = some k) :
    k.name = text := by
  simpa using List.find?_some h

end Keyword

/-- A token. -/
inductive Token where
  | register (r : Register)
  | label (name : String)
  | keyword (k : Keyword)
  | assign
  | plus
  | colon
  | semicolon
  | comma
  | openParen
  | closeParen
  | newline
deriving DecidableEq

namespace Token

/-- The class of a token. -/
def kind : Token → TokenKind
  | register _ => .register
  | label _ => .label
  | keyword k => k.kind
  | assign | plus => .operation
  | colon => .labelDefiner
  | semicolon | comma => .separator
  | openParen | closeParen => .wrapper
  | newline => .newline

/-- The characters that a token stands for; a line end stands for one line feed. -/
def text : Token → String
  | register r => r.name
  | label name => name
  | keyword k => k.name
  | assign => ":="
  | plus => "+"
  | colon => ":"
  | semicolon => ";"
  | comma => ","
  | openParen => "("
  | closeParen => ")"
  | newline => "\n"

/-- The wording of a token in messages. -/
def render : Token → String
  | register r => "register `" ++ r.name ++ "`"
  | label name => "label `" ++ name ++ "`"
  | keyword k => "keyword `" ++ k.name ++ "`"
  | newline => "end of line"
  | symbol => "`" ++ symbol.text ++ "`"

end Token

/-- What the previous token says about the place where a word is read. -/
inductive Context where
  | lineStart
  | afterGoto
  | operand
deriving DecidableEq

/-- The context that a token leaves behind. -/
def Context.after : Token → Context
  | .newline => .lineStart
  | .keyword .goto => .afterGoto
  | _ => .operand

end Microcode
