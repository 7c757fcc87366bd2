import Microcode.Source
import Microcode.Text.Quoted
import Microcode.Token

/-!
# Reading tokens

**Input.**  The characters of a source, in which every line ends with a line
feed.

**Algorithm.**  A `Lexer` holds the characters still to be read, the place of
the first of them, and the context left by the token before.  `Lexer.next?`
skips blanks and takes one token off the front.  A word is the longest run of
letters, digits and minus signs.  It is a keyword if it is spelled like one.
Otherwise its context decides, together with what follows it after blanks:

* at the start of a line, a word before `:=` names a register and any other
  word is a label;
* after `goto` a word is a label;
* elsewhere a word before a lone `:` is a label and any other word names a
  register.

A lexer that has met an error holds no more characters, so it yields nothing
after it.

**Results.**  `Lexer.rest_length_lt` says that each step leaves fewer
characters, so `Lexer.run` reads all tokens.
-/

namespace Microcode

/-- Why no token can be read. -/
inductive LexError where
  | badChar (c : Char)
  | expectedRegisterOrLabel (word : String)
  | expectedRegister (word : String)
  | badLabel (word : String)
deriving DecidableEq

/-- The wording of a failed reading. -/
def LexError.message : LexError → String
  | badChar c => "Bad character " ++ Text.quoted c ++ " in input stream"
  | expectedRegisterOrLabel word => "Expected register or label, found `" ++ word ++ "`"
  | expectedRegister word => "Expected register, found `" ++ word ++ "`"
  | badLabel word => "Label `" ++ word ++ "` may only contain letters and digits"

/-- Whether a character only separates tokens. -/
def isBlank (c : Char) : Bool :=
  c == ' ' || c == '\t'

/-- Whether a character can be part of a word. -/
def isWordChar (c : Char) : Bool :=
  c.isAlphanum || c == '-'

/-- What follows a word. -/
inductive Follow where
  | assignment
  | definition
  | other
deriving DecidableEq

/-- What the characters after a word start with, blanks aside. -/
def Follow.ofChars (rest : List Char) : Follow :=
  match rest.dropWhile isBlank with
  | ':' :: '=' :: _ => .assignment
  | ':' :: _ => .definition
  | _ => .other

/-- A word as a label. -/
def labelOf (word : String) : Except LexError Token :=
  if word.toList.all Char.isAlphanum then .ok (.label word)
  else .error (.badLabel word)

/-- A word as a register; if it names none, the given error. -/
def registerOf (error : String → LexError) (word : String) : Except LexError Token :=
  match Register.ofName? word with
  | some r => .ok (.register r)
  | none => .error (error word)

/-- What a word stands for, by its context and by what follows it. -/
def Context.classify (context : Context) (word : String) (follow : Follow) :
    Except LexError Token :=
  match Keyword.ofName? word with
  | some k => .ok (.keyword k)
  | none =>
      match context, follow with
      | .lineStart, .assignment => registerOf .expectedRegisterOrLabel word
      | .lineStart, _ => labelOf word
      | .afterGoto, _ => labelOf word
      | .operand, .definition => labelOf word
      | .operand, _ => registerOf .expectedRegister word

/-- The first token of some characters that do not start with a blank: the
characters it takes, and the token itself or the reason why there is none. -/
def Context.read? (context : Context) : List Char → Option (List Char × Except LexError Token)
  | [] => none
  | ';' :: _ => some ([';'], .ok .semicolon)
  | ',' :: _ => some ([','], .ok .comma)
  | '(' :: _ => some (['('], .ok .openParen)
  | ')' :: _ => some ([')'], .ok .closeParen)
  | '+' :: _ => some (['+'], .ok .plus)
  | ':' :: '=' :: _ => some ([':', '='], .ok .assign)
  | ':' :: _ => some ([':'], .ok .colon)
  | '\n' :: cs => some ('\n' :: cs.takeWhile (· == '\n'), .ok .newline)
  | c :: cs =>
      if isWordChar c then
        let word := c :: cs.takeWhile isWordChar
        let follow := Follow.ofChars (cs.dropWhile isWordChar)
        some (word, context.classify (String.ofList word) follow)
      else
        some ([c], .error (.badChar c))

/-- A token takes at least one character. -/
theorem Context.length_pos_of_read?
    {context : Context}
    {cs text : List Char}
    {result : Except LexError Token}
    (h : context.read? cs = some (text, result)) :
    0 < text.length := by
  unfold Context.read? at h
  split at h
  case h_1 =>
      simp at h
  case h_10 =>
      split at h <;> (obtain ⟨rfl, -⟩ := Prod.mk.inj (Option.some.inj h); simp)
  all_goals
      obtain ⟨rfl, -⟩ := Prod.mk.inj (Option.some.inj h)
      simp

/-- The reading of tokens at some place of a source. -/
structure Lexer where
  rest : List Char
  place : Position
  context : Context
deriving DecidableEq

/-- What a lexer has read when it stops: the tokens, the error that stopped it,
if any, and the lexer that is left. -/
structure Reading where
  tokens : List (Located Token)
  error : Option (Located LexError)
  final : Lexer

namespace Lexer

/-- The lexer at the start of some characters. -/
def ofChars (cs : List Char) : Lexer :=
  ⟨cs, .start, .lineStart⟩

/-- One step: the next token or the error met instead, and the lexer after it. -/
def next? (l : Lexer) : Option (Except (Located LexError) (Located Token) × Lexer) :=
  let cs := l.rest.dropWhile isBlank
  let place := l.place.advance (l.rest.takeWhile isBlank)
  match l.context.read? cs with
  | none => none
  | some (text, .ok token) =>
      some (.ok ⟨token, .cover place text⟩,
        ⟨cs.drop text.length, place.advance text, .after token⟩)
  | some (_, .error error) =>
      some (.error ⟨error, .point place⟩, ⟨[], place, l.context⟩)

/-- A step that yields a token leaves fewer characters. -/
theorem rest_length_lt
    {l l' : Lexer}
    {token : Located Token}
    (h : l.next? = some (.ok token, l')) :
    l'.rest.length < l.rest.length := by
  unfold next? at h
  simp only at h
  split at h
  · simp at h
  · next text t hread =>
      obtain ⟨-, rfl⟩ := Prod.mk.inj (Option.some.inj h)
      have hpos := Context.length_pos_of_read? hread
      have hle := (List.dropWhile_suffix isBlank (l := l.rest)).length_le
      have hne : (l.rest.dropWhile isBlank) ≠ [] := by
        intro hnil
        simp [hnil, Context.read?] at hread
      have hlen := List.length_pos_iff.2 hne
      simp only [List.length_drop]
      omega
  · simp at h

/-- All tokens up to the end or to the first error. -/
def run (l : Lexer) : Reading :=
  match _h : l.next? with
  | none => ⟨[], none, l⟩
  | some (.error error, l') => ⟨[], some error, l'⟩
  | some (.ok token, l') =>
      let reading := l'.run
      ⟨token :: reading.tokens, reading.error, reading.final⟩
termination_by l.rest.length
decreasing_by exact rest_length_lt _h

end Lexer

namespace Source

/-- The lexer's reading of a source. -/
def reading (s : Source) : Reading :=
  (Lexer.ofChars s.chars).run

/-- All tokens of a source, or the first error. -/
def tokens (s : Source) : Except (Located LexError) (List (Located Token)) :=
  match s.reading.error with
  | none => .ok s.reading.tokens
  | some error => .error error

end Source

end Microcode
