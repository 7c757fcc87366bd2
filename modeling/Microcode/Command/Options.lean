import Microcode.Word.Format

/-!
# Command line arguments

The arguments are read from left to right.  A setting takes a value: the rest of
its cluster, the text after `=`, or the next argument unless that starts with a
minus sign and is longer than it.  Switches take none.  After `--` every
argument is a file name, and a lone `-` is one as well.

An unknown option, a switch with a value and a second file name end the reading
with an error at once; `--help` and `--version` end it with that request.  Only
at the end of the arguments a setting without a value, an option given twice
and an unknown format are refused.
-/

namespace Microcode
namespace Command

/-- An option that takes a value. -/
inductive Setting where
  | output
  | format
  | decode
deriving DecidableEq

/-- An option that takes no value. -/
inductive Switch where
  | explain
  | symbols
  | help
  | version
deriving DecidableEq

/-- An option. -/
inductive OptionName where
  | setting (s : Setting)
  | switch (s : Switch)
deriving DecidableEq

namespace OptionName

/-- All options. -/
def all : List OptionName :=
  [setting .output, setting .format, setting .decode, switch .explain, switch .symbols,
    switch .help, switch .version]

/-- The long spelling of an option, without its two minus signs. -/
def long : OptionName → String
  | setting .output => "output"
  | setting .format => "format"
  | setting .decode => "decode"
  | switch .explain => "explain"
  | switch .symbols => "symbols"
  | switch .help => "help"
  | switch .version => "version"

/-- The letter of an option, if it has one. -/
def letter? : OptionName → Option Char
  | setting .output => some 'o'
  | setting .format => some 'f'
  | setting .decode => some 'd'
  | switch .explain => some 'x'
  | switch .symbols => none
  | switch .help => some 'h'
  | switch .version => some 'V'

/-- The option of a long spelling. -/
def ofLong? (name : String) : Option OptionName :=
  all.find? (fun option => option.long == name)

/-- The option of a letter. -/
def ofLetter? (c : Char) : Option OptionName :=
  all.find? (fun option => option.letter? == some c)

end OptionName

/-- Why the arguments are refused. -/
inductive UsageError where
  | unknownOption (text : String)
  | unexpectedValue (option : OptionName)
  | extraFile (path : String)
  | missingValue (setting : Setting)
  | repeatedOption (option : OptionName)
  | badFormat (name : String)
deriving DecidableEq

/-- The wording of refused arguments. -/
def UsageError.message : UsageError → String
  | unknownOption text => "Unknown option: " ++ text
  | unexpectedValue option => "No value is taken by --" ++ option.long
  | extraFile path => "More than one input file: " ++ path
  | missingValue setting => "A value is needed by --" ++ (OptionName.setting setting).long
  | repeatedOption option => "Given more than once: --" ++ option.long
  | badFormat name => "Unknown format: " ++ name

/-- A part of the arguments. -/
inductive Item where
  | setting (s : Setting) (value : Option String)
  | switch (s : Switch)
  | file (path : String)
deriving DecidableEq

/-- Why the reading of arguments ends early. -/
inductive Stop where
  | usage (error : UsageError)
  | help
  | version
deriving DecidableEq

/-- What an argument looks like. -/
inductive Shape where
  | plain
  | terminator
  | long (name : String) (value : Option String)
  | cluster (letters : List Char)
deriving DecidableEq

/-- The shape of an argument. -/
def Shape.ofArg (arg : String) : Shape :=
  match arg.toList with
  | '-' :: '-' :: [] => .terminator
  | '-' :: '-' :: cs =>
      let name := String.ofList (cs.takeWhile (· != '='))
      match cs.dropWhile (· != '=') with
      | [] => .long name none
      | _ :: value => .long name (some (String.ofList value))
  | '-' :: c :: cs => .cluster (c :: cs)
  | _ => .plain

/-- A switch as an item, unless it ends the reading. -/
def Switch.item : Switch → Except Stop Item
  | help => .error .help
  | version => .error .version
  | s => .ok (.switch s)

/-- Some items, and the setting that still waits for its value. -/
abbrev Items := List Item × Option Setting

/-- The items of a long option. -/
def longItems (name : String) (value : Option String) : Except Stop Items :=
  match OptionName.ofLong? name, value with
  | none, _ => .error (.usage (.unknownOption ("--" ++ name)))
  | some (.setting s), none => .ok ([], some s)
  | some (.setting s), some value => .ok ([.setting s (some value)], none)
  | some (.switch s), none =>
      match s.item with
      | .error stop => .error stop
      | .ok item => .ok ([item], none)
  | some (.switch s), some _ => .error (.usage (.unexpectedValue (.switch s)))

/-- The value in the rest of a cluster; one `=` in front does not belong to it. -/
def attachedValue : List Char → String
  | '=' :: cs => String.ofList cs
  | cs => String.ofList cs

/-- The items of a cluster of letters. -/
def clusterItems : List Char → Except Stop Items
  | [] => .ok ([], none)
  | c :: cs =>
      match OptionName.ofLetter? c with
      | none => .error (.usage (.unknownOption (String.ofList ['-', c])))
      | some (.setting s) =>
          if cs.isEmpty then .ok ([], some s)
          else .ok ([.setting s (some (attachedValue cs))], none)
      | some (.switch s) =>
          match s.item, clusterItems cs with
          | .error stop, _ => .error stop
          | .ok _, .error stop => .error stop
          | .ok item, .ok (items, waiting) => .ok (item :: items, waiting)

/-- The items of arguments that are file names only. -/
def fileItems (seen : Bool) : List String → Except Stop (List Item)
  | [] => .ok []
  | arg :: args =>
      if seen then .error (.usage (.extraFile arg))
      else
        match fileItems true args with
        | .error stop => .error stop
        | .ok items => .ok (.file arg :: items)

/-- A setting that has not got its value. -/
def unanswered (waiting : Option Setting) : List Item :=
  match waiting with
  | none => []
  | some s => [.setting s none]

/-- The items of some arguments, given the setting that waits for its value and
whether a file name has been seen. -/
def readItems (waiting : Option Setting) (seen : Bool) : List String → Except Stop (List Item)
  | [] => .ok (unanswered waiting)
  | arg :: args =>
      match Shape.ofArg arg with
      | .plain =>
          match waiting with
          | some s =>
              match readItems none seen args with
              | .error stop => .error stop
              | .ok items => .ok (.setting s (some arg) :: items)
          | none =>
              if seen then .error (.usage (.extraFile arg))
              else
                match readItems none true args with
                | .error stop => .error stop
                | .ok items => .ok (.file arg :: items)
      | .terminator =>
          match fileItems seen args with
          | .error stop => .error stop
          | .ok items => .ok (unanswered waiting ++ items)
      | .long name value =>
          match longItems name value with
          | .error stop => .error stop
          | .ok (found, waiting') =>
              match readItems waiting' seen args with
              | .error stop => .error stop
              | .ok items => .ok (unanswered waiting ++ found ++ items)
      | .cluster letters =>
          match clusterItems letters with
          | .error stop => .error stop
          | .ok (found, waiting') =>
              match readItems waiting' seen args with
              | .error stop => .error stop
              | .ok items => .ok (unanswered waiting ++ found ++ items)

/-- How a source is assembled: where it is read from and written to, and how. -/
structure Options where
  input : String
  output : String
  format : WordFormat
  explain : Bool
  symbols : Bool
deriving DecidableEq

/-- What the arguments ask for. -/
inductive Request where
  | help
  | version
  | decode (word : String)
  | assemble (options : Options)
deriving DecidableEq

/-- The values of a setting, in order. -/
def settingValues (s : Setting) (items : List Item) : List (Option String) :=
  items.filterMap fun
    | .setting t value => if t = s then some value else none
    | _ => none

/-- The value of a setting that is given at most once, and then with a value. -/
def settingValue? (s : Setting) (items : List Item) : Except UsageError (Option String) :=
  match settingValues s items with
  | [] => .ok none
  | [some value] => .ok (some value)
  | [none] => .error (.missingValue s)
  | _ => .error (.repeatedOption (.setting s))

/-- Whether a switch is given, which happens at most once. -/
def switchValue (s : Switch) (items : List Item) : Except UsageError Bool :=
  match items.countP (· == .switch s) with
  | 0 => .ok false
  | 1 => .ok true
  | _ => .error (.repeatedOption (.switch s))

/-- The file name among some items. -/
def filePath? (items : List Item) : Option String :=
  items.findSome? fun
    | .file path => some path
    | _ => none

/-- The format of a name. -/
def formatValue (name : String) : Except UsageError WordFormat :=
  match WordFormat.ofName? name with
  | some format => .ok format
  | none => .error (.badFormat name)

/-- The request that some items make up.  Input and output default to `-`, the
format to `binary`. -/
def Request.ofItems (items : List Item) : Except UsageError Request := do
  let output ← settingValue? .output items
  let formatName ← settingValue? .format items
  let format ← formatValue (formatName.getD "binary")
  let word ← settingValue? .decode items
  let explain ← switchValue .explain items
  let symbols ← switchValue .symbols items
  match word with
  | some word => pure (.decode word)
  | none =>
      pure (.assemble ⟨(filePath? items).getD "-", output.getD "-", format, explain, symbols⟩)

/-- The request of some arguments. -/
def Request.ofArgs (args : List String) : Except UsageError Request :=
  match readItems none false args with
  | .error .help => .ok .help
  | .error .version => .ok .version
  | .error (.usage error) => .error error
  | .ok items => Request.ofItems items

end Command
end Microcode
