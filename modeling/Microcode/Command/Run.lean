import Microcode.Command.Options
import Microcode.Report
import Microcode.Word.Decode

/-!
# Running the command

`Command.run` performs the request of some arguments on a `Host`, which reads
the standard input and files and writes files.  It returns the exit status and
what goes to the standard output and to the standard error.

Nothing is written before the whole source has been assembled: if the status is
not zero, the standard output is empty and no file has been written.
-/

namespace Microcode
namespace Command

/-- Why a file cannot be read or written. -/
inductive FileFault where
  | missing
  | other (text : String)
deriving DecidableEq

/-- The wording of a file fault. -/
def FileFault.message : FileFault → String
  | missing => "No such file or directory (os error 2)"
  | other text => text

/-- Where the command runs. -/
structure Host (m : Type → Type) where
  /-- All of the standard input. -/
  stdin : m ByteArray
  /-- The content of a file. -/
  read : String → m (Except FileFault ByteArray)
  /-- Replaces the content of a file, creating it if necessary. -/
  write : String → String → m (Except FileFault Unit)

/-- The outcome of the command. -/
structure Exit where
  status : Nat
  stdout : String
  stderr : String
deriving DecidableEq

namespace Exit

/-- A successful end. -/
def success (stdout stderr : String) : Exit :=
  ⟨0, stdout, stderr⟩

/-- A failure with a cause; `printed` has already gone to the standard error. -/
def failure (printed context cause : String) : Exit :=
  ⟨1, "", printed ++ "Error: " ++ context ++ "\n\nCaused by:\n    " ++ cause ++ "\n"⟩

end Exit

/-- The name and version of the program. -/
def versionText : String :=
  "MIC-1 microassembler 1.0.0\n"

/-- How the program is called. -/
def helpText : String :=
  versionText ++
    "\nUSAGE:\n    [OPTIONS] [FILE]\n" ++
    "\nARGS:\n" ++
    "    <FILE>    Microprogram source ('-' for stdin) [default: -]\n" ++
    "\nOPTIONS:\n" ++
    "    -d, --decode <WORD>      Decode a 32-bit binary control word and exit\n" ++
    "    -f, --format <FORMAT>    Textual rendering of each control word [default: binary]\n" ++
    "                             [possible values: binary, literal, hex, decimal]\n" ++
    "    -h, --help               Print help information\n" ++
    "    -o, --output <FILE>      Output file ('-' for stdout) [default: -]\n" ++
    "        --symbols            Print the label table to stderr\n" ++
    "    -V, --version            Print version information\n" ++
    "    -x, --explain            List the fields of each control word\n"

/-- A word on its line, and its field listing and an empty line if asked for. -/
def wordText (format : WordFormat) (explain : Bool) (w : ControlWord) : String :=
  format.render w ++ "\n" ++ (if explain then w.fields.listing ++ "\n" else "")

/-- The words of an assembly as they are written. -/
def wordsText (format : WordFormat) (explain : Bool) (words : List ControlWord) : String :=
  String.join (words.map (wordText format explain))

/-- A label and its address on a line. -/
def symbolLine (entry : String × Nat) : String :=
  entry.1 ++ " " ++ entry.2.repr ++ "\n"

/-- The labels and their addresses, a line for each. -/
def symbolsText (labels : LabelTable) : String :=
  String.join (labels.entries.map symbolLine)

/-- The outcome of decoding a word. -/
def decodeExit (text : String) : Exit :=
  match ControlWord.decode text with
  | .ok word => .success word.fields.listing ""
  | .error error => .failure "" ("Not a control word: " ++ text) error.message

/-- Bytes as text, or the outcome of a failed reading. -/
def sourceOfBytes (name context : String) (bytes : ByteArray) : Except Exit Source :=
  match String.fromUTF8? bytes with
  | some text => .ok ⟨name, text⟩
  | none => .error (.failure "" context "stream did not contain valid UTF-8")

/-- The outcome of a failed assembly. -/
def failureExit (source : Source) : Failure → Exit
  | .errors errors =>
      ⟨1, "",
        Report.render source errors ++ "Error: Failed to assemble " ++ source.name ++ "\n"⟩
  | .defect cause => ⟨101, "", cause.message ++ "\n"⟩

section Running

variable {m : Type → Type} [Monad m]

/-- Reads the source: the standard input for `-`, else a file. -/
def readSource (host : Host m) (input : String) : m (Except Exit Source) := do
  if input = "-" then
    let bytes ← host.stdin
    pure (sourceOfBytes "<stdin>" "Failed to read from stdin" bytes)
  else
    let context := "Failed to open for reading: " ++ input
    match ← host.read input with
    | .ok bytes => pure (sourceOfBytes input context bytes)
    | .error fault => pure (.error (.failure "" context fault.message))

/-- Writes a text: to the standard output for `-`, else to a file. -/
def writeOutput (host : Host m) (output text stderr : String) : m Exit := do
  if output = "-" then
    pure (.success text stderr)
  else
    match ← host.write output text with
    | .ok _ => pure (.success "" stderr)
    | .error fault =>
        pure (.failure stderr ("Failed to open for writing: " ++ output) fault.message)

/-- Assembles as the options say. -/
def runAssemble (host : Host m) (options : Options) : m Exit := do
  match ← readSource host options.input with
  | .error exit => pure exit
  | .ok source =>
      match source.assemble with
      | .error failure => pure (failureExit source failure)
      | .ok assembly =>
          let stderr := if options.symbols then symbolsText assembly.labels else ""
          let text := wordsText options.format options.explain assembly.words
          writeOutput host options.output text stderr

/-- Performs a request. -/
def perform (host : Host m) : Request → m Exit
  | .help => pure (.success helpText "")
  | .version => pure (.success versionText "")
  | .decode word => pure (decodeExit word)
  | .assemble options => runAssemble host options

/-- Runs the command with some arguments. -/
def run (host : Host m) (args : List String) : m Exit :=
  match Request.ofArgs args with
  | .error error => pure ⟨2, "", "error: " ++ error.message ++ "\n"⟩
  | .ok request => perform host request

end Running
end Command
end Microcode
