import Microcode.Command.Run

/-!
# A command in a directory of its own

`Directory` is a standard input and a directory that holds files and no other
directory.  `Directory.host` lets the command run in it.  A path names a file
of the directory by the name itself, possibly after some steps `./` that stay
where they are; nothing is found on any other path.
-/

namespace Microcode
namespace Command

/-- A standard input and the files of a directory, each with its content. -/
structure Directory where
  stdin : ByteArray
  files : List (String × ByteArray)

instance : DecidableEq Directory
  | ⟨stdin, files⟩, ⟨stdin', files'⟩ =>
      have : DecidableEq ByteArray := ByteArray.instDecidableEq
      decidable_of_iff (stdin = stdin' ∧ files = files') (by rw [Directory.mk.injEq])

namespace Directory

/-- Whether a step of a path stays where it is. -/
def isIdle (step : List Char) : Bool :=
  step.isEmpty || step == ['.']

/-- The name of the file of the directory that a path can stand for.  A path from
the root, one that leaves the directory and one through another directory
stand for none. -/
def fileName? (path : String) : Option String :=
  if path.toList.head? = some '/' then none
  else
    match (path.toList.splitOn '/').dropWhile isIdle with
    | [name] => if name = ['.', '.'] then none else some (String.ofList name)
    | _ => none

/-- The content of the file that a path stands for. -/
def content? (d : Directory) (path : String) : Option ByteArray :=
  (fileName? path).bind fun name => d.files.lookup name

/-- Replaces the content of a file in a list of files, or adds the file at the end. -/
def replace (name : String) (content : ByteArray) :
    List (String × ByteArray) → List (String × ByteArray)
  | [] => [(name, content)]
  | (other, old) :: files =>
      if other = name then (name, content) :: files
      else (other, old) :: replace name content files

/-- The directory after a file has been written. -/
def write (d : Directory) (name : String) (content : ByteArray) : Directory :=
  { d with files := replace name content d.files }

/-- The directory as a host. -/
def host : Host (StateM Directory) where
  stdin := fun d => (d.stdin, d)
  read := fun path d =>
    match d.content? path with
    | some content => (.ok content, d)
    | none => (.error .missing, d)
  write := fun path text d =>
    match fileName? path with
    | some name => (.ok (), d.write name text.toUTF8)
    | none => (.error .missing, d)

/-- Runs the command in a directory: its outcome, and the directory afterwards. -/
def run (d : Directory) (args : List String) : Exit × Directory :=
  (Command.run host args).run d

end Directory
end Command
end Microcode
