import Microcode.Command.Run

/-!
# The command line program
-/

namespace Microcode

/-- The fault that an operating system error stands for. -/
def fileFault : IO.Error → Command.FileFault
  | .noFileOrDirectory _ _ _ => .missing
  | error => .other error.toString

/-- The operating system as a host. -/
def systemHost : Command.Host IO where
  stdin := do
    let stdin ← IO.getStdin
    let mut bytes := ByteArray.empty
    let mut chunk ← stdin.read 65536
    while !chunk.isEmpty do
      bytes := bytes ++ chunk
      chunk ← stdin.read 65536
    pure bytes
  read := fun path => do
    try
      let bytes ← IO.FS.readBinFile path
      pure (.ok bytes)
    catch error =>
      pure (.error (fileFault error))
  write := fun path text => do
    try
      IO.FS.writeFile path text
      pure (.ok ())
    catch error =>
      pure (.error (fileFault error))

end Microcode

/-- Runs the command on the arguments of the process. -/
def main (args : List String) : IO UInt32 := do
  let exit ← Microcode.Command.run Microcode.systemHost args
  (← IO.getStdout).putStr exit.stdout
  (← IO.getStderr).putStr exit.stderr
  pure (UInt32.ofNat exit.status)
