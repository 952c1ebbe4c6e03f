import GlyphMachine.Command.Run

/-!
# The command-line tool

Runs a command on the files of the disk, prints what it says and ends with its exit code.
-/

namespace GlyphMachine

instance : FileAccess IO where
  read path := do
    try
      return some (← IO.FS.readBinFile path)
    catch _ => return none
  create path := do
    try
      IO.FS.writeBinFile path .empty
      return true
    catch _ => return false
  write path bytes := IO.FS.withFile path .readWrite (·.write bytes)

end GlyphMachine

/-- The tool. -/
def main (args : List String) : IO UInt32 := do
  let outcome ← GlyphMachine.Command.run GlyphMachine.Machine.ampleFuel args
  IO.print outcome.stdout
  IO.eprint outcome.stderr
  return outcome.exitCode
