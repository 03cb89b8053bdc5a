import ContractComposition.Metrics.Command

/-!
# The metrics program

The metrics command on the files and the standard streams of a computer.
-/

namespace ContractComposition

namespace Metrics

/-- The outcome of an action on files, with the words of the system if it fails. -/
def outcome (action : IO Unit) : IO (Except String Unit) := do
  return (← action.toBaseIO).mapError toString

instance : Console IO where
  printLine := IO.println
  complain := IO.eprintln
  createFolders path := outcome (IO.FS.createDirAll path)
  writeFile path content := outcome (IO.FS.writeFile path content)

end Metrics

end ContractComposition

/-- The program. -/
def main (args : List String) : IO UInt32 :=
  ContractComposition.Metrics.command args
