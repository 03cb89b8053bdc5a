import ContractComposition.Metrics.FileTree
import ContractComposition.Metrics.Report

/-!
# The metrics command

Without arguments the command prints the report. With an argument it writes the report to the file
of that name and creates the folders on the way to it. Anything that goes wrong is told, and the
exit code is then 1.

The command is written for every system that can do what is asked of it (`Metrics.Console`).
`Metrics.run` gives its effect on a tree of files.
-/

namespace ContractComposition

namespace Metrics

/-- What the command asks of the system that it runs on. A system that cannot do something with a
file says why. -/
class Console (m : Type → Type) where
  /-- Prints a line. -/
  printLine : String → m Unit
  /-- Tells what went wrong. -/
  complain : String → m Unit
  /-- Creates the folder with a path, and the folders that are missing on the way to it. -/
  createFolders : String → m (Except String Unit)
  /-- Writes a text to the file with a path, over an earlier one. -/
  writeFile : String → String → m (Except String Unit)

section Command

variable {m : Type → Type} [Monad m] [Console m]

/-- Does something with a file; a failure is told with the given words in front. -/
def attempt (words : String) (action : m (Except String Unit)) : ExceptT String m Unit :=
  ExceptT.mk do
    let outcome ← action
    return outcome.mapError fun reason => words ++ ": " ++ reason

/-- Saves a text to a file, in folders that are created where they are missing. -/
def save (path text : String) : ExceptT String m Unit := do
  if let some parent := Path.parent? path then
    attempt ("failed to create `" ++ parent ++ "`") (Console.createFolders parent)
  attempt ("failed to write `" ++ path ++ "`") (Console.writeFile path text)

/-- Prints the report, or saves it to the file that the first argument names. -/
def deliver (args : List String) : ExceptT String m Unit := do
  let text ← MonadExcept.ofExcept report
  match args with
  | [] => ExceptT.lift (Console.printLine text)
  | path :: _ => save path text

/-- The command with some arguments, which gives the exit code: zero for success. -/
def command (args : List String) : m UInt32 := do
  match ← (deliver args).run with
  | .ok () => return 0
  | .error message =>
    Console.complain message
    return 1

end Command

/-- What the command can change. -/
structure World where
  /-- What has been printed. -/
  printed : String := ""
  /-- The files. -/
  files : FileTree

namespace World

/-- Changes the files; where this cannot be done, nothing happens. Why it cannot be done is not part
of the model. -/
def change (f : FileTree → Option FileTree) : StateM World (Except String Unit) :=
  modifyGet fun world =>
    match f world.files with
    | some files => (.ok (), { world with files := files })
    | none => (.error "", world)

instance : Console (StateM World) where
  printLine line := modify fun world => { world with printed := world.printed ++ line ++ "\n" }
  complain _ := pure ()
  createFolders path := change fun files => files.makeFolders? path
  writeFile path content := change fun files => files.write? path content

end World

/-- The effect of a command. -/
structure Effect where
  /-- The exit code: zero for success. -/
  exitCode : UInt32
  /-- What was printed. -/
  printed : String
  /-- The files afterwards. -/
  files : FileTree
deriving Inhabited

/-- Runs the command with some arguments on a tree of files. -/
def run (args : List String) (files : FileTree) : Effect :=
  let ended := (command args : StateM World UInt32).run { files := files }
  ⟨ended.1, ended.2.printed, ended.2.files⟩

end Metrics

end ContractComposition
