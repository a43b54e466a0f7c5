import Minifier.Command.Arguments
import Minifier.Config
import Minifier.Report
import Minifier.Tree.Document

/-!
# Running a command

What a command does, given a way to get at files (`Files`). First the settings are read, then the
program; then the pass is done, and the result written. An error ends the run with a report on
standard output and with the error's number.
-/

namespace Minifier.Command

/-- A way to get at files. What fails does so with a reason. -/
structure Files (m : Type → Type) where
  read : String → m (Except String String)
  write : String → String → m (Except String Unit)
  /-- all of standard input -/
  input : m (Except String String)

/-- How a command ends. -/
structure Ending where
  code : Nat
  /-- what is written to standard output -/
  output : String := ""
  /-- what is written to standard error -/
  complaint : String := ""
deriving Repr

/-- The name and the version of the command. -/
def version : String := "estrim 0.1.0\n"

/-- How to use the command. -/
def usage : String :=
  "Usage: estrim [OPTIONS] <mangle|optimize|minify> [OPTIONS] [INPUT]\n\n" ++
  "Passes:\n" ++
  "  mangle      rename declared bindings to short generated names\n" ++
  "  optimize    fold constant expressions and drop unreachable statements\n" ++
  "  minify      optimize, then mangle\n\n" ++
  "Options:\n" ++
  "      --config <FILE>         JSON document with settings\n" ++
  "  -o, --output <FILE>         write the result here\n" ++
  "      --compact               write the result on one line\n" ++
  "      --log-level <LEVEL>     trace, debug, info, warn or error\n" ++
  "      --log-format <FORMAT>   text or json\n" ++
  "      --reserved <NAME>       leave a name alone (mangle, minify)\n" ++
  "      --seed <NUMBER>         choose another order of letters (mangle, minify)\n" ++
  "  -h, --help                  show this text\n" ++
  "  -V, --version               show the version\n"

variable {m : Type → Type} [Monad m]

/-- The name of standard input in messages. -/
def stdinName : String := "<stdin>"

/-- A failure of access to a file. -/
def fileError {α : Type} (path : String) (result : Except String α) : Except Error α :=
  result.mapError fun reason => .file path reason

/-- Read the settings of a run. -/
def readConfig (files : Files m) (inv : Invocation) : ExceptT Error m Config := do
  match inv.config with
  | none => pure {}
  | some path =>
    let text ← liftExcept (fileError path (← files.read path))
    liftExcept (Config.read text)
where
  /-- An outcome as a step of the run. -/
  liftExcept {α : Type} (result : Except Error α) : ExceptT Error m α := ExceptT.mk (pure result)

/-- Read the program of a run. -/
def readProgram (files : Files m) (inv : Invocation) : ExceptT Error m Node := do
  let origin := inv.input.getD stdinName
  let result ← match inv.input with
    | some path => files.read path
    | none => files.input
  let text ← ExceptT.mk (pure (fileError origin result))
  ExceptT.mk (pure (Node.read text origin))

/-- Write the result of a run to its file; what goes to standard output instead is returned. -/
def writeResult (files : Files m) (inv : Invocation) (text : String) : ExceptT Error m String := do
  match inv.output with
  | none => pure text
  | some path =>
    ExceptT.mk (return fileError path (← files.write path text))
    pure ""

/-- Do what a command line says; the text for standard output is returned. -/
def Invocation.run (files : Files m) (inv : Invocation) : ExceptT Error m String := do
  let config ← readConfig files inv
  let options := (config.override inv.reserved inv.seed).mangle
  let tree ← readProgram files inv
  let (tree, _) ← ExceptT.mk (pure (inv.pass.apply options tree))
  writeResult files inv (tree.render (inv.compact || config.compact))

/-- Run a command with the given arguments. -/
def execute (files : Files m) (args : List String) : m Ending := do
  match Invocation.ofArguments args with
  | .error .help => pure { code := 0, output := usage }
  | .error .version => pure { code := 0, output := version }
  | .error .usage => pure { code := 2, complaint := usage }
  | .ok inv =>
    match ← (inv.run files).run with
    | .ok output => pure { code := 0, output }
    | .error error => pure { code := error.code, output := error.report.document false }

end Minifier.Command
