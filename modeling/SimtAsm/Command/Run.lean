import SimtAsm.Command.Files

namespace SimtAsm

/-- Why a run fails: a cause, and what was being done if that is said. -/
structure Failure where
  context? : Option Text
  cause : Text
  deriving DecidableEq, Repr

namespace Failure

def ofCause (cause : Text) : Failure := ⟨none, cause⟩

def message (failure : Failure) : Text :=
  match failure.context? with
  | none => "Error: " ++ failure.cause ++ "\n"
  | some context => "Error: " ++ context ++ "\n\nCaused by:\n    " ++ failure.cause ++ "\n"

end Failure

/-- The effects that a command is made of. What fails is reported to the command, which goes on or ends. -/
class MonadHost (m : Type → Type) where
  readFile : Text → m (Except FileError (List UInt8))
  writeFile : Text → List UInt8 → m (Except FileError Unit)
  print : Text → m Unit
  printError : Text → m Unit

export MonadHost (readFile writeFile print printError)

section Commands

variable {m : Type → Type} [Monad m] [MonadHost m]

instance {ε : Type} : MonadHost (ExceptT ε m) where
  readFile path := ExceptT.lift (readFile path)
  writeFile path bytes := ExceptT.lift (writeFile path bytes)
  print text := ExceptT.lift (print text)
  printError text := ExceptT.lift (printError text)

/-- Writes a file; a failure to do so ends the command under this context. -/
def save (context? : Option Text) (path : Text) (bytes : List UInt8) : ExceptT Failure m Unit := do
  match ← writeFile path bytes with
  | .ok () => return ()
  | .error error => throw ⟨context?, error.message⟩

/-- Puts a text into the file of that path, or on standard output if there is none. -/
def emit (context : Text → Option Text) (output? : Option Text) (text : Text) : ExceptT Failure m Unit :=
  match output? with
  | some path => save (context path) path text.toUtf8
  | none => print text

end Commands

/-- A machine as far as a command changes it. -/
structure Host where
  files : Files
  stdout : Text
  stderr : Text

instance : MonadHost (StateM Host) where
  readFile path := fun host => (host.files.read path, host)
  writeFile path bytes := fun host =>
    match host.files.write path bytes with
    | .ok files => (.ok (), { host with files })
    | .error error => (.error error, host)
  print text := fun host => ((), { host with stdout := host.stdout ++ text })
  printError text := fun host => ((), { host with stderr := host.stderr ++ text })

/-- How a command ends on a machine, and the machine behind it. A command that stops early keeps what it did. -/
def exec {ε α : Type} (command : ExceptT ε (StateM Host) α) (host : Host) : Except ε α × Host := command.run.run host

/-- What a run leaves behind. -/
structure RunResult where
  exitCode : Nat
  stdout : Text
  stderr : Text
  files : Files

/-- The end of a run: a failure is reported on standard error, with exit code 1. -/
def RunResult.ofEnd (host : Host) : Except Failure Unit → RunResult
  | .ok () => ⟨0, host.stdout, host.stderr, host.files⟩
  | .error failure => ⟨1, host.stdout, host.stderr ++ failure.message, host.files⟩

end SimtAsm
