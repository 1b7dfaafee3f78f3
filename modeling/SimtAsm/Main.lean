import SimtAsm.Command.Assemble
import SimtAsm.Command.Inspect

namespace SimtAsm

namespace Main

/-- The causes a run reports; whatever else keeps a file away counts as its absence. -/
def cause : IO.Error → FileError
  | .inappropriateType _ code _ => if code = 20 then .notDirectory else .isDirectory
  | _ => .notFound

instance : MonadHost IO where
  readFile path := do
    try
      let bytes ← IO.FS.readBinFile (String.ofList path)
      return .ok bytes.data.toList
    catch error => return .error (cause error)
  writeFile path bytes := do
    try
      IO.FS.writeBinFile (String.ofList path) ⟨bytes.toArray⟩
      return .ok ()
    catch error => return .error (cause error)
  print text := do (← IO.getStdout).putStr (String.ofList text)
  printError text := do (← IO.getStderr).putStr (String.ofList text)

/-- A command line that is none ends with exit code 2. -/
def refuse : IO UInt32 := do
  printError "usage: asm SOURCE [options] | disasm BINFILE [options] (range | analyze) [options]\n"
  return 2

def finish : Except Failure Unit → IO UInt32
  | .ok () => return 0
  | .error failure => do
    printError failure.message
    return 1

def runAssemble (args : List Text) : IO UInt32 := do
  match AssembleCommand.Options.ofArgs? args with
  | none => refuse
  | some options => finish (← (AssembleCommand.main options).run)

/-- An overflow in the middle of a run ends with exit code 101. -/
def runInspect (args : List Text) : IO UInt32 := do
  match InspectCommand.Options.ofArgs? args with
  | none => refuse
  | some options =>
    match ← (InspectCommand.main options).run.run with
    | .ok ended => finish ended
    | .error overflow =>
      printError (overflow.message ++ "\n")
      return 101

end Main

end SimtAsm

def main (args : List String) : IO UInt32 :=
  match args with
  | "asm" :: rest => SimtAsm.Main.runAssemble (rest.map String.toList)
  | "disasm" :: rest => SimtAsm.Main.runInspect (rest.map String.toList)
  | _ => SimtAsm.Main.refuse
