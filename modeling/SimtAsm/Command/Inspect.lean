import SimtAsm.Command.Args
import SimtAsm.Command.Run
import SimtAsm.Image.Report

namespace SimtAsm

open Std

namespace InspectCommand

inductive ReportFormat
  | text
  | json
  deriving DecidableEq, Repr

def ReportFormat.ofName? (name : Text) : Option ReportFormat :=
  if name = ("text" : Text) then some .text else if name = ("json" : Text) then some .json else none

/-- Addresses are kept as written: they are read after the image is loaded. -/
inductive Action
  | window (start stop : Text) (showBits : Bool)
  | follow (entries : List Text) (format : ReportFormat) (listing : Bool)
  deriving DecidableEq, Repr

structure Options where
  input : Text
  base : Nat
  skip : Nat
  length? : Option Nat
  action : Action
  output? : Option Text
  deriving DecidableEq, Repr

def grammar : Grammar where
  options := [⟨"--base", none, .one⟩, ⟨"--skip", none, .one⟩, ⟨"--len", none, .one⟩]
  subcommands := ["range", "analyze"]

def rangeGrammar : Grammar where
  options := [⟨"--show-bytes", none, .flag⟩, ⟨"--out", none, .one⟩]
  subcommands := []

def analyzeGrammar : Grammar where
  options :=
    [⟨"--entry", none, .many⟩, ⟨"--format", none, .one⟩, ⟨"--listing", none, .flag⟩, ⟨"--out", none, .one⟩]
  subcommands := []

/-- A decimal number of words; refused when it is none. -/
def count? (text : Text) : Option Nat := (Numeral.readUnsigned 10 addressLimit text).toOption

/-- An optional number of words; refused when it is given and is none. -/
def optionalCount? : Option Text → Option (Option Nat)
  | none => some none
  | some text => (count? text).map some

/-- The action of `range` with its output file. -/
def rangeAction? (args : List Text) : Option (Action × Option Text) := do
  let line ← rangeGrammar.read args
  let [start, stop] := line.positionals | none
  let showBits ← line.flag? "--show-bytes"
  let output? ← line.setting? "--out"
  return (.window start stop showBits, output?)

/-- The action of `analyze` with its output file. -/
def analyzeAction? (args : List Text) : Option (Action × Option Text) := do
  let line ← analyzeGrammar.read args
  let [] := line.positionals | none
  let format? ← line.setting? "--format"
  let format ← ReportFormat.ofName? (format?.getD "text")
  let listing ← line.flag? "--listing"
  let output? ← line.setting? "--out"
  return (.follow (line.values "--entry") format listing, output?)

/-- The options of a command line, if it is one. -/
def Options.ofArgs? (args : List Text) : Option Options := do
  let line ← grammar.read args
  let [input] := line.positionals | none
  let base? ← optionalCount? (← line.setting? "--base")
  let skip? ← optionalCount? (← line.setting? "--skip")
  let length? ← optionalCount? (← line.setting? "--len")
  let (name, rest) ← line.subcommand?
  let (action, output?) ← if name = ("range" : Text) then rangeAction? rest else analyzeAction? rest
  return { input, base := base?.getD 0, skip := skip?.getD 0, length?, action, output? }

def readAddress (text : Text) : Except Failure Nat :=
  match Address.ofText text with
  | .ok address => .ok address
  | .error error => .error (.ofCause error.message)

/-- Entry addresses in ascending order without repetitions; the base of the image if none are given. -/
def entryAddresses (image : Image) (entries : List Text) : Except Failure (List Nat) :=
  if entries.isEmpty then .ok [image.base]
  else do
    let addresses ← entries.mapM readAddress
    return (ExtTreeSet.ofList addresses).toList

def windowText (image : Image) (start stop : Text) (showBits : Bool) : Except Failure Text := do
  let start ← readAddress start
  let stop ← readAddress stop
  if stop < start then .error (.ofCause "end must be >= start")
  else return Text.ofLines (image.window showBits start (stop - start))

def reportText (image : Image) (report : Report) (listing : Bool) : ReportFormat → Text
  | .json => report.toJson.document
  | .text => report.summary image listing

/-- What an action prints for an image. -/
def Action.print (image : Image) : Action → Checked (Except Failure Text)
  | window start stop showBits => .ok (windowText image start stop showBits)
  | follow entries format listing =>
    match entryAddresses image entries with
    | .error failure => .ok (.error failure)
    | .ok addresses => do
      let report ← image.follow addresses
      return .ok (reportText image report listing format)

section Main

variable {m : Type → Type} [Monad m] [MonadHost m]

def readImage (options : Options) : ExceptT Failure m Image := do
  match ← readFile options.input with
  | .error error => throw (.ofCause error.message)
  | .ok bytes =>
    match Image.ofBytes bytes options.base options.skip options.length? with
    | .error error => throw (.ofCause error.message)
    | .ok image => return image

/-- The run from the image file to the output. An overflow stops it where it happens. -/
def main (options : Options) : ExceptT Failure (ExceptT Overflow m) Unit := do
  let image ← readImage options
  let text ← ExceptT.mk (ExceptT.mk (pure (options.action.print image)))
  emit (fun _ => none) options.output? text

end Main

def run (options : Options) (files : Files) : Checked RunResult :=
  let (ended, host) := exec (main options).run ⟨files, [], []⟩
  ended.map (.ofEnd host)

end InspectCommand

end SimtAsm
