import SimtAsm.Assembly.Listing
import SimtAsm.Command.Args
import SimtAsm.Command.Run

namespace SimtAsm

namespace AssembleCommand

inductive Format
  | text (format : ListingFormat)
  /-- Raw words with the low byte first. It needs an output file and every instruction assembled. -/
  | binary
  deriving DecidableEq, Repr

def Format.ofName? (name : Text) : Option Format :=
  if name = ("listing" : Text) then some (.text .listing)
  else if name = ("verbose" : Text) then some (.text .verbose)
  else if name = ("hex" : Text) then some (.text .hex)
  else if name = ("json" : Text) then some (.text .json)
  else if name = ("bin" : Text) then some .binary
  else none

structure Options where
  source : Text
  output? : Option Text
  format : Format
  strict : Bool
  deriving DecidableEq, Repr

def grammar : Grammar where
  options := [⟨"--output", some "-o", .one⟩, ⟨"--format", some "-f", .one⟩, ⟨"--strict", none, .flag⟩]
  subcommands := []

/-- The options of a command line, if it is one. Paths are not empty. -/
def Options.ofArgs? (args : List Text) : Option Options := do
  let line ← grammar.read args
  let [source] := line.positionals | none
  let output? ← line.setting? "--output"
  let format? ← line.setting? "--format"
  let strict ← line.flag? "--strict"
  let format ← Format.ofName? (format?.getD "listing")
  if source = [] ∨ output? = some [] then none else some { source, output?, format, strict }

def failedCount (diagnostics : List Diagnostic) : Failure :=
  .ofCause (Numeral.decimal diagnostics.length ++ " instruction(s) failed to assemble")

section Main

variable {m : Type → Type} [Monad m] [MonadHost m]

def readSource (path : Text) : ExceptT Failure m Text := do
  let unreadable (error : FileError) : Failure := ⟨some ("reading " ++ path), error.message⟩
  match ← readFile path with
  | .error error => throw (unreadable error)
  | .ok bytes =>
    match Text.ofUtf8? bytes with
    | none => throw (unreadable .notUtf8)
    | some source => return source

def note (diagnostic : Diagnostic) : Text := "error: " ++ diagnostic.message ++ "\n"

/-- Strict options refuse a program with a faulty instruction. -/
def ensureAllowed (options : Options) (program : Program) : ExceptT Failure m Unit :=
  if options.strict ∧ program.diagnostics ≠ [] then throw (failedCount program.diagnostics) else return ()

/-- Puts an assembled program out as the options ask for. -/
def deliver (options : Options) (program : Program) : ExceptT Failure m Unit :=
  let writing (path : Text) : Option Text := some ("writing " ++ path)
  match options.format with
  | .binary =>
    match options.output? with
    | none => throw (.ofCause "--format bin requires --output")
    | some path =>
      match program.words with
      | .error diagnostics => throw (failedCount diagnostics)
      | .ok words => save (writing path) path (Word.toBytes words)
  | .text format => emit writing options.output? (program.render format)

/-- The run from the source file to the output. Faulty instructions are noted before anything is made of them. -/
def main (options : Options) : ExceptT Failure m Unit := do
  let source ← readSource options.source
  match assemble source with
  | .error error => throw (.ofCause error.message)
  | .ok program =>
    forM program.diagnostics fun diagnostic => printError (note diagnostic)
    ensureAllowed options program
    deliver options program

end Main

def run (options : Options) (files : Files) : RunResult :=
  let (ended, host) := exec (main options) ⟨files, [], []⟩
  .ofEnd host ended

end AssembleCommand

end SimtAsm
