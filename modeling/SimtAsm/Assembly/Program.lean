import SimtAsm.Assembly.Instr
import SimtAsm.Assembly.Placement

namespace SimtAsm

open Numeral

/-- One instruction at its address, with its text and the word or error it gave. -/
structure Entry where
  address : Nat
  text : Text
  outcome : Except EncodeError Word

/-- An error and the instruction it belongs to. -/
structure Diagnostic where
  address : Nat
  text : Text
  error : EncodeError
  deriving DecidableEq, Repr

def Diagnostic.message (diagnostic : Diagnostic) : Text :=
  "address " ++ decimal diagnostic.address ++ " ('" ++ diagnostic.text ++ "'): " ++ diagnostic.error.message

namespace Entry

def word? (entry : Entry) : Option Word := entry.outcome.toOption

def diagnostic? (entry : Entry) : Option Diagnostic :=
  match entry.outcome with
  | .ok _ => none
  | .error error => some { address := entry.address, text := entry.text, error }

end Entry

/-- The second pass: one entry for each instruction, from `address` on. -/
def entriesFrom (address : Nat) (symbols : SymbolTable) : List Text → List Entry
  | [] => []
  | text :: rest =>
    { address, text, outcome := encodeLine symbols text } :: entriesFrom (address + 1) symbols rest

structure Program where
  entries : List Entry
  instructions : List Text
  symbols : SymbolTable

namespace Program

def ofPlacement (placement : Placement) : Program where
  entries := entriesFrom 0 placement.symbols placement.instructions
  instructions := placement.instructions
  symbols := placement.symbols

def diagnostics (program : Program) : List Diagnostic := program.entries.filterMap Entry.diagnostic?

def hasErrors (program : Program) : Bool := program.entries.any fun entry => entry.word?.isNone

/-- Every word, or every diagnostic if there is one. -/
def words (program : Program) : Except (List Diagnostic) (List Word) :=
  if program.diagnostics.isEmpty then .ok (program.entries.filterMap Entry.word?)
  else .error program.diagnostics

end Program

/-- A label defined twice stops the assembly, since no address could be trusted then. A faulty instruction does not: its
entry keeps the error in place of a word, and every other entry is what it would have been. -/
def assemble (source : Text) : Except DuplicateLabel Program := do
  let placement ← Placement.ofLines (Source.statements source)
  return Program.ofPlacement placement

end SimtAsm
