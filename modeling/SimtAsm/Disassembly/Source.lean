import SimtAsm.Disassembly.Printer
import Std.Data.ExtTreeMap

namespace SimtAsm

open Std

namespace Disassembly

/-- The address in a branch word, whatever its condition. -/
def branchTarget? (word : Word) : Option Nat :=
  match decode word with
  | .ok d => if d.op = .br then some d.target else none
  | .error _ => none

def labelName (target : Nat) : Text := 'L' :: Numeral.decimal target

/-- Every branch target of the words, with its name. -/
def labels (words : List Word) : ExtTreeMap Nat Text :=
  (words.filterMap branchTarget?).foldl (fun labels target => labels.insert target (labelName target)) ∅

/-- The number of instruction lines: one a word, and padding up to the furthest branch target. -/
def extent (words : List Word) : Nat := (words.filterMap branchTarget?).foldl max words.length

/-- The line that declares the label of `address`, if it has one. -/
def labelLine (labels : ExtTreeMap Nat Text) (address : Nat) : List Text :=
  match labels[address]? with
  | some name => [name ++ ":"]
  | none => []

/-- The instruction line for the word at an address, or for an address behind the last word. A word that does not decode
becomes a NOP with the reason in a comment. -/
def instructionLine (labels : ExtTreeMap Nat Text) : Option Word → Text
  | some word =>
    match decode word with
    | .ok d => "    " ++ d.text (labels[·]?)
    | .error error => "    NOP ; " ++ error.message
  | none => "    NOP ; padding"

/-- The words in order, followed by the padding. -/
def slots (words : List Word) : List (Option Word) :=
  words.map some ++ List.replicate (extent words - words.length) none

/-- The lines of `slots` from `address` on. A label may also stand behind the last one. -/
def linesFrom (labels : ExtTreeMap Nat Text) (address : Nat) : List (Option Word) → List Text
  | [] => labelLine labels address
  | slot :: rest =>
    labelLine labels address ++ instructionLine labels slot :: linesFrom labels (address + 1) rest

def lines (words : List Word) : List Text := linesFrom (labels words) 0 (slots words)

end Disassembly

/-- Source text for a list of words, made to reassemble at the same addresses: each address keeps exactly one instruction
line. -/
def disassemble (words : List Word) : Text := Text.ofLines (Disassembly.lines words)

end SimtAsm
