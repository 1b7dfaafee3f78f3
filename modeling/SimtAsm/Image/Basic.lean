import SimtAsm.Disassembly.Printer
import SimtAsm.Image.Address

namespace SimtAsm

structure Image where
  base : Nat
  words : List Word
  deriving DecidableEq, Repr

namespace Image

inductive LoadError
  | oddLength
  | skipBeyondEnd
  | lengthBeyondEnd
  deriving DecidableEq, Repr

def LoadError.message : LoadError → Text
  | oddLength => "image has an odd number of bytes"
  | skipBeyondEnd => "--skip exceeds image size"
  | lengthBeyondEnd => "--len exceeds remaining words after skip"

/-- The words of a file behind the first `skip` ones, all of them or the first `length?`, placed at `base`. -/
def ofBytes (bytes : List UInt8) (base skip : Nat) (length? : Option Nat) : Except LoadError Image :=
  let words := Word.listOfBytes bytes
  if bytes.length % 2 ≠ 0 then .error .oddLength
  else if words.length < skip then .error .skipBeyondEnd
  else match length? with
    | none => .ok ⟨base, words.drop skip⟩
    | some length =>
      if words.length - skip < length then .error .lengthBeyondEnd
      else .ok ⟨base, (words.drop skip).take length⟩

def word? (image : Image) (address : Nat) : Option Word :=
  if address < image.base then none else image.words[address - image.base]?

/-- The first address behind the image. -/
def pastEnd (image : Image) : Checked Nat := addAddress image.base image.words.length

/-- Whether the image has a word at an address. The end is only computed for addresses from the base on. -/
def isMapped (image : Image) (address : Nat) : Checked Bool :=
  if address < image.base then .ok false
  else do
    let pastEnd ← image.pastEnd
    return decide (address < pastEnd)

/-- One word of the image: its address, its bits if asked for, and its instruction. A word that does not
decode is shown as data. -/
def line? (image : Image) (showBits : Bool) (name? : Nat → Option Text) (address : Nat) : Option Text :=
  match image.word? address with
  | none => none
  | some word =>
    let text :=
      match decode word with
      | .ok d => d.text name?
      | .error _ => ".word 0x" ++ word.hex
    let bits := if showBits then word.binary ++ "  " else []
    some (Address.text address ++ ": " ++ bits ++ text)

/-- The lines of `count` addresses from `start` on. The first address without a word is marked and ends them. -/
def window (image : Image) (showBits : Bool) (start : Nat) : Nat → List Text
  | 0 => []
  | count + 1 =>
    match image.line? showBits (fun _ => none) start with
    | some line => line :: window image showBits (start + 1) count
    | none => [Address.text start ++ ": <oob>"]

end Image

end SimtAsm
