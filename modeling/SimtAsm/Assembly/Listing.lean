import SimtAsm.Assembly.Program
import SimtAsm.Text.Json
import SimtAsm.Word.Bytes

namespace SimtAsm

open Numeral

inductive ListingFormat
  /-- Binary words with their source, to paste into a list of program memory. -/
  | listing
  /-- The same behind its address. -/
  | verbose
  /-- Four hexadecimal digits a line. -/
  | hex
  | json
  deriving DecidableEq, Repr

namespace EncodeError

/-- An error as a tag, with its contents if it has some. -/
def toJson : EncodeError → Json
  | malformedInstruction => .string "MalformedInstruction"
  | unknownMnemonic mnemonic => .object [("UnknownMnemonic", .string mnemonic)]
  | operandCount mnemonic expected found =>
    .object [("OperandCount",
      .object [("mnemonic", .string mnemonic), ("expected", .number expected), ("found", .number found)])]
  | invalidRegister token => .object [("InvalidRegister", .string token)]
  | invalidImmediate token => .object [("InvalidImmediateFormat", .string token)]
  | immediateRange value bits least greatest =>
    .object [("ImmediateRange",
      .object [("value", .string value), ("bits", .number bits), ("min", .number least), ("max", .number greatest)])]
  | undefinedLabel label => .object [("UndefinedLabel", .string label)]

end EncodeError

namespace Entry

def toJson (entry : Entry) : Json :=
  let outcome : Text × Json :=
    match entry.outcome with
    | .ok word => ("word", .number word.toNat)
    | .error error => ("error", error.toJson)
  .object [("address", .number entry.address), ("text", .string entry.text), ("outcome", .object [outcome])]

/-- The word in binary, or the mark of a failed instruction. -/
def code (entry : Entry) : Text :=
  match entry.outcome with
  | .ok word => "0b" ++ word.binary
  | .error _ => "ERROR"

def listingLine (entry : Entry) : Text := "        " ++ entry.code ++ ", # " ++ entry.text

def verboseLine (entry : Entry) : Text :=
  "Address " ++ decimal entry.address ++ " (" ++ entry.code ++ "): " ++ entry.text

def hexLine (entry : Entry) : Text :=
  match entry.outcome with
  | .ok word => word.hex.upper
  | .error _ => "????"

end Entry

def Program.render (program : Program) : ListingFormat → Text
  | .listing => Text.ofLines (program.entries.map Entry.listingLine)
  | .verbose => Text.ofLines (program.entries.map Entry.verboseLine)
  | .hex => Text.ofLines (program.entries.map Entry.hexLine)
  | .json => (Json.array (program.entries.map Entry.toJson)).document

end SimtAsm
