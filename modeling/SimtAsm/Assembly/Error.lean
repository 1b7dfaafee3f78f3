import SimtAsm.Isa.Op
import SimtAsm.Text.Numeral
import SimtAsm.Word.Integer

namespace SimtAsm

open Numeral

namespace Immediate

/-- The range of the immediate field, computed in 64 bits. -/
def bounds : Int × Int := ((IntType.twosComplement 64).signedBounds Field.immediate.bits).toOption.get rfl

def least : Int := bounds.1

def greatest : Int := bounds.2

theorem least_eq : least = -128 := rfl

theorem greatest_eq : greatest = 127 := rfl

end Immediate

/-- Why an instruction does not assemble. -/
inductive EncodeError
  | malformedInstruction
  /-- The mnemonic in upper case. -/
  | unknownMnemonic (mnemonic : Text)
  /-- The mnemonic in upper case, and the numbers of operands it takes and was given. -/
  | operandCount (mnemonic : Text) (expected found : Nat)
  /-- The token as written. -/
  | invalidRegister (token : Text)
  /-- The token as written. -/
  | invalidImmediate (token : Text)
  /-- The text behind the number sign, and the width and range of the field. -/
  | immediateRange (value : Text) (bits : Nat) (least greatest : Int)
  | undefinedLabel (label : Text)
  deriving DecidableEq, Repr

def EncodeError.message : EncodeError → Text
  | malformedInstruction => "malformed instruction"
  | unknownMnemonic mnemonic => "unknown mnemonic: " ++ mnemonic
  | operandCount mnemonic expected found =>
    mnemonic ++ " expects " ++ decimal expected ++ " operand(s), got " ++ decimal found
  | invalidRegister token => "invalid or unmapped register: " ++ token
  | invalidImmediate token => "invalid immediate value: " ++ token ++ " (expected #<decimal>)"
  | immediateRange value bits least greatest =>
    "immediate " ++ value ++ " out of range for " ++ decimal bits ++ " bits (min: " ++ signedDecimal least ++ ", max: " ++
      signedDecimal greatest ++ ")"
  | undefinedLabel label => "undefined label: " ++ label

end SimtAsm
