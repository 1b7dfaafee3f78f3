import SimtAsm.Checked
import SimtAsm.Text.Numeral

namespace SimtAsm

namespace Address

/-- A decimal number, or a hexadecimal one behind `0x`, below the limit of addresses. -/
def ofText (text : Text) : Except Numeral.Error Nat :=
  match text.trim with
  | '0' :: 'x' :: digits | '0' :: 'X' :: digits => Numeral.readUnsigned 16 addressLimit digits
  | digits => Numeral.readUnsigned 10 addressLimit digits

/-- Hexadecimal, with two digits at least. -/
def text (address : Nat) : Text := "0x" ++ Numeral.padded 16 2 address

end Address

end SimtAsm
