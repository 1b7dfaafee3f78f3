import SimtAsm.Isa.Decode
import SimtAsm.Text.Numeral

namespace SimtAsm

open Numeral

namespace Decoded

def register (n : Nat) : Text := 'R' :: decimal n

/-- The instruction text; a branch target without a name is written as a number. -/
def text (name? : Nat → Option Text) (d : Decoded) : Text :=
  match d.op.layout with
  | .branch => d.op.mnemonic ++ d.cond.letters ++ " " ++ (name? d.target).getD (decimal d.target)
  | .regImm => d.op.mnemonic ++ " " ++ register d.rd ++ ", #" ++ signedDecimal d.imm
  | .srcPair => d.op.mnemonic ++ " " ++ register d.rs ++ ", " ++ register d.rt
  | .triple => d.op.mnemonic ++ " " ++ register d.rd ++ ", " ++ register d.rs ++ ", " ++ register d.rt
  | .dstSrc => d.op.mnemonic ++ " " ++ register d.rd ++ ", " ++ register d.rs
  | .bare => d.op.mnemonic

/-- The instruction text with every branch target written as a number. -/
def plainText (d : Decoded) : Text := d.text fun _ => none

end Decoded

end SimtAsm
