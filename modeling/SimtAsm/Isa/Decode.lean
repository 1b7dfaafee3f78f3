import SimtAsm.Isa.Cond
import SimtAsm.Isa.Op
import SimtAsm.Word.Bytes

namespace SimtAsm

/-- The fields of a program word. A field that the layout does not use is zero, and reserved bits are passed
over. -/
structure Decoded where
  word : Word
  op : Op
  rd : Nat := 0
  rs : Nat := 0
  rt : Nat := 0
  imm : Int := 0
  cond : Cond := Cond.never
  target : Nat := 0
  deriving DecidableEq, Repr

/-- A word whose top four bits name no operation. -/
structure UnknownOpcode where
  word : Word
  deriving DecidableEq, Repr

namespace UnknownOpcode

def opcode (error : UnknownOpcode) : Nat := (Field.opcode.get error.word).toNat

def message (error : UnknownOpcode) : Text :=
  "unknown opcode 0b" ++ Numeral.padded 2 4 error.opcode ++ " in word 0x" ++ error.word.hex

end UnknownOpcode

namespace Decoded

/-- The fields of `word` under the layout of `op`. -/
def ofOp (op : Op) (word : Word) : Decoded :=
  let rd := (Field.rd.get word).toNat
  let rs := (Field.rs.get word).toNat
  let rt := (Field.rt.get word).toNat
  match op.layout with
  | .branch =>
    { word, op, cond := Cond.ofBits (Field.cond.get word).toNat, target := (Field.target.get word).toNat }
  | .regImm => { word, op, rd, imm := (Field.immediate.get word).toSigned Field.immediate.bits }
  | .srcPair => { word, op, rs, rt }
  | .triple => { word, op, rd, rs, rt }
  | .dstSrc => { word, op, rd, rs }
  | .bare => { word, op }

end Decoded

def decode (word : Word) : Except UnknownOpcode Decoded :=
  match Op.ofOpcode? (Field.opcode.get word).toNat with
  | some op => .ok (Decoded.ofOp op word)
  | none => .error ⟨word⟩

end SimtAsm
