import SimtAsm.Assembly.Error
import SimtAsm.Assembly.Source
import SimtAsm.Assembly.SymbolTable
import SimtAsm.Isa.Cond
import SimtAsm.Isa.Register

namespace SimtAsm

inductive Operands
  | branch (cond : Cond) (target : Text)
  | regImm (rd : Nat) (imm : Int)
  | srcPair (rs rt : Nat)
  | triple (rd rs rt : Nat)
  | dstSrc (rd rs : Nat)
  | bare
  deriving DecidableEq, Repr

structure Instr where
  op : Op
  operands : Operands
  deriving DecidableEq, Repr

/-- An operation with the condition its mnemonic carries. Whatever starts with BR is a branch, and N, Z and P
are picked out of the rest. -/
def readMnemonic (token : Text) : Except EncodeError (Op × Cond) :=
  match token.upper with
  | 'B' :: 'R' :: letters => .ok (.br, Cond.ofLetters letters)
  | name =>
    match Op.ofMnemonic? name with
    | some op => .ok (op, Cond.never)
    | none => .error (.unknownMnemonic name)

def readRegister (token : Text) : Except EncodeError Nat :=
  match Register.ofToken? token with
  | some register => .ok register
  | none => .error (.invalidRegister token)

/-- A number sign and a decimal number. The number is read as a 64-bit integer first; one that is too large
even for that is out of range, whatever comes behind it. -/
def readImmediate (token : Text) : Except EncodeError Int :=
  match token with
  | '#' :: digits =>
    let outOfRange : EncodeError :=
      .immediateRange digits Field.immediate.bits Immediate.least Immediate.greatest
    match Numeral.readSigned 10 (1 <<< 63) digits with
    | .ok value => if Immediate.least ≤ value ∧ value ≤ Immediate.greatest then .ok value else .error outOfRange
    | .error .tooLarge => .error outOfRange
    | .error _ => .error (.invalidImmediate token)
  | _ => .error (.invalidImmediate token)

/-- Reads operands from left to right; `none` when their number is not the layout's. -/
def readOperands? (cond : Cond) : Layout → List Text → Option (Except EncodeError Operands)
  | .branch, [target] => some (.ok (.branch cond target.upper))
  | .regImm, [rd, imm] => some do return .regImm (← readRegister rd) (← readImmediate imm)
  | .srcPair, [rs, rt] => some do return .srcPair (← readRegister rs) (← readRegister rt)
  | .triple, [rd, rs, rt] => some do return .triple (← readRegister rd) (← readRegister rs) (← readRegister rt)
  | .dstSrc, [rd, rs] => some do return .dstSrc (← readRegister rd) (← readRegister rs)
  | .bare, [] => some (.ok .bare)
  | _, _ => none

namespace Instr

/-- Reads a tokenised instruction. The number of operands is settled before any of them is read. -/
def ofTokens : List Text → Except EncodeError Instr
  | [] => .error .malformedInstruction
  | mnemonic :: operands => do
    let (op, cond) ← readMnemonic mnemonic
    match readOperands? cond op.layout operands with
    | some result => return { op, operands := ← result }
    | none => .error (.operandCount mnemonic.upper op.layout.arity operands.length)

end Instr

/-- Everything below the opcode. A branch target is an absolute address of which the low eight bits are kept. -/
def Operands.encode (symbols : SymbolTable) : Operands → Except EncodeError Word
  | branch cond target =>
    match symbols.get? target with
    | some address =>
      .ok (Field.cond.put (BitVec.ofNat 16 cond.bits) ||| Field.target.put (BitVec.ofNat 16 address))
    | none => .error (.undefinedLabel target)
  | regImm rd imm => .ok (Field.rd.put (BitVec.ofNat 16 rd) ||| Word.ofSigned imm Field.immediate.bits)
  | srcPair rs rt => .ok (Field.rs.put (BitVec.ofNat 16 rs) ||| Field.rt.put (BitVec.ofNat 16 rt))
  | triple rd rs rt =>
    .ok (Field.rd.put (BitVec.ofNat 16 rd) ||| Field.rs.put (BitVec.ofNat 16 rs) |||
      Field.rt.put (BitVec.ofNat 16 rt))
  | dstSrc rd rs => .ok (Field.rd.put (BitVec.ofNat 16 rd) ||| Field.rs.put (BitVec.ofNat 16 rs))
  | bare => .ok 0

namespace Instr

def encode (symbols : SymbolTable) (instr : Instr) : Except EncodeError Word := do
  let body ← instr.operands.encode symbols
  return Field.opcode.put (BitVec.ofNat 16 instr.op.opcode) ||| body

end Instr

/-- The word of one instruction line. -/
def encodeLine (symbols : SymbolTable) (line : Text) : Except EncodeError Word := do
  (← Instr.ofTokens (Source.tokens line)).encode symbols

end SimtAsm
