import SimtAsm.Text.Basic
import SimtAsm.Word.Field

namespace SimtAsm

inductive Op
  | nop
  | br
  | cmp
  | add
  | sub
  | mul
  | div
  | ldr
  | str
  | const
  | ret
  deriving DecidableEq, Repr

/-- The operands of an operation, which also fix the layout of its word below the opcode. -/
inductive Layout
  /-- Laid out as `n z p 0 | address`. -/
  | branch
  /-- Laid out as `Rd | immediate`. -/
  | regImm
  /-- Laid out as `0000 | Rs | Rt`. -/
  | srcPair
  /-- Laid out as `Rd | Rs | Rt`. -/
  | triple
  /-- Laid out as `Rd | Rs | 0000`. -/
  | dstSrc
  /-- Laid out as `0000 0000 0000`. -/
  | bare
  deriving DecidableEq, Repr

/-- The number of operands written behind the mnemonic. A branch condition is part of the mnemonic. -/
def Layout.arity : Layout → Nat
  | bare => 0
  | branch => 1
  | regImm | srcPair | dstSrc => 2
  | triple => 3

namespace Op

def all : List Op := [nop, br, cmp, add, sub, mul, div, ldr, str, const, ret]

def mnemonic : Op → Text
  | nop => "NOP"
  | br => "BR"
  | cmp => "CMP"
  | add => "ADD"
  | sub => "SUB"
  | mul => "MUL"
  | div => "DIV"
  | ldr => "LDR"
  | str => "STR"
  | const => "CONST"
  | ret => "RET"

def opcode : Op → Nat
  | nop => 0
  | br => 1
  | cmp => 2
  | add => 3
  | sub => 4
  | mul => 5
  | div => 6
  | ldr => 7
  | str => 8
  | const => 9
  | ret => 15

def layout : Op → Layout
  | nop | ret => .bare
  | br => .branch
  | cmp | str => .srcPair
  | add | sub | mul | div => .triple
  | ldr => .dstSrc
  | const => .regImm

/-- The operation with exactly this mnemonic, case set aside. -/
def ofMnemonic? (name : Text) : Option Op := all.find? fun op => op.mnemonic.sameLetters name

def ofOpcode? (opcode : Nat) : Option Op := all.find? fun op => op.opcode == opcode

theorem opcode_lt (op : Op) : op.opcode < 16 := by cases op <;> decide

theorem ofOpcode?_opcode (op : Op) : ofOpcode? op.opcode = some op := by cases op <;> rfl

theorem opcode_of_ofOpcode? {code : Nat} {op : Op} (found : ofOpcode? code = some op) : op.opcode = code := by
  simpa using List.find?_some found

end Op

namespace Field

def opcode : Field := ⟨12, 4⟩
def rd : Field := ⟨8, 4⟩
def rs : Field := ⟨4, 4⟩
def rt : Field := ⟨0, 4⟩
def cond : Field := ⟨9, 3⟩
def immediate : Field := ⟨0, 8⟩
def target : Field := ⟨0, 8⟩

end Field

end SimtAsm
