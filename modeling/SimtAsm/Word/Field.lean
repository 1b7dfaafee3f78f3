import SimtAsm.Checked

namespace SimtAsm

abbrev Word := BitVec 16

namespace Word

/-- Ones in the low `bits` places; all ones from sixteen on. -/
def lowOnes (bits : Nat) : Word := BitVec.allOnes 16 >>> (16 - bits)

def low (word : Word) (bits : Nat) : Word := word &&& lowOnes bits

theorem getLsbD_lowOnes (bits i : Nat) : (lowOnes bits).getLsbD i = (decide (i < 16) && decide (i < bits)) := by
  simp only [lowOnes, BitVec.getLsbD_ushiftRight, BitVec.getLsbD_allOnes]
  by_cases inside : i < bits <;> simp [inside] <;> omega

theorem getLsbD_low (word : Word) (bits i : Nat) :
    (low word bits).getLsbD i = (word.getLsbD i && decide (i < bits)) := by
  simp only [low, BitVec.getLsbD_and, getLsbD_lowOnes]
  by_cases inside : i < 16
  · simp [inside]
  · simp [BitVec.getLsbD_of_ge word i (by omega)]

/-- The low `bits` bits of an integer in two's complement. -/
def ofSigned (value : Int) (bits : Nat) : Word := low (BitVec.ofInt 16 value) bits

/-- The low `bits` bits read as a two's-complement number. -/
def toSigned (word : Word) (bits : Nat) : Int :=
  ((word <<< (16 - bits)).sshiftRight (16 - bits)).toInt

/-- The same where both shifts exist: for one to sixteen bits. -/
def toSigned? (word : Word) (bits : Nat) : Checked Int :=
  if 16 < bits then .error .sub
  else if bits = 0 then .error .shiftLeft
  else .ok (toSigned word bits)

end Word

/-- A run of `bits` bits whose lowest one stands at `shift`. -/
structure Field where
  shift : Nat
  bits : Nat
  deriving DecidableEq, Repr

namespace Field

/-- The word that holds `value`, cut to the field, in this field and zeros elsewhere. -/
def put (field : Field) (value : Word) : Word := Word.low value field.bits <<< field.shift

def get (field : Field) (word : Word) : Word := Word.low (word >>> field.shift) field.bits

/-- The checked forms refuse what a 16-bit shift cannot do. -/
def put? (field : Field) (value : Word) : Checked Word :=
  if field.shift < 16 then .ok (field.put value) else .error .shiftLeft

def get? (field : Field) (word : Word) : Checked Word :=
  if field.shift < 16 then .ok (field.get word) else .error .shiftRight

end Field

end SimtAsm
