import SimtAsm.Text.Basic
import SimtAsm.Word.Field

namespace SimtAsm

/-- A branch condition: any subset of the three signs that a result can have. -/
structure Cond where
  negative : Bool
  zero : Bool
  positive : Bool
  deriving DecidableEq, Repr

namespace Cond

/-- The condition that never holds. -/
def never : Cond := ⟨false, false, false⟩

/-- Collects the letters N, Z and P in either case. They may repeat and come in any order, and every other
character is passed over. -/
def ofLetters (letters : Text) : Cond where
  negative := letters.any (·.toUpper == 'N')
  zero := letters.any (·.toUpper == 'Z')
  positive := letters.any (·.toUpper == 'P')

/-- The letters of a condition, as a mnemonic carries them. -/
def letters (cond : Cond) : Text :=
  (if cond.negative then ['n'] else []) ++ (if cond.zero then ['z'] else []) ++
    (if cond.positive then ['p'] else [])

def bits (cond : Cond) : Nat := 4 * cond.negative.toNat + 2 * cond.zero.toNat + cond.positive.toNat

/-- The condition in the low three bits of a number. -/
def ofBits (bits : Nat) : Cond := ⟨bits.testBit 2, bits.testBit 1, bits.testBit 0⟩

theorem bits_lt (cond : Cond) : cond.bits < 8 := by
  obtain ⟨negative, zero, positive⟩ := cond
  cases negative <;> cases zero <;> cases positive <;> decide

theorem ofBits_bits (cond : Cond) : ofBits cond.bits = cond := by
  obtain ⟨negative, zero, positive⟩ := cond
  cases negative <;> cases zero <;> cases positive <;> rfl

end Cond

end SimtAsm
