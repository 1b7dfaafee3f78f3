import SimtAsm.Checked

namespace SimtAsm

/-- A binary integer type: its width, and whether its top bit is a sign. -/
structure IntType where
  width : Nat
  signed : Bool
  deriving DecidableEq, Repr

namespace IntType

def unsigned (width : Nat) : IntType := ⟨width, false⟩

def twosComplement (width : Nat) : IntType := ⟨width, true⟩

/-- What a bit counts for. -/
def weight (bit : Nat) : Nat := 1 <<< bit

def least (t : IntType) : Int := if t.signed then -weight (t.width - 1) else 0

def greatest (t : IntType) : Int := if t.signed then weight (t.width - 1) - 1 else weight t.width - 1

/-- The value of the type with the same low bits. -/
def wrap (t : IntType) (value : Int) : Int :=
  if t.signed then Int.bmod value (weight t.width) else value % weight t.width

/-- A difference, refused outside the type. -/
def sub (t : IntType) (a b : Int) : Checked Int :=
  if t.least ≤ a - b ∧ a - b ≤ t.greatest then .ok (a - b) else .error .sub

/-- The value whose low `bits` bits are ones. -/
def mask (t : IntType) (bits : Nat) : Checked Int :=
  if t.width ≤ bits then .ok (t.wrap (-1)) else t.sub (t.wrap (weight bits)) 1

/-- Least and greatest value of a field of `bits` bits; a field of no bits holds only zero. They are computed inside the
type: the power of two in the place of its sign is its least value, so the bounds of a field as wide as the type
overflow. -/
def signedBounds (t : IntType) (bits : Nat) : Checked (Int × Int) :=
  if bits = 0 then .ok (0, 0)
  else do
    let greatest ← t.mask (bits - 1)
    let least ← t.sub (-greatest) 1
    return (least, greatest)

def fitsSigned (t : IntType) (value : Int) (bits : Nat) : Checked Bool := do
  let (least, greatest) ← t.signedBounds bits
  return decide (least ≤ value ∧ value ≤ greatest)

end IntType

end SimtAsm
