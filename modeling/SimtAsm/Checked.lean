import SimtAsm.Text.Basic

namespace SimtAsm

/-- The step of exact arithmetic that left the range of its machine integer. -/
inductive Overflow
  | add
  | sub
  | shiftLeft
  | shiftRight
  deriving DecidableEq, Repr

def Overflow.message : Overflow → Text
  | add => "attempt to add with overflow"
  | sub => "attempt to subtract with overflow"
  | shiftLeft => "attempt to shift left with overflow"
  | shiftRight => "attempt to shift right with overflow"

abbrev Checked (α : Type) := Except Overflow α

theorem bind_eq_ok {ε α β : Type} {first : Except ε α} {next : α → Except ε β} {result : β} :
    (first >>= next) = .ok result ↔ ∃ value, first = .ok value ∧ next value = .ok result := by
  cases first <;> simp [bind, Except.bind]

/-- Addresses are 64-bit words, kept as natural numbers below this bound. -/
def addressLimit : Nat := 1 <<< 64

/-- A sum of addresses, refused from `addressLimit` on. -/
def addAddress (a b : Nat) : Checked Nat :=
  if a + b < addressLimit then .ok (a + b) else .error .add

end SimtAsm
