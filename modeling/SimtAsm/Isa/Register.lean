import SimtAsm.Text.Numeral

namespace SimtAsm

namespace Register

def count : Nat := 16

/-- The registers by name. The last three names are read-only views of the launch geometry. -/
def named : List (Text × Nat) :=
  [("R0", 0), ("R1", 1), ("R2", 2), ("R3", 3), ("R4", 4), ("R5", 5), ("R6", 6), ("R7", 7),
    ("R8", 8), ("R9", 9), ("R10", 10), ("R11", 11), ("R12", 12), ("R13", 13), ("R14", 14), ("R15", 15),
    ("%blockIdx", 13), ("%blockDim", 14), ("%threadIdx", 15)]

/-- The register of the number behind an `R`, leading zeros allowed. -/
def ofDigits? (digits : Text) : Option Nat :=
  if digits.isEmpty || !digits.all Char.isDigit then none
  else match Numeral.readDigits 10 (1 <<< 32) 0 digits with
    | .ok n => if n < count then some n else none
    | .error _ => none

def numbered? : Text → Option Nat
  | 'R' :: digits | 'r' :: digits => ofDigits? digits
  | _ => none

/-- The register a token names, case and surrounding blanks set aside. -/
def ofToken? (token : Text) : Option Nat :=
  match named.find? fun entry => entry.1.sameLetters token.trim with
  | some entry => some entry.2
  | none => numbered? token.trim

end Register

end SimtAsm
