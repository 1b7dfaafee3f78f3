import SimtAsm.Text.Basic

namespace SimtAsm

namespace Numeral

inductive Error
  | empty
  | invalidDigit
  | tooLarge
  deriving DecidableEq, Repr

def Error.message : Error → Text
  | empty => "cannot parse integer from empty string"
  | invalidDigit => "invalid digit found in string"
  | tooLarge => "number too large to fit in target type"

def decimal (n : Nat) : Text := Nat.toDigits 10 n

def signedDecimal : Int → Text
  | .ofNat n => decimal n
  | .negSucc n => '-' :: decimal (n + 1)

/-- The numeral of `n` in `radix`, filled up with zeros on the left to `width` digits. -/
def padded (radix width n : Nat) : Text := (Nat.toDigits radix n).leftpad width '0'

/-- The value of a digit, letters in either case standing for ten to fifteen. -/
def digitValue? (c : Char) : Option Nat :=
  if c.isDigit then some (c.toNat - '0'.toNat)
  else if 'a' ≤ c ∧ c ≤ 'f' then some (c.toNat - 'a'.toNat + 10)
  else if 'A' ≤ c ∧ c ≤ 'F' then some (c.toNat - 'A'.toNat + 10)
  else none

/-- The value of a digit of `radix`. -/
def digit? (radix : Nat) (c : Char) : Option Nat := (digitValue? c).filter (· < radix)

/-- Reads digits on top of the value `acc` of the digits before them; the value stays below `limit`. Each character is
first asked for a digit and then for the bound, so the first problem from the left decides the error. -/
def readDigits (radix limit : Nat) : Nat → Text → Except Error Nat
  | acc, [] => .ok acc
  | acc, c :: rest =>
    match digit? radix c with
    | none => .error .invalidDigit
    | some d =>
      if acc * radix + d < limit then readDigits radix limit (acc * radix + d) rest else .error .tooLarge

theorem digitValue?_digitChar : ∀ d < 16, digitValue? (Nat.digitChar d) = some d := by decide

theorem digit?_digitChar {radix d : Nat} (small : radix ≤ 16) (bound : d < radix) :
    digit? radix (Nat.digitChar d) = some d := by
  simp [digit?, digitValue?_digitChar d (by omega), bound]

theorem readDigits_append (radix limit : Nat) (digits more : Text) (acc : Nat) :
    readDigits radix limit acc (digits ++ more) =
      (readDigits radix limit acc digits).bind fun value => readDigits radix limit value more := by
  induction digits generalizing acc with
  | nil => rfl
  | cons c rest ih =>
    simp only [List.cons_append, readDigits]
    split
    · rfl
    · split
      · exact ih _
      · rfl

/-- What is written in a radix is read back, as long as it stays below the bound. -/
theorem readDigits_toDigits {radix limit n : Nat} (large : 1 < radix) (small : radix ≤ 16) (bound : n < limit) :
    readDigits radix limit 0 (Nat.toDigits radix n) = .ok n := by
  induction n using Nat.strongRecOn with
  | ind n ih =>
    rw [Nat.toDigits_eq_if large]
    split
    · rename_i single
      simp only [readDigits, digit?_digitChar small single, Nat.zero_mul, Nat.zero_add, if_pos bound]
    · have less : n / radix < n := Nat.div_lt_self (by omega) large
      have recombine : n / radix * radix + n % radix = n := by
        rw [Nat.mul_comm]
        exact Nat.div_add_mod n radix
      rw [readDigits_append, ih (n / radix) less (by omega)]
      have last := digit?_digitChar small (Nat.mod_lt n (by omega : 0 < radix))
      simp only [Except.bind, readDigits, last, recombine, if_pos bound]

/-- What follows a sign: at least one digit. -/
def readMagnitude (radix limit : Nat) : Text → Except Error Nat
  | [] => .error .invalidDigit
  | digits => readDigits radix limit 0 digits

/-- A number below `limit`, with an optional plus sign. -/
def readUnsigned (radix limit : Nat) : Text → Except Error Nat
  | [] => .error .empty
  | '+' :: digits => readMagnitude radix limit digits
  | digits => readDigits radix limit 0 digits

/-- A number from `-limit` up to `limit - 1`, with an optional sign. -/
def readSigned (radix limit : Nat) : Text → Except Error Int
  | [] => .error .empty
  | '+' :: digits => (readMagnitude radix limit digits).map Int.ofNat
  | '-' :: digits => (readMagnitude radix (limit + 1) digits).map fun n => -(n : Int)
  | digits => (readDigits radix limit 0 digits).map Int.ofNat

end Numeral

end SimtAsm
