import Mathlib.Algebra.Group.Nat.Defs
import SimtAsm.Assembly.Listing
import SimtAsm.Proofs.Faults

namespace SimtAsm

namespace Numeral

/-- The text behind an optional sign. -/
def withoutSign : Text → Text
  | '+' :: rest | '-' :: rest => rest
  | text => text

def isNegative : Text → Bool
  | '-' :: _ => true
  | _ => false

/-- What `n` stands for behind the sign of a text. -/
def signed (text : Text) (n : Nat) : Int := if isNegative text then -n else n

/-- The signed numbers below a limit. Downwards the limit itself is still one of them. -/
def Within (limit : Nat) (value : Int) : Prop := -limit ≤ value ∧ value < limit

/-- Digits at the front, behind the sign, already stand for a number that is not within the limit. -/
def Overflows (limit : Nat) (text : Text) : Prop :=
  ∃ digits, digits <+: withoutSign text ∧ (∀ c ∈ digits, c.isDigit = true) ∧
    ¬Within limit (signed text (Nat.ofDigitChars 10 digits 0))

/-- A character that is no digit comes behind digits that were within the limit all along. -/
def Breaks (limit : Nat) (text : Text) : Prop :=
  ∃ digits c rest, withoutSign text = digits ++ c :: rest ∧ (∀ d ∈ digits, d.isDigit = true) ∧ c.isDigit = false ∧
    ∀ front, front <+: digits → Within limit (signed text (Nat.ofDigitChars 10 front 0))

theorem sign_cases (text : Text) :
    text = [] ∨ (∃ rest, text = '+' :: rest) ∨ (∃ rest, text = '-' :: rest) ∨
      ∃ c rest, text = c :: rest ∧ c ≠ '+' ∧ c ≠ '-' := by
  cases text with
  | nil => exact Or.inl rfl
  | cons c rest =>
    by_cases plus : c = '+'
    · exact Or.inr (Or.inl ⟨rest, by rw [plus]⟩)
    · by_cases minus : c = '-'
      · exact Or.inr (Or.inr (Or.inl ⟨rest, by rw [minus]⟩))
      · exact Or.inr (Or.inr (Or.inr ⟨c, rest, rfl, plus, minus⟩))

theorem withoutSign_of_unsigned {c : Char} (notPlus : c ≠ '+') (notMinus : c ≠ '-') (rest : Text) :
    withoutSign (c :: rest) = c :: rest := by
  unfold withoutSign
  split
  · rename_i plus
    exact absurd (List.cons.inj plus).1 notPlus
  · rename_i minus
    exact absurd (List.cons.inj minus).1 notMinus
  · rfl

theorem isNegative_of_unsigned {c : Char} (notMinus : c ≠ '-') (rest : Text) : isNegative (c :: rest) = false := by
  unfold isNegative
  split
  · rename_i minus
    exact absurd (List.cons.inj minus).1 notMinus
  · rfl

/-- A signed number is a sign with digits behind it. -/
theorem isSigned_iff {text : Text} {value : Int} :
    IsSigned text value ↔
      IsDigits (withoutSign text) ∧ value = signed text (Nat.ofDigitChars 10 (withoutSign text) 0) := by
  rcases sign_cases text with rfl | ⟨rest, rfl⟩ | ⟨rest, rfl⟩ | ⟨c, rest, rfl, plus, minus⟩
  · constructor
    · rintro (digits | _ | _)
      exact absurd rfl digits.ne_nil
    · rintro ⟨digits, _⟩
      exact absurd rfl digits.ne_nil
  · constructor
    · rintro (digits | digits | _)
      · exact absurd (digits.digit '+' (List.mem_cons_self ..)) (by decide)
      · exact ⟨digits, rfl⟩
    · rintro ⟨digits, rfl⟩
      exact .plus digits
  · constructor
    · rintro (digits | _ | digits)
      · exact absurd (digits.digit '-' (List.mem_cons_self ..)) (by decide)
      · exact ⟨digits, rfl⟩
    · rintro ⟨digits, rfl⟩
      exact .minus digits
  · simp only [withoutSign_of_unsigned plus minus, signed, isNegative_of_unsigned minus, Bool.false_eq_true, if_false]
    constructor
    · rintro (digits | _ | _)
      · exact ⟨digits, rfl⟩
      · exact absurd rfl plus
      · exact absurd rfl minus
    · rintro ⟨digits, rfl⟩
      exact .plain digits

theorem readMagnitude_of_ne_nil (limit : Nat) {text : Text} (nonempty : text ≠ []) :
    readMagnitude 10 limit text = readDigits 10 limit 0 text := by
  cases text with
  | nil => exact absurd rfl nonempty
  | cons => rfl

/-- The sign apart, what stands behind it is read like any digits. A minus sign makes room for one more number. -/
theorem readSigned_of_ne_nil (limit : Nat) {text : Text} (nonempty : withoutSign text ≠ []) :
    readSigned 10 limit text =
      (readDigits 10 (if isNegative text then limit + 1 else limit) 0 (withoutSign text)).map (signed text) := by
  rcases sign_cases text with rfl | ⟨rest, rfl⟩ | ⟨rest, rfl⟩ | ⟨c, rest, rfl, plus, minus⟩
  · exact absurd rfl nonempty
  · exact congrArg (Except.map Int.ofNat) (readMagnitude_of_ne_nil limit nonempty)
  · exact (readSigned_minus limit rest).trans (congrArg _ (readMagnitude_of_ne_nil (limit + 1) nonempty))
  · have positive := isNegative_of_unsigned minus rest
    have plain : signed (c :: rest) = Int.ofNat := by
      funext n
      rw [signed, positive]
      rfl
    rw [readSigned_of_unsigned limit plus minus, withoutSign_of_unsigned plus minus, positive, plain]
    rfl

theorem readSigned_of_eq_nil (limit : Nat) {text : Text} (bare : withoutSign text = []) :
    readSigned 10 limit text = .error .empty ∨ readSigned 10 limit text = .error .invalidDigit := by
  rcases sign_cases text with rfl | ⟨rest, rfl⟩ | ⟨rest, rfl⟩ | ⟨c, rest, rfl, plus, minus⟩
  · exact Or.inl rfl
  · obtain rfl : rest = [] := bare
    exact Or.inr rfl
  · obtain rfl : rest = [] := bare
    exact Or.inr rfl
  · rw [withoutSign_of_unsigned plus minus] at bare
    cases bare

section Limit

variable {limit : Nat} (positive : 0 < limit) {text : Text}
include positive

theorem within_signed_iff {n : Nat} :
    Within limit (signed text n) ↔ n < if isNegative text then limit + 1 else limit := by
  unfold Within signed
  split <;> omega

theorem readSigned_eq_tooLarge_iff : readSigned 10 limit text = .error .tooLarge ↔ Overflows limit text := by
  have start : 0 < if isNegative text then limit + 1 else limit := by split <;> omega
  by_cases bare : withoutSign text = []
  · -- Without digits there is nothing that could be too large.
    have refused : readSigned 10 limit text ≠ .error .tooLarge := by
      rcases readSigned_of_eq_nil limit bare with empty | invalid
      · simp [empty]
      · simp [invalid]
    simp only [refused, false_iff]
    rintro ⟨digits, front, _, outside⟩
    rw [bare, List.prefix_nil] at front
    subst front
    exact outside ((within_signed_iff positive).mpr start)
  · rw [readSigned_of_ne_nil limit bare, map_eq_error_iff, readDigits_ten_eq_tooLarge_iff start]
    simp only [Overflows, within_signed_iff positive, Nat.not_lt]

theorem readSigned_refused_iff :
    (readSigned 10 limit text = .error .empty ∨ readSigned 10 limit text = .error .invalidDigit) ↔
      withoutSign text = [] ∨ Breaks limit text := by
  have start : 0 < if isNegative text then limit + 1 else limit := by split <;> omega
  by_cases bare : withoutSign text = []
  · simp only [readSigned_of_eq_nil limit bare, bare, true_or]
  · rw [readSigned_of_ne_nil limit bare, map_eq_error_iff, map_eq_error_iff, or_iff_right readDigits_ne_empty,
      readDigits_ten_eq_invalidDigit_iff start, or_iff_right bare]
    simp only [Breaks, within_signed_iff positive]
    constructor
    · rintro ⟨digits, c, rest, same, all, noDigit, below⟩
      refine ⟨digits, c, rest, same, all, noDigit, ?_⟩
      -- The value only grows along the digits, so that it was below the limit before as well.
      rintro front ⟨more, rfl⟩
      rw [Nat.ofDigitChars_append] at below
      exact Nat.lt_of_le_of_lt (le_ofDigitChars (List.forall_mem_append.mp all).2 _) below
    · rintro ⟨digits, c, rest, same, all, noDigit, below⟩
      exact ⟨digits, c, rest, same, all, noDigit, below digits List.prefix_rfl⟩

end Limit

theorem overflows_of_isSigned {limit : Nat} {text : Text} {value : Int} (number : IsSigned text value)
    (outside : ¬Within limit value) : Overflows limit text := by
  obtain ⟨digits, rfl⟩ := isSigned_iff.mp number
  exact ⟨_, List.prefix_rfl, digits.digit, outside⟩

end Numeral

open Numeral

/-- Behind the number sign, the error follows from how the number is read in 64 bits. -/
theorem readImmediate_marked_eq_error_iff {number : Text} {error : EncodeError} :
    readImmediate ('#' :: number) = .error error ↔
      error = .invalidImmediate ('#' :: number) ∧ (readSigned 10 (1 <<< 63) number = .error .empty ∨
        readSigned 10 (1 <<< 63) number = .error .invalidDigit) ∨
      error = .immediateRange number 8 (-128) 127 ∧ (readSigned 10 (1 <<< 63) number = .error .tooLarge ∨
        ∃ value, readSigned 10 (1 <<< 63) number = .ok value ∧ ¬(-128 ≤ value ∧ value ≤ 127)) := by
  have range : EncodeError.immediateRange number Field.immediate.bits Immediate.least Immediate.greatest =
      .immediateRange number 8 (-128) 127 := rfl
  rw [readImmediate, range]
  cases readSigned 10 (1 <<< 63) number with
  | ok value =>
    have bounds : (Immediate.least ≤ value ∧ value ≤ Immediate.greatest) = (-128 ≤ value ∧ value ≤ 127) := rfl
    by_cases inside : -128 ≤ value ∧ value ≤ 127
    · simp [bounds, inside]
    · simp only [bounds, inside, if_false, Except.error.injEq, reduceCtorEq, or_self, and_false, false_or,
        Except.ok.injEq, exists_eq_left', not_false_eq_true, and_true]
      exact eq_comm
  | error problem => cases problem <;> simp [eq_comm]

/-- A number that 64 bits hold but eight bits do not is out of range, and so is every text that overflows 64 bits. -/
theorem overflows_or_outside_iff {number : Text} :
    (readSigned 10 (1 <<< 63) number = .error .tooLarge ∨
      ∃ value, readSigned 10 (1 <<< 63) number = .ok value ∧ ¬(-128 ≤ value ∧ value ≤ 127)) ↔
      Overflows (2 ^ 63) number ∨ ∃ value, IsSigned number value ∧ ¬(-128 ≤ value ∧ value ≤ 127) := by
  have start : 0 < 2 ^ 63 := by decide
  simp only [Nat.one_shiftLeft, readSigned_eq_tooLarge_iff start, readSigned_eq_ok_iff start]
  constructor
  · rintro (overflows | ⟨value, ⟨isNumber, _⟩, outside⟩)
    · exact Or.inl overflows
    · exact Or.inr ⟨value, isNumber, outside⟩
  · rintro (overflows | ⟨value, isNumber, outside⟩)
    · exact Or.inl overflows
    · by_cases within : Within (2 ^ 63) value
      · exact Or.inr ⟨value, ⟨isNumber, within⟩, outside⟩
      · exact Or.inl (overflows_of_isSigned isNumber within)

theorem readImmediate_eq_error_iff {token : Text} {error : EncodeError} :
    readImmediate token = .error error ↔
      error = .invalidImmediate token ∧ (token.head? ≠ some '#' ∨ ∃ number, token = '#' :: number ∧
        (withoutSign number = [] ∨ Breaks (2 ^ 63) number)) ∨
      ∃ number, error = .immediateRange number 8 (-128) 127 ∧ token = '#' :: number ∧
        (Overflows (2 ^ 63) number ∨ ∃ value, IsSigned number value ∧ ¬(-128 ≤ value ∧ value ≤ 127)) := by
  by_cases marked : token.head? = some '#'
  · obtain ⟨number, rfl⟩ := List.head?_eq_some_iff.mp marked
    rw [readImmediate_marked_eq_error_iff, overflows_or_outside_iff, Nat.one_shiftLeft,
      readSigned_refused_iff (by decide)]
    simp
  · rw [readImmediate_of_unmarked marked, Except.error.injEq]
    constructor
    · rintro rfl
      exact Or.inl ⟨rfl, Or.inl marked⟩
    · rintro (⟨rfl, _⟩ | ⟨_, _, rfl, _⟩)
      · rfl
      · exact absurd rfl marked

theorem readImmediate_eq_ok_iff_isSigned {token : Text} {value : Int} :
    readImmediate token = .ok value ↔
      ∃ number, token = '#' :: number ∧ IsSigned number value ∧ -128 ≤ value ∧ value ≤ 127 := by
  rw [readImmediate_eq_ok_iff, Immediate.spelling_upper_iff]
  constructor
  · rintro ⟨isNumber, lower, upper⟩
    exact ⟨_, rfl, isNumber, lower, upper⟩
  · rintro ⟨number, rfl, isNumber, lower, upper⟩
    exact ⟨isNumber, lower, upper⟩

theorem readImmediate_eq_immediateRange_iff {token shown : Text} :
    readImmediate token = .error (.immediateRange shown 8 (-128) 127) ↔ token = '#' :: shown ∧
      (Overflows (2 ^ 63) shown ∨ ∃ value, IsSigned shown value ∧ ¬(-128 ≤ value ∧ value ≤ 127)) := by
  simp [readImmediate_eq_error_iff]

/-- A number that gives an error is one that eight bits do not hold. -/
theorem outside_of_readImmediate_error {number : Text} {value : Int} {error : EncodeError}
    (failed : readImmediate ('#' :: number) = .error error) (isNumber : IsSigned number value) :
    ¬(-128 ≤ value ∧ value ≤ 127) := by
  intro inside
  cases failed.symm.trans (readImmediate_eq_ok_iff_isSigned.mpr ⟨number, rfl, isNumber, inside⟩)

/-- Every token is read as an immediate up to its first problem. It is malformed if it has no number sign or nothing
behind an optional sign, or if a character that is no digit comes while the digits before it have been within 64 bits.
It is out of range if its digits leave 64 bits before such a character, or if it is a number that eight bits do not hold;
the error then carries the text behind the number sign and the range of the field. Every other token is a number, and it
is read to its value. -/
theorem readImmediate_first_problem (token : Text) :
    (∀ error, readImmediate token = .error error ↔
      error = .invalidImmediate token ∧ (token.head? ≠ some '#' ∨ ∃ number, token = '#' :: number ∧
        (withoutSign number = [] ∨ Breaks (2 ^ 63) number)) ∨
      ∃ number, error = .immediateRange number 8 (-128) 127 ∧ token = '#' :: number ∧
        (Overflows (2 ^ 63) number ∨ ∃ value, IsSigned number value ∧ ¬(-128 ≤ value ∧ value ≤ 127))) ∧
      (∀ value, readImmediate token = .ok value ↔
        ∃ number, token = '#' :: number ∧ IsSigned number value ∧ -128 ≤ value ∧ value ≤ 127) ∧
      ∀ number, EncodeError.toJson (.immediateRange number 8 (-128) 127) = .object [("ImmediateRange", .object [
        ("value", .string number), ("bits", .number 8), ("min", .number (-128)), ("max", .number 127)])] :=
  ⟨fun _ => readImmediate_eq_error_iff, fun _ => readImmediate_eq_ok_iff_isSigned, fun _ => rfl⟩

example : readImmediate "#-9223372036854775808x" = .error (.invalidImmediate "#-9223372036854775808x") ∧
    readImmediate "#-9223372036854775809x" = .error (.immediateRange "-9223372036854775809x" 8 (-128) 127) :=
  ⟨rfl, rfl⟩

/-- Whether a token is a number sign with a signed number decides the kind of its error, save where the digits at its
front overflow 64 bits. Such a token is out of range even if it is no number. -/
theorem readImmediate_error_kinds (token : Text) :
    ((∃ shown, readImmediate token = .error (.invalidImmediate shown)) ↔
      (¬∃ number value, token = '#' :: number ∧ IsSigned number value) ∧
        ¬∃ number, token = '#' :: number ∧ Overflows (2 ^ 63) number) ∧
      ((∃ shown, readImmediate token = .error (.immediateRange shown 8 (-128) 127)) ↔
        (∃ number value, token = '#' :: number ∧ IsSigned number value ∧ ¬(-128 ≤ value ∧ value ≤ 127)) ∨
          (¬∃ number value, token = '#' :: number ∧ IsSigned number value) ∧
            ∃ number, token = '#' :: number ∧ Overflows (2 ^ 63) number) := by
  refine ⟨⟨?_, ?_⟩, ⟨?_, ?_⟩⟩
  · rintro ⟨shown, failed⟩
    constructor
    · rintro ⟨number, value, rfl, isNumber⟩
      have outside := outside_of_readImmediate_error failed isNumber
      cases failed.symm.trans (readImmediate_eq_immediateRange_iff.mpr ⟨rfl, Or.inr ⟨value, isNumber, outside⟩⟩)
    · rintro ⟨number, rfl, overflows⟩
      cases failed.symm.trans (readImmediate_eq_immediateRange_iff.mpr ⟨rfl, Or.inl overflows⟩)
  · rintro ⟨noNumber, noOverflow⟩
    cases read : readImmediate token with
    | ok value =>
      obtain ⟨number, same, isNumber, _⟩ := readImmediate_eq_ok_iff_isSigned.mp read
      exact absurd ⟨number, value, same, isNumber⟩ noNumber
    | error error =>
      rcases readImmediate_eq_error read with rfl | ⟨number, same, rfl⟩
      · exact ⟨token, rfl⟩
      · rcases (readImmediate_eq_immediateRange_iff.mp read).2 with overflows | ⟨value, isNumber, _⟩
        · exact absurd ⟨number, same, overflows⟩ noOverflow
        · exact absurd ⟨number, value, same, isNumber⟩ noNumber
  · rintro ⟨shown, failed⟩
    obtain ⟨same, overflows | ⟨value, isNumber, outside⟩⟩ := readImmediate_eq_immediateRange_iff.mp failed
    · by_cases form : ∃ number value, token = '#' :: number ∧ IsSigned number value
      · obtain ⟨number, value, rfl, isNumber⟩ := form
        exact Or.inl ⟨number, value, rfl, isNumber, outside_of_readImmediate_error failed isNumber⟩
      · exact Or.inr ⟨form, shown, same, overflows⟩
    · exact Or.inl ⟨shown, value, same, isNumber, outside⟩
  · rintro (⟨number, value, same, isNumber, outside⟩ | ⟨_, number, same, overflows⟩)
    · exact ⟨number, readImmediate_eq_immediateRange_iff.mpr ⟨same, Or.inr ⟨value, isNumber, outside⟩⟩⟩
    · exact ⟨number, readImmediate_eq_immediateRange_iff.mpr ⟨same, Or.inl overflows⟩⟩

/-- The form of a token alone does not decide: a letter behind the least number that is too large for 64 bits makes the
token no number, and yet it is reported as out of range. -/
theorem overflow_hides_letter : ¬∀ token : Text,
    ((∃ shown, readImmediate token = .error (.invalidImmediate shown)) ↔
      ¬∃ number value, token = '#' :: number ∧ IsSigned number value) ∧
      ((∃ shown, readImmediate token = .error (.immediateRange shown 8 (-128) 127)) ↔
        ∃ number value, token = '#' :: number ∧ IsSigned number value ∧ ¬(-128 ≤ value ∧ value ≤ 127)) := by
  intro law
  have read : readImmediate "#9223372036854775808x" =
      .error (.immediateRange "9223372036854775808x" 8 (-128) 127) := rfl
  obtain ⟨number, value, same, isNumber, _⟩ := (law "#9223372036854775808x").2.mp ⟨_, read⟩
  obtain rfl : String.toList "9223372036854775808x" = number := (List.cons.inj same).2
  have digit := (isSigned_iff.mp isNumber).1.digit 'x' (by decide)
  exact absurd digit (by decide)

end SimtAsm
