import Mathlib.Algebra.Group.Nat.Defs
import SimtAsm.Image.Address
import SimtAsm.Proofs.LetterCase
import SimtAsm.Proofs.Numerals
import SimtAsm.Proofs.Printing

namespace SimtAsm

open Source

namespace Numeral

/-- A number of some radix without a minus sign, and its value. -/
inductive IsUnsigned (radix : Nat) : Text → Nat → Prop
  | plain {digits : Text} : digits ≠ [] → AllDigits radix digits → IsUnsigned radix digits (digitsValue radix 0 digits)
  | plus {digits : Text} : digits ≠ [] → AllDigits radix digits →
      IsUnsigned radix ('+' :: digits) (digitsValue radix 0 digits)

theorem not_allDigits_plus {radix : Nat} {rest : Text} : ¬AllDigits radix ('+' :: rest) := by
  intro digits
  have isDigit : (digit? radix '+').isSome = true := (allDigits_cons.mp digits).1
  cases isDigit

theorem readUnsigned_of_digit (radix limit : Nat) {c : Char} (notPlus : c ≠ '+') (rest : Text) :
    readUnsigned radix limit (c :: rest) = readDigits radix limit 0 (c :: rest) := by
  unfold readUnsigned
  split
  · rename_i empty
    cases empty
  · rename_i plus
    exact absurd (List.cons.inj plus).1 notPlus
  · rfl

theorem readUnsigned_eq_empty_iff {radix limit : Nat} {text : Text} :
    readUnsigned radix limit text = .error .empty ↔ text = [] := by
  cases text with
  | nil => simp [readUnsigned]
  | cons c rest =>
    by_cases plus : c = '+'
    · subst plus
      cases rest with
      | nil => simp [readUnsigned, readMagnitude]
      | cons => simp [readUnsigned, readMagnitude, readDigits_ne_empty]
    · simp [readUnsigned_of_digit radix limit plus, readDigits_ne_empty]

section Limit

variable {radix limit : Nat} (positive : 0 < limit)
include positive

/-- Exactly the numbers below the limit are read. -/
theorem readUnsigned_eq_ok_iff (base : 0 < radix) {text : Text} {value : Nat} :
    readUnsigned radix limit text = .ok value ↔ IsUnsigned radix text value ∧ value < limit := by
  constructor
  · intro read
    unfold readUnsigned at read
    split at read
    · cases read
    · rename_i digits
      cases digits with
      | nil => cases read
      | cons c rest =>
        obtain ⟨digits, rfl, below⟩ := (readDigits_eq_ok_iff base positive).mp read
        exact ⟨.plus (List.cons_ne_nil _ _) digits, below⟩
    · rename_i nonempty _
      obtain ⟨digits, rfl, below⟩ := (readDigits_eq_ok_iff base positive).mp read
      exact ⟨.plain nonempty digits, below⟩
  · rintro ⟨⟨nonempty, digits⟩ | ⟨nonempty, digits⟩, below⟩
    · obtain ⟨c, rest, rfl⟩ := List.exists_cons_of_ne_nil nonempty
      have notPlus : c ≠ '+' := by
        rintro rfl
        exact not_allDigits_plus digits
      rw [readUnsigned_of_digit radix limit notPlus, readDigits_eq_ok_iff base positive]
      exact ⟨digits, rfl, below⟩
    · obtain ⟨c, rest, rfl⟩ := List.exists_cons_of_ne_nil nonempty
      exact (readDigits_eq_ok_iff base positive).mpr ⟨digits, rfl, below⟩

/-- Digits that reach the limit are digits of a number, whether there is a plus sign before them or not. -/
theorem exists_unsigned_front_iff {sign text : Text} (atSign : sign = [] ∧ text.head? ≠ some '+' ∨ sign = ['+']) :
    (∃ front value, front <+: sign ++ text ∧ IsUnsigned radix front value ∧ limit ≤ value) ↔
      ∃ digits, digits <+: text ∧ AllDigits radix digits ∧ limit ≤ digitsValue radix 0 digits := by
  have nonempty : ∀ {digits : Text}, limit ≤ digitsValue radix 0 digits → digits ≠ [] := by
    rintro digits large rfl
    exact absurd large (Nat.not_le_of_lt positive)
  rcases atSign with ⟨rfl, notPlus⟩ | rfl
  · constructor
    · rintro ⟨_, _, front, ⟨_, digits⟩ | ⟨_, digits⟩, large⟩
      · exact ⟨_, front, digits, large⟩
      · obtain ⟨rest, rfl⟩ := front
        exact absurd rfl notPlus
    · rintro ⟨digits, front, all, large⟩
      exact ⟨digits, _, front, .plain (nonempty large) all, large⟩
  · constructor
    · rintro ⟨_, _, front, ⟨some, digits⟩ | ⟨_, digits⟩, large⟩
      · rcases List.prefix_cons_iff.mp front with rfl | ⟨more, rfl, _⟩
        · exact absurd rfl some
        · exact absurd digits not_allDigits_plus
      · exact ⟨_, (List.prefix_cons_inj '+').mp front, digits, large⟩
    · rintro ⟨digits, front, all, large⟩
      exact ⟨'+' :: digits, _, (List.prefix_cons_inj '+').mpr front, .plus (nonempty large) all, large⟩

/-- A text is too large if a number at its front is, whatever follows. -/
theorem readUnsigned_eq_tooLarge_iff {text : Text} :
    readUnsigned radix limit text = .error .tooLarge ↔
      ∃ front value, front <+: text ∧ IsUnsigned radix front value ∧ limit ≤ value := by
  by_cases plus : text.head? = some '+'
  · obtain ⟨rest, rfl⟩ := List.head?_eq_some_iff.mp plus
    refine Iff.trans ?_ (@exists_unsigned_front_iff radix limit positive ['+'] rest (.inr rfl)).symm
    rw [← readDigits_eq_tooLarge_iff positive]
    cases rest with
    | nil => simp [readUnsigned, readMagnitude, readDigits]
    | cons => rfl
  · refine Iff.trans ?_ (@exists_unsigned_front_iff radix limit positive [] text (.inl ⟨rfl, plus⟩)).symm
    rw [← readDigits_eq_tooLarge_iff positive]
    cases text with
    | nil => simp [readUnsigned, readDigits]
    | cons c rest =>
      have notPlus : c ≠ '+' := by simpa using plus
      rw [readUnsigned_of_digit radix limit notPlus]

end Limit

end Numeral

open Numeral

namespace Address

/-- An address as it may be written, with its value: in decimal, or in hexadecimal behind a zero and an x. -/
inductive Spelling : Text → Nat → Prop
  | decimal {number : Text} {value : Nat} : IsUnsigned 10 number value → Spelling number value
  | hexadecimal {x : Char} {number : Text} {value : Nat} : x = 'x' ∨ x = 'X' → IsUnsigned 16 number value →
      Spelling ('0' :: x :: number) value

/-- The text starts with a zero and an x, and this is what stands behind them. -/
inductive Marked : Text → Text → Prop
  | intro (x : Char) {rest : Text} : x = 'x' ∨ x = 'X' → Marked ('0' :: x :: rest) rest

/-- A number at the front of the text is already no address any more. -/
def Overflows (text : Text) : Prop := ∃ front value, front <+: text ∧ Spelling front value ∧ 2 ^ 64 ≤ value

theorem ofText_of_marked {text rest : Text} (marked : Marked text.trim rest) :
    ofText text = readUnsigned 16 addressLimit rest := by
  rw [ofText]
  generalize text.trim = trimmed at marked
  obtain ⟨x, rfl | rfl⟩ := marked
  · rfl
  · rfl

theorem ofText_of_unmarked {text : Text} (unmarked : ∀ rest, ¬Marked text.trim rest) :
    ofText text = readUnsigned 10 addressLimit text.trim := by
  unfold ofText
  split
  · rename_i rest same
    exact absurd (same ▸ .intro 'x' (.inl rfl)) (unmarked rest)
  · rename_i rest same
    exact absurd (same ▸ .intro 'X' (.inr rfl)) (unmarked rest)
  · rfl

/-- In front of an x there is no decimal number but the zero. -/
theorem value_of_marked_front {text rest front : Text} {value : Nat} (marked : Marked text rest)
    (isFront : front <+: text) (number : IsUnsigned 10 front value) : front = ['0'] ∧ value = 0 := by
  obtain ⟨x, isX⟩ := marked
  have noDigit : digit? 10 x = none := by
    rcases isX with rfl | rfl
    · rfl
    · rfl
  rcases List.prefix_cons_iff.mp isFront with rfl | ⟨more, rfl, atX⟩
  · obtain ⟨nonempty, _⟩ := number
    exact absurd rfl nonempty
  · obtain ⟨_, digits⟩ := number
    rcases List.prefix_cons_iff.mp atX with rfl | ⟨others, rfl, _⟩
    · exact ⟨rfl, rfl⟩
    · have isDigit := (allDigits_cons.mp (allDigits_cons.mp digits).2).1
      simp [noDigit] at isDigit

theorem spelling_of_marked {text rest : Text} {value : Nat} (marked : Marked text rest) :
    Spelling text value ↔ IsUnsigned 16 rest value := by
  constructor
  · intro spelling
    obtain ⟨number⟩ | ⟨_, number⟩ := spelling
    · obtain ⟨rfl, _⟩ := value_of_marked_front marked List.prefix_rfl number
      cases marked
    · cases marked
      exact number
  · intro number
    obtain ⟨x, isX⟩ := marked
    exact .hexadecimal isX number

theorem overflows_of_marked {text rest : Text} (marked : Marked text rest) :
    Overflows text ↔ ∃ front value, front <+: rest ∧ IsUnsigned 16 front value ∧ 2 ^ 64 ≤ value := by
  constructor
  · rintro ⟨front, value, isFront, number | ⟨_, number⟩, large⟩
    · obtain ⟨_, rfl⟩ := value_of_marked_front marked isFront number
      exact absurd large (by decide)
    · cases marked
      have inRest := (List.cons_prefix_cons.mp (List.cons_prefix_cons.mp isFront).2).2
      exact ⟨_, value, inRest, number, large⟩
  · rintro ⟨front, value, isFront, number, large⟩
    obtain ⟨x, isX⟩ := marked
    have inText := (List.prefix_cons_inj '0').mpr ((List.prefix_cons_inj x).mpr isFront)
    exact ⟨_, value, inText, .hexadecimal isX number, large⟩

theorem spelling_of_unmarked {text front : Text} {value : Nat} (unmarked : ∀ rest, ¬Marked text rest)
    (isFront : front <+: text) : Spelling front value ↔ IsUnsigned 10 front value := by
  constructor
  · intro spelling
    obtain ⟨number⟩ | ⟨isX, _⟩ := spelling
    · exact number
    · obtain ⟨more, rfl⟩ := isFront
      exact absurd (.intro _ isX) (unmarked _)
  · exact .decimal

/-- The number that is read for a text. Its radix depends on the front of the text, and no number of another radix could
be meant. -/
theorem exists_number (text : Text) :
    ∃ radix number, 0 < radix ∧ ofText text = readUnsigned radix (2 ^ 64) number ∧
      (∀ value, Spelling text.trim value ↔ IsUnsigned radix number value) ∧
      (Overflows text.trim ↔ ∃ front value, front <+: number ∧ IsUnsigned radix front value ∧ 2 ^ 64 ≤ value) ∧
      (number = [] ↔ text.trim = [] ∨ text.trim = "0x" ∨ text.trim = "0X") := by
  by_cases marked : ∃ rest, Marked text.trim rest
  · obtain ⟨rest, marked⟩ := marked
    refine ⟨16, rest, by decide, ofText_of_marked marked, fun _ => spelling_of_marked marked,
      overflows_of_marked marked, ?_⟩
    generalize text.trim = trimmed at marked
    obtain ⟨x, rfl | rfl⟩ := marked
    · simp
    · simp
  · have unmarked : ∀ rest, ¬Marked text.trim rest := not_exists.mp marked
    refine ⟨10, text.trim, by decide, ofText_of_unmarked unmarked,
      fun _ => spelling_of_unmarked unmarked List.prefix_rfl, ?_, ?_⟩
    · exact exists_congr fun front => exists_congr fun value => and_congr_right fun isFront =>
        and_congr_left fun _ => spelling_of_unmarked unmarked isFront
    · constructor
      · exact Or.inl
      · rintro (empty | small | capital)
        · exact empty
        · exact absurd (small ▸ .intro 'x' (.inl rfl)) (unmarked [])
        · exact absurd (capital ▸ .intro 'X' (.inr rfl)) (unmarked [])

theorem ofText_eq_ok_iff {text : Text} {n : Nat} : ofText text = .ok n ↔ Spelling text.trim n ∧ n < 2 ^ 64 := by
  obtain ⟨radix, number, base, read, spelling, _, _⟩ := exists_number text
  rw [read, readUnsigned_eq_ok_iff (by decide) base, spelling]

theorem ofText_eq_empty_iff {text : Text} :
    ofText text = .error .empty ↔ text.trim = [] ∨ text.trim = "0x" ∨ text.trim = "0X" := by
  obtain ⟨radix, number, _, read, _, _, nothing⟩ := exists_number text
  rw [read, readUnsigned_eq_empty_iff, nothing]

theorem ofText_eq_tooLarge_iff {text : Text} : ofText text = .error .tooLarge ↔ Overflows text.trim := by
  obtain ⟨radix, number, _, read, _, overflows, _⟩ := exists_number text
  rw [read, readUnsigned_eq_tooLarge_iff (by decide), overflows]

theorem newline_notMem_text (address : Nat) : '\n' ∉ Address.text address :=
  newline_notMem_append (by decide) (padded_isPlainToken (by decide) (by decide) 2 address).newline_notMem

/-- Blanks around an address do not keep it from being read. -/
theorem ofText_surround {n : Nat} {number before after : Text} (below : n < 2 ^ 64) (token : IsPlainToken number)
    (blankBefore : ∀ c ∈ before, Text.isBlank c = true) (blankAfter : ∀ c ∈ after, Text.isBlank c = true)
    (spelling : Spelling number n) : ofText (before ++ number ++ after) = .ok n := by
  rw [ofText_eq_ok_iff, Text.trim_surround blankBefore blankAfter, token.isToken.trim_eq]
  exact ⟨spelling, below⟩

theorem isUnsigned_of_readDigits {radix limit n : Nat} {digits : Text} (base : 0 < radix) (positive : 0 < limit)
    (nonempty : digits ≠ []) (read : readDigits radix limit 0 digits = .ok n) :
    IsPlainToken digits ∧ IsUnsigned radix digits n := by
  obtain ⟨all, rfl, _⟩ := (readDigits_eq_ok_iff base positive).mp read
  exact ⟨⟨nonempty, fun c member => isPlain_of_isSome_digit? (all c member)⟩, .plain nonempty all⟩

theorem spelling_decimal {n : Nat} (below : n < 2 ^ 64) : IsPlainToken (decimal n) ∧ Spelling (decimal n) n := by
  have read := readDigits_toDigits (by decide : 1 < 10) (by decide) below
  obtain ⟨token, number⟩ := isUnsigned_of_readDigits (by decide) (by decide) Nat.toDigits_ne_nil read
  exact ⟨token, .decimal number⟩

theorem spelling_hexadecimal {n width : Nat} {x : Char} {digits : Text} (below : n < 2 ^ 64) (isX : x = 'x' ∨ x = 'X')
    (same : Text.sameLetters digits (padded 16 width n) = true) :
    IsPlainToken ('0' :: x :: digits) ∧ Spelling ('0' :: x :: digits) n := by
  have folded : digits.upper = (padded 16 width n).upper := beq_iff_eq.mp same
  have read : readDigits 16 (2 ^ 64) 0 digits = .ok n := by
    rw [← readDigits_upper, folded, readDigits_upper, readDigits_padded (by decide) (by decide) below]
  have nonempty : digits ≠ [] := by
    rintro rfl
    have token := padded_isPlainToken (by decide : 1 < 16) (by decide) width n
    exact token.ne_nil (List.map_eq_nil_iff.mp folded.symm)
  obtain ⟨token, number⟩ := isUnsigned_of_readDigits (by decide) (by decide) nonempty read
  have plain : isPlain x = true := by
    rcases isX with rfl | rfl
    · decide
    · decide
  exact ⟨(token.cons plain).cons (by decide), .hexadecimal isX number⟩

/-- An address is read from its decimal digits, from its hexadecimal ones in either case with zeros in front, and so
from the form that listings print, with any blanks around. Nothing is an address but an optional `0x` or `0X`, an
optional plus sign and digits, with a value below 2⁶⁴. Any other text is empty if nothing follows the `0x`, too large if
the digits at its front reach 2⁶⁴, and has an invalid digit otherwise. -/
theorem ofText_exact :
    (∀ (n : Nat) (before after : Text), n < 2 ^ 64 → (∀ c ∈ before, Text.isBlank c = true) →
      (∀ c ∈ after, Text.isBlank c = true) →
      ofText (before ++ decimal n ++ after) = .ok n ∧
      (∀ (x : Char) (width : Nat) (digits : Text), x = 'x' ∨ x = 'X' →
        Text.sameLetters digits (padded 16 width n) = true → ofText (before ++ '0' :: x :: digits ++ after) = .ok n) ∧
      ofText (before ++ Address.text n ++ after) = .ok n) ∧
    ∀ text : Text,
      (∀ n, ofText text = .ok n ↔ Spelling text.trim n ∧ n < 2 ^ 64) ∧
      (ofText text = .error .empty ↔ text.trim = [] ∨ text.trim = "0x" ∨ text.trim = "0X") ∧
      (ofText text = .error .tooLarge ↔ Overflows text.trim) ∧
      (ofText text = .error .invalidDigit ↔ (¬∃ n, Spelling text.trim n ∧ n < 2 ^ 64) ∧
        ¬(text.trim = [] ∨ text.trim = "0x" ∨ text.trim = "0X") ∧ ¬Overflows text.trim) := by
  refine ⟨?_, ?_⟩
  · intro n before after below blankBefore blankAfter
    have hexadecimal : ∀ (x : Char) (width : Nat) (digits : Text), x = 'x' ∨ x = 'X' →
        Text.sameLetters digits (padded 16 width n) = true →
        ofText (before ++ '0' :: x :: digits ++ after) = .ok n := by
      intro x width digits isX same
      obtain ⟨token, spelling⟩ := spelling_hexadecimal below isX same
      exact ofText_surround below token blankBefore blankAfter spelling
    obtain ⟨token, spelling⟩ := spelling_decimal below
    exact ⟨ofText_surround below token blankBefore blankAfter spelling, hexadecimal,
      hexadecimal 'x' 2 (padded 16 2 n) (.inl rfl) (beq_iff_eq.mpr rfl)⟩
  · intro text
    refine ⟨fun n => ofText_eq_ok_iff, ofText_eq_empty_iff, ofText_eq_tooLarge_iff, ?_⟩
    simp only [← ofText_eq_ok_iff, ← ofText_eq_empty_iff, ← ofText_eq_tooLarge_iff]
    cases read : ofText text with
    | ok n => simp
    | error error => cases error <;> simp

/-- The greatest address in mixed case with zeros in front, and a number that is too large before its letter is met. -/
theorem ofText_exact_greatest :
    ofText ("\u3000" ++ '0' :: 'X' :: "00fFFFffffFFFFffFf" ++ "\t") = .ok 0xFFFFFFFFFFFFFFFF ∧
      ofText " 18446744073709551616z" = .error .tooLarge := by
  obtain ⟨printed, refused⟩ := ofText_exact
  obtain ⟨_, hexadecimal, _⟩ := printed 0xFFFFFFFFFFFFFFFF "\u3000" "\t" (by decide)
    (List.all_eq_true.mp (by decide)) (List.all_eq_true.mp (by decide))
  refine ⟨hexadecimal 'X' 18 "00fFFFffffFFFFffFf" (.inr rfl) (by decide), ?_⟩
  have digits : AllDigits 10 "18446744073709551616" := List.all_eq_true.mp (by decide)
  exact (refused _).2.2.1.mpr ⟨_, _, ⟨['z'], rfl⟩, .decimal (.plain (by decide) digits), by decide⟩

end Address

end SimtAsm
