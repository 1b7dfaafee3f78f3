import Mathlib.Data.List.TakeWhile
import SimtAsm.Assembly.Source
import SimtAsm.Assembly.SymbolTable
import SimtAsm.Text.Numeral

namespace SimtAsm

namespace Text

theorem toNat_toUpper (c : Char) :
    c.toUpper.toNat = if 97 ≤ c.toNat ∧ c.toNat ≤ 122 then c.toNat - 32 else c.toNat := by
  by_cases small : 'a'.val ≤ c.val ∧ c.val ≤ 'z'.val
  · have lower : 97 ≤ c.toNat := UInt32.le_iff_toNat_le.mp small.1
    have upper : c.toNat ≤ 122 := UInt32.le_iff_toNat_le.mp small.2
    have moved : c.toUpper = ⟨c.val + ('A'.val - 'a'.val), _⟩ := dif_pos small
    have wrapped := (congrArg Char.toNat moved).trans (UInt32.toNat_add ..)
    have step : ('A'.val - 'a'.val).toNat = 4294967264 := rfl
    have code : c.val.toNat = c.toNat := rfl
    rw [step, code] at wrapped
    rw [if_pos ⟨lower, upper⟩]
    exact wrapped.trans (by omega)
  · have kept : c.toUpper = c := dif_neg small
    rw [kept, if_neg]
    rintro ⟨lower, upper⟩
    exact small ⟨UInt32.le_iff_toNat_le.mpr lower, UInt32.le_iff_toNat_le.mpr upper⟩

theorem toUpper_toUpper (c : Char) : c.toUpper.toUpper = c.toUpper := by
  apply Char.toNat_inj.mp
  rw [toNat_toUpper c.toUpper, if_neg]
  have moved := toNat_toUpper c
  split at moved <;> omega

/-- Below the letters nothing is folded, and nothing is folded to there. -/
theorem toUpper_of_low {c : Char} (low : c.toNat < 65 ∨ c.toUpper.toNat < 65) : c.toUpper = c := by
  have moved := toNat_toUpper c
  apply Char.toNat_inj.mp
  split at moved <;> omega

theorem toUpper_eq_low_iff {c low : Char} (isLow : low.toNat < 65) : c.toUpper = low ↔ c = low := by
  constructor
  · intro same
    have kept := toUpper_of_low (Or.inr (same ▸ isLow))
    rwa [kept] at same
  · rintro rfl
    exact toUpper_of_low (Or.inl isLow)

theorem toUpper_beq_low {low : Char} (isLow : low.toNat < 65) (c : Char) : (c.toUpper == low) = (c == low) := by
  rw [Bool.eq_iff_iff, beq_iff_eq, beq_iff_eq, toUpper_eq_low_iff isLow]

theorem toUpper_of_isDigit {c : Char} (digit : c.isDigit = true) : c.toUpper = c := by
  have upper : c.toNat ≤ 57 := (Char.isDigit_iff_toNat.mp digit).2
  exact toUpper_of_low (Or.inl (by omega))

theorem isBlank_toUpper (c : Char) : isBlank c.toUpper = isBlank c := by
  have moved := toNat_toUpper c
  split at moved
  · have solid : ∀ x : Char, 65 ≤ x.toNat → x.toNat ≤ 122 → isBlank x = false := by
      intro x lower upper
      simp only [isBlank, Bool.or_eq_false_iff, Bool.and_eq_false_iff, decide_eq_false_iff_not, beq_eq_false_iff_ne]
      omega
    rw [solid c (by omega) (by omega), solid c.toUpper (by omega) (by omega)]
  · rw [Char.toNat_inj.mp moved]

theorem upper_upper (text : Text) : text.upper.upper = text.upper := by
  simp only [upper, List.map_map]
  exact List.map_congr_left fun c _ => toUpper_toUpper c

theorem toUpper_of_mem_upper {text : Text} {c : Char} (member : c ∈ text.upper) : c.toUpper = c := by
  obtain ⟨x, _, rfl⟩ := List.mem_map.mp member
  exact toUpper_toUpper x

theorem upper_of_low {text : Text} (low : ∀ c ∈ text, c.toNat < 65 ∨ c.toUpper.toNat < 65) : text.upper = text :=
  (List.map_congr_left fun c member => toUpper_of_low (low c member)).trans (List.map_id _)

theorem trim_upper (text : Text) : text.upper.trim = text.trim.upper := by
  have same : isBlank ∘ Char.toUpper = isBlank := funext isBlank_toUpper
  simp only [trim, trimStart, trimEnd, upper, List.dropWhile_map, same, ← List.map_reverse]

end Text

namespace Numeral

theorem digitValue?_eq (c : Char) : digitValue? c =
    if 48 ≤ c.toNat ∧ c.toNat ≤ 57 then some (c.toNat - 48)
    else if 97 ≤ c.toNat ∧ c.toNat ≤ 102 then some (c.toNat - 87)
    else if 65 ≤ c.toNat ∧ c.toNat ≤ 70 then some (c.toNat - 55) else none := by
  have digit : c.isDigit = true ↔ 48 ≤ c.toNat ∧ c.toNat ≤ 57 := Char.isDigit_iff_toNat
  have small : 'a' ≤ c ∧ c ≤ 'f' ↔ 97 ≤ c.toNat ∧ c.toNat ≤ 102 :=
    and_congr UInt32.le_iff_toNat_le UInt32.le_iff_toNat_le
  have capital : 'A' ≤ c ∧ c ≤ 'F' ↔ 65 ≤ c.toNat ∧ c.toNat ≤ 70 :=
    and_congr UInt32.le_iff_toNat_le UInt32.le_iff_toNat_le
  have zero : '0'.toNat = 48 := rfl
  have first : 'a'.toNat = 97 := rfl
  have firstCapital : 'A'.toNat = 65 := rfl
  simp only [digitValue?, digit, small, capital, zero, first, firstCapital]
  split
  · rfl
  · split
    · congr 1
      omega
    · split
      · congr 1
        omega
      · rfl

theorem digitValue?_toUpper (c : Char) : digitValue? c.toUpper = digitValue? c := by
  have moved := Text.toNat_toUpper c
  split at moved
  · rw [digitValue?_eq, digitValue?_eq, moved, if_neg (by omega), if_neg (by omega)]
    by_cases isDigit : c.toNat ≤ 102
    · rw [if_pos (by omega), if_neg (by omega), if_pos (by omega), Nat.sub_sub]
    · rw [if_neg (by omega), if_neg (by omega), if_neg (by omega), if_neg (by omega)]
  · rw [Char.toNat_inj.mp moved]

/-- Letters count as digits in either case. -/
theorem readDigits_upper (radix limit acc : Nat) (text : Text) :
    readDigits radix limit acc text.upper = readDigits radix limit acc text := by
  induction text generalizing acc with
  | nil => rfl
  | cons c rest ih =>
    have folded : Text.upper (c :: rest) = c.toUpper :: Text.upper rest := rfl
    simp only [folded, readDigits, digit?, digitValue?_toUpper, ih]

end Numeral

theorem Source.isSeparator_toUpper (c : Char) : isSeparator c.toUpper = isSeparator c := by
  rw [isSeparator, isSeparator, Text.isBlank_toUpper, Text.toUpper_beq_low (by decide)]

theorem SymbolTable.key_upper (label : Text) : key label.upper = key label := by
  rw [key, key, Text.trim_upper, Text.upper_upper]

theorem SymbolTable.get?_upper (table : SymbolTable) (label : Text) : table.get? label.upper = table.get? label := by
  rw [get?, get?, key_upper]

end SimtAsm
