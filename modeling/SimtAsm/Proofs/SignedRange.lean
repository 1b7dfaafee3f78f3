import Mathlib.Algebra.Group.Basic
import SimtAsm.Proofs.Fields
import SimtAsm.Word.Integer

namespace SimtAsm

/-- The balanced remainder is the only number of a two's-complement field with the same low bits. -/
theorem bmod_two_pow_eq_iff {bits : Nat} (positive : 0 < bits) {value back : Int} :
    value.bmod (2 ^ bits) = back ↔
      -2 ^ (bits - 1) ≤ back ∧ back ≤ 2 ^ (bits - 1) - 1 ∧ back % 2 ^ bits = value % 2 ^ bits := by
  have double : 2 * (2 : Int) ^ (bits - 1) = 2 ^ bits := mul_pow_sub_one (Nat.ne_of_gt positive) 2
  have modulus : ((2 ^ bits : Nat) : Int) = 2 ^ bits := Int.natCast_pow 2 bits
  have lower : (2 : Int) ^ bits / 2 = 2 ^ (bits - 1) := by omega
  have upper : ((2 : Int) ^ bits + 1) / 2 = 2 ^ (bits - 1) := by omega
  rw [Int.bmod_eq_iff (Nat.two_pow_pos bits), modulus, lower, upper, Int.emod_eq_emod_iff_emod_sub_eq_zero,
    ← Int.dvd_iff_emod_eq_zero, Int.le_sub_one_iff]

namespace IntType

variable {width bits : Nat}

theorem weight_eq (bit : Nat) : (weight bit : Int) = 2 ^ bit := by
  rw [weight, Nat.one_shiftLeft, Int.natCast_pow]
  rfl

theorem wrap_eq_iff (positive : 0 < width) {value wrapped : Int} :
    (twosComplement width).wrap value = wrapped ↔
      -2 ^ (width - 1) ≤ wrapped ∧ wrapped ≤ 2 ^ (width - 1) - 1 ∧ wrapped % 2 ^ width = value % 2 ^ width := by
  rw [← bmod_two_pow_eq_iff positive, ← Nat.one_shiftLeft]
  rfl

theorem sub_eq (width : Nat) (a b : Int) :
    (twosComplement width).sub a b =
      if -2 ^ (width - 1) ≤ a - b ∧ a - b ≤ 2 ^ (width - 1) - 1 then .ok (a - b) else .error .sub := by
  simp only [← weight_eq]
  rfl

/-- A power of two that is not the sign is a number of the type, and so is the mask under it. -/
theorem mask_of_narrow (narrow : bits + 1 < width) : (twosComplement width).mask bits = .ok (2 ^ bits - 1) := by
  have positive : (0 : Int) < 2 ^ bits := Int.pow_pos (by decide)
  have small : (2 : Int) ^ bits < 2 ^ (width - 1) := Int.pow_lt_pow_of_lt (by decide) (by omega)
  have power : (twosComplement width).wrap (weight bits) = 2 ^ bits := by
    rw [weight_eq]
    exact (wrap_eq_iff (by omega)).mpr ⟨by omega, by omega, rfl⟩
  have wide : ¬(twosComplement width).width ≤ bits := Nat.not_le.mpr (by change bits < width; omega)
  rw [mask, if_neg wide, power, sub_eq, if_pos ⟨by omega, by omega⟩]

/-- The power of two in the place of the sign wraps to the least number, which has none below it. -/
theorem mask_overflows (bits : Nat) : (twosComplement (bits + 1)).mask bits = .error .sub := by
  have positive : (0 : Int) < 2 ^ bits := Int.pow_pos (by decide)
  have double : (2 : Int) ^ (bits + 1) = 2 * 2 ^ bits := pow_succ' 2 bits
  have power : (twosComplement (bits + 1)).wrap (weight bits) = -2 ^ bits := by
    rw [weight_eq, wrap_eq_iff (Nat.add_one_pos bits), Nat.add_sub_cancel, double,
      Int.emod_eq_emod_iff_emod_sub_eq_zero]
    refine ⟨Int.le_refl _, by omega, ?_⟩
    rw [show -(2 : Int) ^ bits - 2 ^ bits = 2 * 2 ^ bits * -1 by omega]
    exact Int.mul_emod_right _ _
  have wide : ¬(twosComplement (bits + 1)).width ≤ bits := Nat.not_succ_le_self bits
  rw [mask, if_neg wide, power, sub_eq, Nat.add_sub_cancel, if_neg (by omega)]

theorem signedBounds_of_narrow (positive : 0 < bits) (narrow : bits < width) :
    (twosComplement width).signedBounds bits = .ok (-2 ^ (bits - 1), 2 ^ (bits - 1) - 1) := by
  have small : (2 : Int) ^ (bits - 1) < 2 ^ (width - 1) := Int.pow_lt_pow_of_lt (by decide) (by omega)
  have power : (0 : Int) < 2 ^ (bits - 1) := Int.pow_pos (by decide)
  have least : -((2 : Int) ^ (bits - 1) - 1) - 1 = -2 ^ (bits - 1) := by omega
  have lower : (twosComplement width).sub (-(2 ^ (bits - 1) - 1)) 1 = .ok (-2 ^ (bits - 1)) := by
    rw [sub_eq, least, if_pos ⟨by omega, by omega⟩]
  rw [signedBounds, if_neg (Nat.ne_of_gt positive), mask_of_narrow (by omega)]
  simp only [bind, Except.bind, lower, pure, Except.pure]

theorem signedBounds_overflows (positive : 0 < bits) : (twosComplement bits).signedBounds bits = .error .sub := by
  obtain ⟨rest, rfl⟩ := Nat.exists_eq_add_of_lt positive
  rw [Nat.zero_add, signedBounds, if_neg (Nat.succ_ne_zero rest), Nat.add_sub_cancel, mask_overflows]
  rfl

theorem fitsSigned_of_bounds {t : IntType} {least greatest : Int} (bounds : t.signedBounds bits = .ok (least, greatest))
    (value : Int) : t.fitsSigned value bits = .ok (decide (least ≤ value ∧ value ≤ greatest)) := by
  rw [fitsSigned, bounds]
  rfl

theorem fitsSigned_eq_true_iff (positive : 0 < bits) (narrow : bits < width) {value : Int} :
    (twosComplement width).fitsSigned value bits = .ok true ↔
      -2 ^ (bits - 1) ≤ value ∧ value ≤ 2 ^ (bits - 1) - 1 := by
  rw [fitsSigned_of_bounds (signedBounds_of_narrow positive narrow), Except.ok.injEq, decide_eq_true_iff]

theorem fitsSigned_overflows {t : IntType} {overflow : Overflow} (bounds : t.signedBounds bits = .error overflow)
    (value : Int) : t.fitsSigned value bits = .error overflow := by
  rw [fitsSigned, bounds]
  rfl

/-- The range check of a field is exact in every signed type that is wider than the field. In the type of the field's own
width the bounds overflow, and the check has no answer for any number. -/
theorem fitsSigned_exact_below_width {width bits : Nat} (positive : 1 ≤ bits) (within : bits ≤ width) (value : Int) :
    (twosComplement width).fitsSigned value bits =
      if bits < width then .ok (decide (-2 ^ (bits - 1) ≤ value ∧ value ≤ 2 ^ (bits - 1) - 1)) else .error .sub := by
  by_cases narrow : bits < width
  · rw [if_pos narrow, fitsSigned_of_bounds (signedBounds_of_narrow positive narrow)]
  · obtain rfl : bits = width := Nat.le_antisymm within (Nat.not_lt.mp narrow)
    rw [if_neg narrow, fitsSigned_overflows (signedBounds_overflows positive)]

/-- A byte against fields of seven and of eight bits. -/
theorem fitsSigned_exact_below_width_byte :
    (1 ≤ 7 ∧ 7 ≤ 8 ∧ (twosComplement 8).fitsSigned (-64) 7 = .ok true) ∧
      (1 ≤ 8 ∧ 8 ≤ 8 ∧ (twosComplement 8).fitsSigned (-64) 8 = .error .sub) :=
  ⟨⟨by decide, by decide, fitsSigned_exact_below_width (by decide) (by decide) (-64)⟩,
    by decide, by decide, fitsSigned_exact_below_width (by decide) (by decide) (-64)⟩

/-- The check is not exact up to the full width: every byte fits eight bits, zero for one, and yet there is no answer. -/
theorem full_width_overflows : ¬∀ width ∈ [8, 16, 32, 64], ∀ bits, 1 ≤ bits → bits ≤ width →
    ∀ value, (twosComplement width).least ≤ value → value ≤ (twosComplement width).greatest →
      (twosComplement width).fitsSigned value bits =
        .ok (decide (-2 ^ (bits - 1) ≤ value ∧ value ≤ 2 ^ (bits - 1) - 1)) := by
  intro exact
  have answer := exact 8 (by decide) 8 (by decide) (by decide) 0 (by decide) (by decide)
  have overflow : (twosComplement 8).fitsSigned 0 8 = .error .sub := rfl
  cases answer.symm.trans overflow

end IntType

namespace Word

open IntType

theorem toSigned?_eq_ok {bits : Nat} (positive : 0 < bits) (small : bits ≤ 16) (word : Word) :
    word.toSigned? bits = .ok (word.toSigned bits) := by
  rw [toSigned?, if_neg (Nat.not_lt.mpr small), if_neg (Nat.ne_of_gt positive)]

/-- Fields of one to sixteen bits hold two's complement. A number that fits comes back from its field, every word is read
as a number that fits and gives the word's low bits again, and a number that need not fit comes back as the only one that
fits and has the same remainder. -/
theorem signed_field_exact {bits : Nat} (positive : 1 ≤ bits) (small : bits ≤ 16) :
    (∀ value, (twosComplement 64).fitsSigned value bits = .ok true → (ofSigned value bits).toSigned? bits = .ok value) ∧
      (∀ word : Word, ∃ value, word.toSigned? bits = .ok value ∧
        (ofSigned value bits).toNat = word.toNat % 2 ^ bits ∧ (twosComplement 64).fitsSigned value bits = .ok true) ∧
      ∀ value, ∃ back, (ofSigned value bits).toSigned? bits = .ok back ∧ ∀ other,
        (-2 ^ (bits - 1) ≤ other ∧ other ≤ 2 ^ (bits - 1) - 1 ∧ other % 2 ^ bits = value % 2 ^ bits) ↔ other = back := by
  have narrow : bits < 64 := by omega
  simp only [toSigned?_eq_ok positive small, Except.ok.injEq, fitsSigned_eq_true_iff positive narrow,
    toSigned_ofSigned positive small]
  refine ⟨?_, ?_, ?_⟩
  · rintro value ⟨lower, upper⟩
    exact (bmod_two_pow_eq_iff positive).mpr ⟨lower, upper, rfl⟩
  · intro word
    have read := toSigned_eq_bmod positive small word
    obtain ⟨lower, upper, _⟩ := (bmod_two_pow_eq_iff positive).mp read.symm
    exact ⟨_, rfl, by rw [ofSigned_toSigned positive small, toNat_low], lower, upper⟩
  · intro value
    refine ⟨_, rfl, fun other => ?_⟩
    rw [← bmod_two_pow_eq_iff positive, eq_comm]

/-- The least number of sixteen bits, and the greatest one of 64 bits, which does not fit. -/
theorem signed_field_exact_word : (1 ≤ 16 ∧ 16 ≤ 16) ∧
    (twosComplement 64).fitsSigned (-32768) 16 = .ok true ∧ (ofSigned (-32768) 16).toSigned? 16 = .ok (-32768) ∧
    ∃ back, (ofSigned 9223372036854775807 16).toSigned? 16 = .ok back ∧ ∀ other : Int,
      (-2 ^ 15 ≤ other ∧ other ≤ 2 ^ 15 - 1 ∧ other % 2 ^ 16 = 9223372036854775807 % 2 ^ 16) ↔ other = back := by
  have law := signed_field_exact (by decide : 1 ≤ 16) (by decide : 16 ≤ 16)
  have fits : (twosComplement 64).fitsSigned (-32768) 16 = .ok true := rfl
  exact ⟨by decide, fits, law.1 _ fits, law.2.2 9223372036854775807⟩

end Word

end SimtAsm
