import Mathlib.Algebra.Group.Int.Defs
import Mathlib.Algebra.Group.Nat.Defs
import SimtAsm.Isa.Op

namespace SimtAsm

theorem Word.toNat_low (word : Word) (bits : Nat) : (low word bits).toNat = word.toNat % 2 ^ bits := by
  apply Nat.eq_of_testBit_eq
  intro i
  rw [Nat.testBit_mod_two_pow, BitVec.testBit_toNat, BitVec.testBit_toNat, getLsbD_low, Bool.and_comm]

namespace Field

theorem toNat_get (field : Field) (word : Word) :
    (field.get word).toNat = word.toNat / 2 ^ field.shift % 2 ^ field.bits := by
  rw [get, Word.toNat_low, BitVec.toNat_ushiftRight, Nat.shiftRight_eq_div_pow]

/-- A field that lies inside the word loses nothing of its value. -/
theorem toNat_put {field : Field} (inside : field.shift + field.bits ≤ 16) (value : Word) :
    (field.put value).toNat = value.toNat % 2 ^ field.bits * 2 ^ field.shift := by
  rw [put, BitVec.toNat_shiftLeft, Word.toNat_low, Nat.shiftLeft_eq]
  apply Nat.mod_eq_of_lt
  calc value.toNat % 2 ^ field.bits * 2 ^ field.shift < 2 ^ field.bits * 2 ^ field.shift :=
        Nat.mul_lt_mul_of_pos_right (Nat.mod_lt _ (Nat.two_pow_pos _)) (Nat.two_pow_pos _)
    _ = 2 ^ (field.shift + field.bits) := by rw [← Nat.pow_add, Nat.add_comm]
    _ ≤ 2 ^ 16 := Nat.pow_le_pow_right (by decide) inside

/-- Above smaller numbers a field adds its value. -/
theorem toNat_put_or {field : Field} (inside : field.shift + field.bits ≤ 16) (value : Word) {rest : Word}
    (below : rest.toNat < 2 ^ field.shift) :
    (field.put value ||| rest).toNat = 2 ^ field.shift * (value.toNat % 2 ^ field.bits) + rest.toNat := by
  rw [BitVec.toNat_or, toNat_put inside, Nat.mul_comm, Nat.two_pow_add_eq_or_of_lt below]

/-- The bits of a word that belong to a field. -/
def mask (field : Field) : Word := field.put (BitVec.allOnes 16)

/-- One field ends before the other begins. -/
def Apart (a b : Field) : Prop := a.shift + a.bits ≤ b.shift ∨ b.shift + b.bits ≤ a.shift

instance (a b : Field) : Decidable (Apart a b) := inferInstanceAs (Decidable (_ ∨ _))

/-- Bit `i` of a word belongs to the field. -/
def Covers (field : Field) (i : Nat) : Prop := field.shift ≤ i ∧ i < field.shift + field.bits

instance (field : Field) (i : Nat) : Decidable (Covers field i) := inferInstanceAs (Decidable (_ ∧ _))

/-- No bit belongs to both fields. -/
def Separate (a b : Field) : Prop := ∀ i, a.Covers i → ¬b.Covers i

/-- Fields that have bits are separate if one ends before the other begins. A field of no bits may stand anywhere, also in
the middle of another one. -/
theorem separate_iff {a b : Field} : a.Separate b ↔ a.bits = 0 ∨ b.bits = 0 ∨ a.Apart b := by
  unfold Separate Covers Apart
  constructor
  · intro separate
    -- Were they to overlap, the later of the two beginnings would be a common bit.
    have first := separate (max a.shift b.shift)
    omega
  · intro places i
    omega

instance (a b : Field) : Decidable (Separate a b) := decidable_of_iff _ separate_iff.symm

theorem Separate.symm {a b : Field} (separate : a.Separate b) : b.Separate a :=
  fun i second first => separate i first second

theorem getLsbD_get (field : Field) (word : Word) (i : Nat) :
    (field.get word).getLsbD i = (word.getLsbD (field.shift + i) && decide (i < field.bits)) := by
  rw [get, Word.getLsbD_low, BitVec.getLsbD_ushiftRight]

theorem getLsbD_put (field : Field) (value : Word) (i : Nat) :
    (field.put value).getLsbD i =
      (decide (i < 16) && (decide (field.shift ≤ i) &&
        (value.getLsbD (i - field.shift) && decide (i - field.shift < field.bits)))) := by
  rw [put, BitVec.getLsbD_shiftLeft, Word.getLsbD_low]
  by_cases above : field.shift ≤ i
  · simp [above, Nat.not_lt.mpr above]
  · simp [above, Nat.not_le.mp above]

theorem get_or (field : Field) (a b : Word) : field.get (a ||| b) = field.get a ||| field.get b := by
  apply BitVec.eq_of_getLsbD_eq
  intro i _
  simp only [getLsbD_get, BitVec.getLsbD_or, Bool.and_or_distrib_right]

theorem get_put_self {field : Field} (inside : field.shift + field.bits ≤ 16) (value : Word) :
    field.get (field.put value) = Word.low value field.bits := by
  apply BitVec.eq_of_getLsbD_eq
  intro i _
  rw [getLsbD_get, getLsbD_put, Word.getLsbD_low]
  by_cases within : i < field.bits
  · simp [within, show field.shift + i < 16 by omega]
  · simp [within]

theorem getLsbD_put_of_not_covers {field : Field} {i : Nat} (outside : ¬field.Covers i) (value : Word) :
    (field.put value).getLsbD i = false := by
  rw [getLsbD_put]
  by_cases above : field.shift ≤ i
  · have beyond : ¬i - field.shift < field.bits := fun within => outside ⟨above, by omega⟩
    simp [beyond]
  · simp [above]

/-- A field reads nothing from a word that has no bit in it. -/
theorem get_eq_zero {field : Field} {word : Word} (clear : ∀ i, field.Covers i → word.getLsbD i = false) :
    field.get word = 0#16 := by
  apply BitVec.eq_of_getLsbD_eq
  intro i _
  rw [getLsbD_get, BitVec.getLsbD_zero]
  by_cases within : i < field.bits
  · rw [clear (field.shift + i) ⟨Nat.le_add_right _ _, Nat.add_lt_add_left within _⟩, Bool.false_and]
  · rw [decide_eq_false within, Bool.and_false]

theorem get_put_of_separate {field other : Field} (separate : field.Separate other) (value : Word) :
    field.get (other.put value) = 0#16 :=
  get_eq_zero fun i covers => getLsbD_put_of_not_covers (separate i covers) value

theorem get_put_of_apart {field other : Field} (apart : Apart field other) (value : Word) :
    field.get (other.put value) = 0#16 :=
  get_put_of_separate (separate_iff.mpr (Or.inr (Or.inr apart))) value

/-- Clearing bits outside a field does not change it. -/
theorem get_and_not {field : Field} {bits : Word} (outside : field.get bits = 0#16) (word : Word) :
    field.get (word &&& ~~~bits) = field.get word := by
  apply BitVec.eq_of_getLsbD_eq
  intro i _
  have clear : (field.get bits).getLsbD i = false := by rw [outside, BitVec.getLsbD_zero]
  rw [getLsbD_get] at clear
  rw [getLsbD_get, getLsbD_get, BitVec.getLsbD_and, BitVec.getLsbD_not]
  by_cases within : i < field.bits
  · by_cases inWord : field.shift + i < 16
    · rw [decide_eq_true within, Bool.and_true] at clear
      rw [clear, decide_eq_true inWord, Bool.not_false, Bool.and_true, Bool.and_true]
    · simp [BitVec.getLsbD_of_ge word _ (Nat.not_lt.mp inWord)]
  · simp [within]

/-- Taking a field out and putting it back keeps its bits and clears the others. -/
theorem put_get (field : Field) (word : Word) : field.put (field.get word) = word &&& field.mask := by
  apply BitVec.eq_of_getLsbD_eq
  intro i bound
  rw [mask, BitVec.getLsbD_and, getLsbD_put, getLsbD_put, getLsbD_get]
  by_cases above : field.shift ≤ i
  · have back : field.shift + (i - field.shift) = i := by omega
    have short : i - field.shift < 16 := by omega
    simp only [back, bound, above, short, BitVec.getLsbD_allOnes, decide_true, Bool.true_and, Bool.and_assoc,
      Bool.and_self]
  · simp [above]

theorem getLsbD_mask (field : Field) {i : Nat} (bound : i < 16) : field.mask.getLsbD i = decide (field.Covers i) := by
  by_cases covers : field.Covers i
  · have within : i - field.shift < field.bits := Nat.sub_lt_left_of_lt_add covers.1 covers.2
    have short : i - field.shift < 16 := by omega
    rw [mask, getLsbD_put, BitVec.getLsbD_allOnes, decide_eq_true covers]
    simp only [bound, covers.1, short, within, decide_true, Bool.and_self]
  · rw [mask, getLsbD_put_of_not_covers covers, decide_eq_false covers]

theorem put_ofNat_get (field : Field) (word : Word) :
    field.put (BitVec.ofNat 16 (field.get word).toNat) = word &&& field.mask := by
  rw [BitVec.ofNat_toNat, BitVec.setWidth_eq, put_get]

theorem put_ofNat_mod {field : Field} (small : field.bits ≤ 16) (n : Nat) :
    field.put (BitVec.ofNat 16 (n % 2 ^ field.bits)) = field.put (BitVec.ofNat 16 n) := by
  have divides : 2 ^ field.bits ∣ 2 ^ 16 := Nat.pow_dvd_pow 2 small
  have same : Word.low (BitVec.ofNat 16 (n % 2 ^ field.bits)) field.bits = Word.low (BitVec.ofNat 16 n) field.bits := by
    apply BitVec.eq_of_toNat_eq
    rw [Word.toNat_low, Word.toNat_low, BitVec.toNat_ofNat, BitVec.toNat_ofNat, Nat.mod_mod_of_dvd _ divides,
      Nat.mod_mod_of_dvd _ divides, Nat.mod_mod]
  rw [put, put, same]

end Field

namespace Word

/-- An immediate stands at the low end, so that its two's complement already is its field. -/
theorem ofSigned_immediate (value : Int) :
    ofSigned value Field.immediate.bits = Field.immediate.put (BitVec.ofInt 16 value) := by
  rw [ofSigned, Field.put]
  exact (BitVec.shiftLeft_zero _).symm

theorem toSigned_eq_bmod {bits : Nat} (positive : 0 < bits) (small : bits ≤ 16) (word : Word) :
    word.toSigned bits = (word.toNat : Int).bmod (2 ^ bits) := by
  have split : 2 ^ 16 = 2 ^ (16 - bits) * 2 ^ bits := by rw [← Nat.pow_add, Nat.sub_add_cancel small]
  have even : 2 ∣ 2 ^ bits := Nat.pow_dvd_pow 2 positive
  have nonzero : ((2 ^ (16 - bits) : Nat) : Int) ≠ 0 := Int.natCast_ne_zero.mpr (Nat.ne_of_gt (Nat.two_pow_pos _))
  -- Shifting up and down again multiplies and divides by the same power of two.
  rw [toSigned, BitVec.toInt_sshiftRight, BitVec.toInt_shiftLeft, Int.shiftRight_eq_div_pow, split,
    Nat.shiftLeft_eq, Nat.mul_comm, Int.natCast_mul, Int.mod_bmod_mul_of_pos _ _ (Nat.two_pow_pos _) even]
  exact Int.mul_ediv_cancel_left _ nonzero

theorem toNat_ofSigned {bits : Nat} (small : bits ≤ 16) (value : Int) :
    ((ofSigned value bits).toNat : Int) = value % 2 ^ bits := by
  have divides : ((2 ^ bits : Nat) : Int) ∣ ((2 ^ 16 : Nat) : Int) :=
    Int.natCast_dvd_natCast.mpr (Nat.pow_dvd_pow 2 small)
  rw [ofSigned, toNat_low, Int.natCast_emod, BitVec.toNat_ofInt, Int.toNat_of_nonneg (by omega),
    Int.emod_emod_of_dvd _ divides, Int.natCast_pow]
  rfl

/-- A number that fits a field comes back from it; any other comes back as the one that fits and has the same
low bits. -/
theorem toSigned_ofSigned {bits : Nat} (positive : 0 < bits) (small : bits ≤ 16) (value : Int) :
    (ofSigned value bits).toSigned bits = value.bmod (2 ^ bits) := by
  rw [toSigned_eq_bmod positive small, toNat_ofSigned small]
  exact Int.emod_bmod _ _

theorem ofSigned_toSigned {bits : Nat} (positive : 0 < bits) (small : bits ≤ 16) (word : Word) :
    ofSigned (word.toSigned bits) bits = low word bits := by
  apply BitVec.eq_of_toNat_eq
  apply Int.ofNat_inj.mp
  rw [toNat_ofSigned small, toSigned_eq_bmod positive small, toNat_low, Int.natCast_emod, Int.natCast_pow]
  exact Int.bmod_emod

end Word

end SimtAsm
