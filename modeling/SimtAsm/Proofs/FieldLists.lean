import Mathlib.Algebra.GroupWithZero.Nat
import SimtAsm.Proofs.Fields

namespace SimtAsm

namespace Field

/-- A place where a word has bits, with room for the field. -/
def Inside (field : Field) : Prop := field.shift < 16 ∧ field.shift + field.bits ≤ 16

instance (field : Field) : Decidable field.Inside := inferInstanceAs (Decidable (_ ∧ _))

/-- The word that holds each value in its field; a field that cannot be shifted to its place stops it. -/
def putAll? : List (Field × Word) → Checked Word
  | [] => .ok 0#16
  | (field, value) :: rest => do
    let word ← field.put? value
    return word ||| (← putAll? rest)

/-- Each field with what it reads from a word. -/
def getAll? (word : Word) : List Field → Checked (List (Field × Word))
  | [] => .ok []
  | field :: rest => do
    let value ← field.get? word
    return (field, value) :: (← getAll? word rest)

/-- The word of a list of fields whose places exist. -/
def putAll : List (Field × Word) → Word
  | [] => 0#16
  | (field, value) :: rest => field.put value ||| putAll rest

variable {field : Field} {value word : Word} {parts : List (Field × Word)} {i : Nat}

theorem putAll?_eq_ok (placed : ∀ part ∈ parts, part.1.shift < 16) : putAll? parts = .ok (putAll parts) := by
  induction parts with
  | nil => rfl
  | cons part rest ih =>
    obtain ⟨here, later⟩ := List.forall_mem_cons.mp placed
    rw [putAll?, ih later, put?, if_pos here]
    rfl

theorem getAll?_eq_ok {fields : List Field} (placed : ∀ field ∈ fields, field.shift < 16) :
    getAll? word fields = .ok (fields.map fun field => (field, field.get word)) := by
  induction fields with
  | nil => rfl
  | cons field rest ih =>
    obtain ⟨here, later⟩ := List.forall_mem_cons.mp placed
    rw [getAll?, ih later, get?, if_pos here]
    rfl

/-- A bit is set in the whole as soon as one part sets it. -/
theorem getLsbD_putAll (parts : List (Field × Word)) (i : Nat) :
    (putAll parts).getLsbD i = parts.any fun part => (part.1.put part.2).getLsbD i := by
  induction parts with
  | nil => exact BitVec.getLsbD_zero
  | cons part rest ih => rw [putAll, BitVec.getLsbD_or, ih, List.any_cons]

theorem getLsbD_putAll_of_uncovered (uncovered : ∀ part ∈ parts, ¬part.1.Covers i) :
    (putAll parts).getLsbD i = false := by
  rw [getLsbD_putAll, List.any_eq_false]
  intro part member
  rw [getLsbD_put_of_not_covers (uncovered part member)]
  exact Bool.false_ne_true

theorem get_putAll_of_separate (separate : ∀ part ∈ parts, field.Separate part.1) : field.get (putAll parts) = 0#16 :=
  get_eq_zero fun i covers => getLsbD_putAll_of_uncovered fun part member => separate part member i covers

/-- A part and the parts behind it have no bit in common, so that nothing is carried when they are added. -/
theorem put_and_putAll (separate : ∀ part ∈ parts, field.Separate part.1) :
    field.put value &&& putAll parts = 0#16 := by
  apply BitVec.eq_of_getLsbD_eq
  intro i _
  rw [BitVec.getLsbD_and, BitVec.getLsbD_zero]
  by_cases covers : field.Covers i
  · rw [getLsbD_putAll_of_uncovered fun part member => separate part member i covers, Bool.and_false]
  · rw [getLsbD_put_of_not_covers covers, Bool.false_and]

/-- What is put into one of several separate fields is read from it, cut to the field. -/
theorem get_putAll (inside : ∀ part ∈ parts, part.1.Inside)
    (separate : parts.Pairwise fun a b => a.1.Separate b.1) {part : Field × Word} (member : part ∈ parts) :
    part.1.get (putAll parts) = Word.low part.2 part.1.bits := by
  induction parts with
  | nil => cases member
  | cons first rest ih =>
    obtain ⟨here, later⟩ := List.forall_mem_cons.mp inside
    obtain ⟨front, behind⟩ := List.pairwise_cons.mp separate
    rw [putAll, get_or]
    rcases List.mem_cons.mp member with rfl | old
    · rw [get_put_self here.2, get_putAll_of_separate front, BitVec.or_zero]
    · rw [get_put_of_separate (front part old).symm, ih later behind old, BitVec.zero_or]

/-- Separate fields add up. -/
theorem toNat_putAll (inside : ∀ part ∈ parts, part.1.Inside)
    (separate : parts.Pairwise fun a b => a.1.Separate b.1) :
    (putAll parts).toNat = (parts.map fun part => part.2.toNat % 2 ^ part.1.bits * 2 ^ part.1.shift).sum := by
  induction parts with
  | nil => rfl
  | cons first rest ih =>
    obtain ⟨here, later⟩ := List.forall_mem_cons.mp inside
    obtain ⟨front, behind⟩ := List.pairwise_cons.mp separate
    have common : first.1.put first.2 &&& putAll rest = 0#16 := put_and_putAll front
    rw [putAll, ← BitVec.add_eq_or_of_and_eq_zero _ _ common, BitVec.toNat_add_of_and_eq_zero common,
      toNat_put here.2, ih later behind, List.map_cons, List.sum_cons]

/-- Fields that leave out no bit of a word hold all of it, also where they overlap. -/
theorem putAll_get {fields : List Field} (covered : ∀ i < 16, ∃ field ∈ fields, field.Covers i) (word : Word) :
    putAll (fields.map fun field => (field, field.get word)) = word := by
  apply BitVec.eq_of_getLsbD_eq
  intro i bound
  have read : ∀ field ∈ fields,
      (field.put (field.get word)).getLsbD i = (word.getLsbD i && decide (field.Covers i)) :=
    fun field _ => by rw [put_get, BitVec.getLsbD_and, getLsbD_mask field bound]
  rw [getLsbD_putAll, List.any_map]
  cases bit : word.getLsbD i with
  | false =>
    rw [List.any_eq_false]
    intro field member
    simp [read field member, bit]
  | true =>
    obtain ⟨field, member, covers⟩ := covered i bound
    rw [List.any_eq_true]
    exact ⟨field, member, by simp [read field member, bit, covers]⟩

/-- Values put into separate fields inside a word can all be read again, each cut to its field; the bits of no field stay
clear, and the word is the sum of the values in their places. The other way round, a word is put together again from what
any fields that cover it read. -/
theorem layout_exact :
    (∀ parts : List (Field × Word), (∀ part ∈ parts, part.1.Inside) → (parts.Pairwise fun a b => a.1.Separate b.1) →
      ∃ word, putAll? parts = .ok word ∧
        (∀ part ∈ parts, (part.1.get? word).map BitVec.toNat = .ok (part.2.toNat % 2 ^ part.1.bits)) ∧
        (∀ i, (∀ part ∈ parts, ¬part.1.Covers i) → word.getLsbD i = false) ∧
        word.toNat = (parts.map fun part => part.2.toNat % 2 ^ part.1.bits * 2 ^ part.1.shift).sum) ∧
      ∀ (fields : List Field) (word : Word), (∀ field ∈ fields, field.shift < 16) →
        (∀ i < 16, ∃ field ∈ fields, field.Covers i) → (getAll? word fields >>= putAll?) = .ok word := by
  constructor
  · intro parts inside separate
    refine ⟨putAll parts, putAll?_eq_ok fun part member => (inside part member).1, ?_,
      fun _ => getLsbD_putAll_of_uncovered, toNat_putAll inside separate⟩
    intro part member
    rw [get?, if_pos (inside part member).1, get_putAll inside separate member, ← Word.toNat_low]
    rfl
  · intro fields word placed covered
    have again : ∀ part ∈ fields.map fun field => (field, field.get word), part.1.shift < 16 :=
      List.forall_mem_map.mpr placed
    rw [getAll?_eq_ok placed]
    exact (putAll?_eq_ok again).trans (congrArg Except.ok (putAll_get covered word))

/-- Four bits at the top and eight at the bottom, with values that are too large for them, and a field of no bits in the
middle of the lower one; then a word along three fields. -/
theorem layout_exact_around_empty :
    ((∀ part ∈ ([(⟨12, 4⟩, 31), (⟨4, 0⟩, 65535), (⟨0, 8⟩, 300)] : List (Field × Word)), part.1.Inside) ∧
      (([(⟨12, 4⟩, 31), (⟨4, 0⟩, 65535), (⟨0, 8⟩, 300)] : List (Field × Word)).Pairwise fun a b => a.1.Separate b.1) ∧
      ∃ word, putAll? [(⟨12, 4⟩, 31), (⟨4, 0⟩, 65535), (⟨0, 8⟩, 300)] = .ok word ∧
        word.toNat = 15 * 2 ^ 12 + (0 * 2 ^ 4 + 44 * 2 ^ 0)) ∧
      (∀ field ∈ ([⟨12, 4⟩, ⟨0, 8⟩, ⟨8, 4⟩] : List Field), field.shift < 16) ∧
      (∀ i < 16, ∃ field ∈ ([⟨12, 4⟩, ⟨0, 8⟩, ⟨8, 4⟩] : List Field), field.Covers i) ∧
      (getAll? 0xBEEF [⟨12, 4⟩, ⟨0, 8⟩, ⟨8, 4⟩] >>= putAll?) = .ok 0xBEEF := by
  have inside : ∀ part ∈ ([(⟨12, 4⟩, 31), (⟨4, 0⟩, 65535), (⟨0, 8⟩, 300)] : List (Field × Word)), part.1.Inside := by
    decide
  have separate : ([(⟨12, 4⟩, 31), (⟨4, 0⟩, 65535), (⟨0, 8⟩, 300)] : List (Field × Word)).Pairwise
      fun a b => a.1.Separate b.1 := by decide
  have placed : ∀ field ∈ ([⟨12, 4⟩, ⟨0, 8⟩, ⟨8, 4⟩] : List Field), field.shift < 16 := by decide
  have covered : ∀ i < 16, ∃ field ∈ ([⟨12, 4⟩, ⟨0, 8⟩, ⟨8, 4⟩] : List Field), field.Covers i := by decide
  obtain ⟨word, made, _, _, sum⟩ := layout_exact.1 _ inside separate
  exact ⟨⟨inside, separate, word, made, sum⟩, placed, covered, layout_exact.2 _ _ placed covered⟩

end Field

end SimtAsm
