import Mathlib.Data.List.Basic
import SimtAsm.Text.Numeral

namespace SimtAsm

namespace Numeral

/-- Nothing but digits of the radix. -/
def AllDigits (radix : Nat) (text : Text) : Prop := ∀ c ∈ text, (digit? radix c).isSome = true

/-- The number that digits stand for, behind digits that stand for `acc`. -/
def digitsValue (radix acc : Nat) (text : Text) : Nat :=
  text.foldl (fun value c => value * radix + (digitValue? c).getD 0) acc

section Radix

variable {radix : Nat}

theorem allDigits_cons {c : Char} {rest : Text} :
    AllDigits radix (c :: rest) ↔ (digit? radix c).isSome = true ∧ AllDigits radix rest :=
  List.forall_mem_cons

theorem digitsValue_cons {c : Char} {digit : Nat} (found : digit? radix c = some digit) (acc : Nat) (rest : Text) :
    digitsValue radix acc (c :: rest) = digitsValue radix (acc * radix + digit) rest := by
  have value : digitValue? c = some digit := (Option.filter_eq_some_iff.mp found).1
  rw [digitsValue, List.foldl_cons, value, Option.getD_some, ← digitsValue]

/-- A text is too large once the digits at its front reach the limit, whatever follows them. -/
theorem readDigits_eq_tooLarge_iff {limit acc : Nat} {text : Text} (start : acc < limit) :
    readDigits radix limit acc text = .error .tooLarge ↔
      ∃ digits, digits <+: text ∧ AllDigits radix digits ∧ limit ≤ digitsValue radix acc digits := by
  induction text generalizing acc with
  | nil =>
    simp only [readDigits, reduceCtorEq, false_iff]
    rintro ⟨digits, front, _, large⟩
    rw [List.prefix_nil.mp front] at large
    exact absurd large (Nat.not_le_of_lt start)
  | cons c rest ih =>
    -- No digits at all would leave the value where it started, so those that reach the limit begin with `c`.
    have first : ∀ {digits : Text}, digits <+: c :: rest → limit ≤ digitsValue radix acc digits →
        ∃ more, digits = c :: more ∧ more <+: rest := by
      intro digits front large
      rcases List.prefix_cons_iff.mp front with rfl | split
      · exact absurd large (Nat.not_le_of_lt start)
      · exact split
    cases found : digit? radix c with
    | none =>
      simp only [readDigits, found, Except.error.injEq, reduceCtorEq, false_iff]
      rintro ⟨digits, front, all, large⟩
      obtain ⟨more, rfl, _⟩ := first front large
      have isDigit := (allDigits_cons.mp all).1
      simp [found] at isDigit
    | some digit =>
      simp only [readDigits, found]
      split <;> rename_i bound
      · rw [ih bound]
        constructor
        · rintro ⟨digits, front, all, large⟩
          refine ⟨c :: digits, (List.prefix_cons_inj c).mpr front, allDigits_cons.mpr ⟨by simp [found], all⟩, ?_⟩
          rwa [digitsValue_cons found]
        · rintro ⟨digits, front, all, large⟩
          obtain ⟨more, rfl, inRest⟩ := first front large
          rw [digitsValue_cons found] at large
          exact ⟨more, inRest, (allDigits_cons.mp all).2, large⟩
      · simp only [true_iff]
        refine ⟨[c], (List.prefix_cons_inj c).mpr List.nil_prefix, by simp [AllDigits, found], ?_⟩
        rw [digitsValue_cons found]
        exact Nat.le_of_not_lt bound

variable (positive : 0 < radix)
include positive

/-- A value never goes down while digits are added to it. -/
theorem le_digitsValue (text : Text) (acc : Nat) : acc ≤ digitsValue radix acc text := by
  induction text generalizing acc with
  | nil => exact Nat.le_refl _
  | cons c rest ih =>
    have grown : acc ≤ acc * radix := Nat.le_mul_of_pos_right acc positive
    exact Nat.le_trans (by omega) (ih (acc * radix + (digitValue? c).getD 0))

/-- Digits are read to their value, and nothing else is read. -/
theorem readDigits_eq_ok_iff {limit acc value : Nat} {text : Text} (start : acc < limit) :
    readDigits radix limit acc text = .ok value ↔
      AllDigits radix text ∧ digitsValue radix acc text = value ∧ value < limit := by
  induction text generalizing acc with
  | nil =>
    have empty : digitsValue radix acc [] = acc := rfl
    simp only [readDigits, Except.ok.injEq, empty]
    constructor
    · rintro rfl
      exact ⟨List.forall_mem_nil _, rfl, start⟩
    · exact fun facts => facts.2.1
  | cons c rest ih =>
    rw [allDigits_cons]
    cases found : digit? radix c with
    | none => simp [readDigits, found]
    | some digit =>
      simp only [readDigits, found, Option.isSome_some, true_and, digitsValue_cons found]
      split <;> rename_i bound
      · exact ih bound
      · -- Later digits cannot bring the value back below the limit.
        have larger := le_digitsValue positive rest (acc * radix + digit)
        simp only [reduceCtorEq, false_iff]
        rintro ⟨_, rfl, below⟩
        omega

/-- A character that is no digit is reported if the digits before it stay below the limit. -/
theorem readDigits_eq_invalidDigit_iff {limit acc : Nat} {text : Text} (start : acc < limit) :
    readDigits radix limit acc text = .error .invalidDigit ↔
      ∃ digits c rest, text = digits ++ c :: rest ∧ AllDigits radix digits ∧ digit? radix c = none ∧
        digitsValue radix acc digits < limit := by
  induction text generalizing acc with
  | nil => simp [readDigits]
  | cons c text ih =>
    cases found : digit? radix c with
    | none =>
      simp only [readDigits, found, true_iff]
      exact ⟨[], c, text, rfl, List.forall_mem_nil _, found, start⟩
    | some digit =>
      have split : ∀ {digits : Text} {x : Char} {rest : Text}, c :: text = digits ++ x :: rest →
          digit? radix x = none → ∃ more, digits = c :: more ∧ text = more ++ x :: rest := by
        intro digits x rest same noDigit
        rcases List.cons_eq_append_iff.mp same with ⟨rfl, same⟩ | split
        · cases same
          simp [found] at noDigit
        · exact split
      simp only [readDigits, found]
      split <;> rename_i bound
      · rw [ih bound]
        constructor
        · rintro ⟨digits, x, rest, rfl, all, noDigit, below⟩
          refine ⟨c :: digits, x, rest, rfl, allDigits_cons.mpr ⟨by simp [found], all⟩, noDigit, ?_⟩
          rwa [digitsValue_cons found]
        · rintro ⟨digits, x, rest, same, all, noDigit, below⟩
          obtain ⟨more, rfl, rfl⟩ := split same noDigit
          rw [digitsValue_cons found] at below
          exact ⟨more, x, rest, rfl, (allDigits_cons.mp all).2, noDigit, below⟩
      · simp only [Except.error.injEq, reduceCtorEq, false_iff]
        rintro ⟨digits, x, rest, same, all, noDigit, below⟩
        obtain ⟨more, rfl, rfl⟩ := split same noDigit
        have larger := le_digitsValue positive more (acc * radix + digit)
        rw [digitsValue_cons found] at below
        omega

end Radix

theorem readDigits_ne_empty {radix limit acc : Nat} {text : Text} :
    readDigits radix limit acc text ≠ .error .empty := by
  induction text generalizing acc with
  | nil => simp [readDigits]
  | cons c rest ih =>
    unfold readDigits
    split
    · simp
    · split
      · exact ih
      · simp

/-- One decimal digit or more. -/
structure IsDigits (text : Text) : Prop where
  ne_nil : text ≠ []
  digit : ∀ c ∈ text, c.isDigit = true

theorem digit?_ten_of_isDigit {c : Char} (digit : c.isDigit = true) : digit? 10 c = some (c.toNat - '0'.toNat) := by
  have upper : c.toNat ≤ 57 := (Char.isDigit_iff_toNat.mp digit).2
  have zero : '0'.toNat = 48 := rfl
  rw [digit?, digitValue?, if_pos digit, Option.filter_some, if_pos]
  exact decide_eq_true (by omega)

theorem digit?_ten_eq_none {c : Char} (noDigit : c.isDigit = false) : digit? 10 c = none := by
  have large : ∀ value, digitValue? c = some value → ¬value < 10 := by
    intro value found
    simp only [digitValue?, noDigit, Bool.false_eq_true, if_false] at found
    split at found
    · cases found
      omega
    · split at found
      · cases found
        omega
      · simp at found
  rw [digit?, Option.filter_eq_none_iff]
  intro value found
  simpa using large value found

theorem isSome_digit?_ten (c : Char) : (digit? 10 c).isSome = c.isDigit := by
  cases digit : c.isDigit with
  | true => rw [digit?_ten_of_isDigit digit, Option.isSome_some]
  | false => rw [digit?_ten_eq_none digit, Option.isSome_none]

theorem allDigits_ten_iff {text : Text} : AllDigits 10 text ↔ ∀ c ∈ text, c.isDigit = true := by
  simp only [AllDigits, isSome_digit?_ten]

theorem digitsValue_ten {text : Text} (digits : ∀ c ∈ text, c.isDigit = true) (acc : Nat) :
    digitsValue 10 acc text = Nat.ofDigitChars 10 text acc := by
  induction text generalizing acc with
  | nil => rfl
  | cons c rest ih =>
    obtain ⟨digit, later⟩ := List.forall_mem_cons.mp digits
    rw [digitsValue_cons (digit?_ten_of_isDigit digit), ih later, Nat.ofDigitChars_cons, Nat.mul_comm]

theorem le_ofDigitChars {text : Text} (digits : ∀ c ∈ text, c.isDigit = true) (acc : Nat) :
    acc ≤ Nat.ofDigitChars 10 text acc := by
  rw [← digitsValue_ten digits]
  exact le_digitsValue (by decide) text acc

section Decimal

variable {limit acc : Nat} {text : Text} (start : acc < limit)
include start

theorem readDigits_ten_eq_ok_iff {value : Nat} :
    readDigits 10 limit acc text = .ok value ↔
      (∀ c ∈ text, c.isDigit = true) ∧ Nat.ofDigitChars 10 text acc = value ∧ value < limit := by
  rw [readDigits_eq_ok_iff (by decide) start, allDigits_ten_iff]
  exact and_congr_right fun digits => by rw [digitsValue_ten digits]

theorem readDigits_ten_eq_tooLarge_iff :
    readDigits 10 limit acc text = .error .tooLarge ↔
      ∃ digits, digits <+: text ∧ (∀ c ∈ digits, c.isDigit = true) ∧ limit ≤ Nat.ofDigitChars 10 digits acc := by
  rw [readDigits_eq_tooLarge_iff start]
  refine exists_congr fun digits => and_congr_right fun _ => ?_
  rw [allDigits_ten_iff]
  exact and_congr_right fun all => by rw [digitsValue_ten all]

theorem readDigits_ten_eq_invalidDigit_iff :
    readDigits 10 limit acc text = .error .invalidDigit ↔
      ∃ digits c rest, text = digits ++ c :: rest ∧ (∀ d ∈ digits, d.isDigit = true) ∧ c.isDigit = false ∧
        Nat.ofDigitChars 10 digits acc < limit := by
  rw [readDigits_eq_invalidDigit_iff (by decide) start]
  refine exists_congr fun digits => exists_congr fun c => exists_congr fun rest => and_congr_right fun _ => ?_
  rw [allDigits_ten_iff, ← Option.not_isSome_iff_eq_none, isSome_digit?_ten, Bool.not_eq_true]
  exact and_congr_right fun all => by rw [digitsValue_ten all]

end Decimal

theorem readMagnitude_eq_ok_iff {limit value : Nat} {text : Text} (positive : 0 < limit) :
    readMagnitude 10 limit text = .ok value ↔
      IsDigits text ∧ Nat.ofDigitChars 10 text 0 = value ∧ value < limit := by
  cases text with
  | nil =>
    simp only [readMagnitude, reduceCtorEq, false_iff]
    exact fun facts => facts.1.ne_nil rfl
  | cons c rest =>
    rw [readMagnitude, readDigits_ten_eq_ok_iff positive]
    · exact and_congr_left fun _ => ⟨fun all => ⟨List.cons_ne_nil _ _, all⟩, IsDigits.digit⟩
    · exact List.cons_ne_nil _ _

/-- A decimal number with an optional sign, and its value. -/
inductive IsSigned : Text → Int → Prop
  | plain {digits : Text} : IsDigits digits → IsSigned digits (Nat.ofDigitChars 10 digits 0)
  | plus {digits : Text} : IsDigits digits → IsSigned ('+' :: digits) (Nat.ofDigitChars 10 digits 0)
  | minus {digits : Text} : IsDigits digits → IsSigned ('-' :: digits) (-(Nat.ofDigitChars 10 digits 0 : Int))

theorem map_eq_ok_iff {ε α β : Type} {result : Except ε α} {f : α → β} {value : β} :
    result.map f = .ok value ↔ ∃ first, result = .ok first ∧ f first = value := by
  cases result <;> simp [Except.map]

theorem map_eq_error_iff {ε α β : Type} {result : Except ε α} {f : α → β} {error : ε} :
    result.map f = .error error ↔ result = .error error := by
  cases result <;> simp [Except.map]

theorem readSigned_of_unsigned (limit : Nat) {c : Char} (notPlus : c ≠ '+') (notMinus : c ≠ '-') (rest : Text) :
    readSigned 10 limit (c :: rest) = (readDigits 10 limit 0 (c :: rest)).map Int.ofNat := by
  unfold readSigned
  split
  · rename_i empty
    cases empty
  · rename_i plus
    exact absurd (List.cons.inj plus).1 notPlus
  · rename_i minus
    exact absurd (List.cons.inj minus).1 notMinus
  · rfl

theorem readSigned_minus (limit : Nat) (digits : Text) :
    readSigned 10 limit ('-' :: digits) =
      Except.map (fun n : Nat => -(n : Int)) (readMagnitude 10 (limit + 1) digits) := by
  rw [readSigned]
  cases readMagnitude 10 (limit + 1) digits <;> rfl

/-- Exactly the signed decimal numbers between the bounds are read. -/
theorem readSigned_eq_ok_iff {limit : Nat} {text : Text} {value : Int} (positive : 0 < limit) :
    readSigned 10 limit text = .ok value ↔ IsSigned text value ∧ -(limit : Int) ≤ value ∧ value < limit := by
  constructor
  · intro read
    unfold readSigned at read
    split at read
    · simp at read
    · obtain ⟨n, found, rfl⟩ := map_eq_ok_iff.mp read
      obtain ⟨digits, rfl, below⟩ := (readMagnitude_eq_ok_iff positive).mp found
      rw [Int.ofNat_eq_natCast]
      exact ⟨.plus digits, by omega, by omega⟩
    · obtain ⟨n, found, rfl⟩ := map_eq_ok_iff.mp ((readSigned_minus limit _).symm.trans read)
      obtain ⟨digits, rfl, below⟩ := (readMagnitude_eq_ok_iff (Nat.succ_pos limit)).mp found
      exact ⟨.minus digits, by omega, by omega⟩
    · rename_i nonempty _ _
      obtain ⟨n, found, rfl⟩ := map_eq_ok_iff.mp read
      obtain ⟨digits, rfl, below⟩ := (readDigits_ten_eq_ok_iff positive).mp found
      rw [Int.ofNat_eq_natCast]
      exact ⟨.plain ⟨nonempty, digits⟩, by omega, by omega⟩
  · rintro ⟨signed, lower, upper⟩
    cases signed with
    | @plain digits valid =>
      unfold readSigned
      split
      · exact absurd rfl valid.ne_nil
      · exact absurd (valid.digit '+' (List.mem_cons_self ..)) (by decide)
      · exact absurd (valid.digit '-' (List.mem_cons_self ..)) (by decide)
      · rw [(readDigits_ten_eq_ok_iff positive).mpr ⟨valid.digit, rfl, by omega⟩]
        rfl
    | plus valid =>
      rw [readSigned, (readMagnitude_eq_ok_iff positive).mpr ⟨valid, rfl, by omega⟩]
      rfl
    | minus valid =>
      rw [readSigned_minus, (readMagnitude_eq_ok_iff (Nat.succ_pos limit)).mpr ⟨valid, rfl, by omega⟩]
      rfl

end Numeral

end SimtAsm
