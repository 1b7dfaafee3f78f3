import Mathlib.Algebra.Group.Nat.Defs
import SimtAsm.Proofs.Spelling

namespace SimtAsm

open Numeral

/-- Digits are too large for a reader just when their value is. It is not taken modulo the limit. -/
theorem Numeral.IsDigits.readDigits_eq_tooLarge_iff {digits : Text} (valid : IsDigits digits) {limit : Nat}
    (positive : 0 < limit) :
    readDigits 10 limit 0 digits = .error .tooLarge ↔ limit ≤ Nat.ofDigitChars 10 digits 0 := by
  rw [readDigits_ten_eq_tooLarge_iff positive]
  constructor
  · rintro ⟨front, ⟨rest, rfl⟩, _, large⟩
    rw [Nat.ofDigitChars_append]
    exact Nat.le_trans large (le_ofDigitChars (List.forall_mem_append.mp valid.digit).2 _)
  · intro large
    exact ⟨digits, List.prefix_rfl, valid.digit, large⟩

namespace Register

theorem mem_aliases_iff {text : Text} {register : Nat} :
    (text.upper, register) ∈ aliases ↔ Text.sameLetters "%blockIdx" text ∧ register = 13 ∨
      Text.sameLetters "%blockDim" text ∧ register = 14 ∨ Text.sameLetters "%threadIdx" text ∧ register = 15 := by
  have same : ∀ name : Text, Text.sameLetters name text = true ↔ text.upper = name.upper := by
    intro name
    rw [Text.sameLetters, beq_iff_eq, eq_comm]
  have blockIdx : Text.upper "%blockIdx" = "%BLOCKIDX" := by decide
  have blockDim : Text.upper "%blockDim" = "%BLOCKDIM" := by decide
  have threadIdx : Text.upper "%threadIdx" = "%THREADIDX" := by decide
  simp only [same, blockIdx, blockDim, threadIdx, aliases, List.mem_cons, Prod.mk.injEq, List.not_mem_nil, or_false]

theorem spelling_upper_iff {text : Text} {register : Nat} :
    Spelling text.upper register ↔ (text.upper, register) ∈ aliases ∨
      ∃ digits, (text = 'R' :: digits ∨ text = 'r' :: digits) ∧ IsDigits digits ∧
        Nat.ofDigitChars 10 digits 0 = register ∧ register < count := by
  constructor
  · rintro (member | ⟨same, valid, value, below⟩)
    · exact Or.inl member
    · exact Or.inr ⟨_, (upper_eq_numbered_iff valid).mp same, valid, value, below⟩
  · rintro (member | ⟨digits, letter, valid, value, below⟩)
    · exact .byAlias member
    · exact .byNumber ((upper_eq_numbered_iff valid).mpr letter) valid value below

/-- What the list of names says about an R with a number behind it is what the number says. -/
theorem ofDigits?_of_listed {token digits : Text} {entry : Text × Nat}
    (listed : named.find? (fun entry => entry.1.sameLetters token) = some entry)
    (letter : token = 'R' :: digits ∨ token = 'r' :: digits) : ofDigits? digits = some entry.2 := by
  have same : entry.1.upper = token.upper := by simpa [Text.sameLetters] using List.find?_some listed
  have spelling := spelling_of_mem_named (List.mem_of_find?_eq_some listed)
  have capital : token.upper = 'R' :: digits.upper := by
    rcases letter with rfl | rfl
    · rfl
    · rfl
  rw [same, capital] at spelling
  cases spelling with
  | byAlias member => exact absurd member notMem_aliases_of_letter
  | byNumber sameDigits valid value below =>
    obtain rfl : digits.upper = _ := (List.cons.inj sameDigits).2
    have kept := valid.eq_of_upper
    rw [kept] at valid value
    exact ofDigits?_eq_some_iff.mpr ⟨valid, value, below⟩

theorem ofToken?_of_letter {token digits : Text} (letter : token.trim = 'R' :: digits ∨ token.trim = 'r' :: digits) :
    ofToken? token = ofDigits? digits := by
  unfold ofToken?
  split
  · rename_i entry listed
    exact (ofDigits?_of_listed listed letter).symm
  · exact numbered?_of_letter letter

/-- Which register a token names, for every token. Blanks around it apart, it is a second name in any case, or an R in
either case with the digits of a number up to 15, as many of them as there may be. Where the list of names has such a
token, its digits give the same register. Digits from 2³² on are too large and name no register. -/
theorem names_exact (token : Text) :
    (∀ register, ofToken? token = some register ↔
      (Text.sameLetters "%blockIdx" token.trim ∧ register = 13 ∨
        Text.sameLetters "%blockDim" token.trim ∧ register = 14 ∨
        Text.sameLetters "%threadIdx" token.trim ∧ register = 15) ∨
      ∃ digits, (token.trim = 'R' :: digits ∨ token.trim = 'r' :: digits) ∧ IsDigits digits ∧
        Nat.ofDigitChars 10 digits 0 = register ∧ register ≤ 15) ∧
      ∀ digits, token.trim = 'R' :: digits ∨ token.trim = 'r' :: digits →
        (∀ entry, named.find? (fun entry => entry.1.sameLetters token.trim) = some entry →
          ofDigits? digits = some entry.2) ∧
        (IsDigits digits → 2 ^ 32 ≤ Nat.ofDigitChars 10 digits 0 →
          readDigits 10 (1 <<< 32) 0 digits = .error .tooLarge ∧ ofToken? token = none) := by
  refine ⟨?_, ?_⟩
  · intro register
    rw [ofToken?_eq_some_iff, spelling_upper_iff, mem_aliases_iff]
    simp only [count, Nat.lt_succ_iff]
  · intro digits letter
    refine ⟨fun entry listed => ofDigits?_of_listed listed letter, ?_⟩
    intro valid large
    refine ⟨(valid.readDigits_eq_tooLarge_iff (by decide)).mpr large, ?_⟩
    rw [ofToken?_of_letter letter]
    cases found : ofDigits? digits with
    | none => rfl
    | some register =>
      obtain ⟨_, rfl, below⟩ := ofDigits?_eq_some_iff.mp found
      have sixteen : count = 16 := rfl
      omega

/-- A second name in small letters between odd blanks, many zeros in front of a number, a name of the list, and a number
that would be 13 if it were cut to 32 bits. -/
theorem names_exact_odd :
    ofToken? "\u00A0%blockidx\u3000" = some 13 ∧ ofToken? " r0000000000000000000000015\t" = some 15 ∧
      ofDigits? "7" = some 7 ∧ readDigits 10 (1 <<< 32) 0 "4294967309" = .error .tooLarge ∧
      ofToken? "R4294967309" = none := by
  obtain ⟨second, _⟩ := names_exact "\u00A0%blockidx\u3000"
  obtain ⟨zeros, _⟩ := names_exact " r0000000000000000000000015\t"
  obtain ⟨_, listed⟩ := names_exact "r7"
  obtain ⟨_, large⟩ := names_exact "R4294967309"
  have isDigits : ∀ {digits : Text}, digits ≠ [] → digits.all Char.isDigit = true → IsDigits digits :=
    fun nonempty all => ⟨nonempty, List.all_eq_true.mp all⟩
  refine ⟨(second 13).mpr (Or.inl (Or.inl ⟨by decide, rfl⟩)), ?_, ?_, ?_⟩
  · have valid : IsDigits "0000000000000000000000015" := isDigits (by decide) (by decide)
    exact (zeros 15).mpr (Or.inr ⟨_, Or.inr rfl, valid, rfl, by decide⟩)
  · exact (listed "7" (Or.inr rfl)).1 ("R7", 7) rfl
  · exact (large "4294967309" (Or.inl rfl)).2 (isDigits (by decide) (by decide)) (by decide)

end Register

end SimtAsm
