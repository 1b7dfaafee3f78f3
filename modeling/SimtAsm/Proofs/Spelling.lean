import SimtAsm.Proofs.Encoding
import SimtAsm.Proofs.LetterCase
import SimtAsm.Proofs.Numerals
import SimtAsm.Proofs.Tokens

namespace SimtAsm

open Numeral Source

namespace Numeral.IsDigits

variable {text : Text}

theorem low (digits : IsDigits text) : ∀ c ∈ text, c.toNat < 65 := by
  intro c member
  have bound : c.toNat ≤ 57 := (Char.isDigit_iff_toNat.mp (digits.digit c member)).2
  omega

theorem upper_eq (digits : IsDigits text) : text.upper = text :=
  Text.upper_of_low fun c member => Or.inl (digits.low c member)

theorem eq_of_upper (digits : IsDigits text.upper) : text.upper = text :=
  Text.upper_of_low fun _ member => Or.inr (digits.low _ (List.mem_map_of_mem member))

end Numeral.IsDigits

namespace Register

/-- The second names in upper case. -/
def aliases : List (Text × Nat) := [("%BLOCKIDX", 13), ("%BLOCKDIM", 14), ("%THREADIDX", 15)]

/-- The register that a token in upper case spells: a second name, or an R and its number. -/
inductive Spelling (token : Text) (register : Nat) : Prop
  | byAlias : (token, register) ∈ aliases → Spelling token register
  | byNumber {digits : Text} : token = 'R' :: digits → IsDigits digits → Nat.ofDigitChars 10 digits 0 = register →
      register < count → Spelling token register

theorem notMem_aliases_of_letter {digits : Text} {register : Nat} : ('R' :: digits, register) ∉ aliases := by
  have percent : ∀ entry ∈ aliases, entry.1.head? = some '%' := by decide
  intro member
  exact absurd (percent _ member) (by simp)

theorem Spelling.unique {token : Text} {a b : Nat} (first : Spelling token a) (second : Spelling token b) : a = b := by
  have single : ∀ x ∈ aliases, ∀ y ∈ aliases, x.1 = y.1 → x.2 = y.2 := by decide
  cases first with
  | byAlias member =>
    cases second with
    | byAlias member' => exact single _ member _ member' rfl
    | byNumber same => exact absurd (same ▸ member) notMem_aliases_of_letter
  | byNumber same _ value =>
    cases second with
    | byAlias member => exact absurd (same ▸ member) notMem_aliases_of_letter
    | byNumber same' _ value' =>
      obtain ⟨_, rfl⟩ := List.cons.inj (same.symm.trans same')
      exact value.symm.trans value'

theorem named_eq : named = (List.range count).map (fun n => ('R' :: decimal n, n)) ++
    [(String.toList "%blockIdx", 13), (String.toList "%blockDim", 14), (String.toList "%threadIdx", 15)] := rfl

theorem spelling_of_mem_named {entry : Text × Nat} (member : entry ∈ named) : Spelling entry.1.upper entry.2 := by
  rw [named_eq, List.mem_append] at member
  rcases member with numbered | second
  · obtain ⟨n, below, rfl⟩ := List.mem_map.mp numbered
    have digits : IsDigits (decimal n) :=
      ⟨Nat.toDigits_ne_nil, fun _ => Nat.isDigit_of_mem_toDigits (by decide) (by decide)⟩
    exact .byNumber (congrArg ('R' :: ·) digits.upper_eq) digits Nat.ofDigitChars_ten_toDigits (List.mem_range.mp below)
  · have known : ∀ entry ∈ [(String.toList "%blockIdx", 13), (String.toList "%blockDim", 14),
        (String.toList "%threadIdx", 15)], (Text.upper entry.1, entry.2) ∈ aliases := by decide
    exact .byAlias (known entry second)

theorem ofDigits?_eq_some_iff {digits : Text} {register : Nat} :
    ofDigits? digits = some register ↔
      IsDigits digits ∧ Nat.ofDigitChars 10 digits 0 = register ∧ register < count := by
  have limit : (1 <<< 32 : Nat) = 4294967296 := rfl
  have sixteen : count = 16 := rfl
  have refused : (digits.isEmpty || !digits.all Char.isDigit) = true ↔ ¬IsDigits digits := by
    constructor
    · intro bad valid
      simp [valid.ne_nil, List.all_eq_true.mpr valid.digit] at bad
    · intro invalid
      by_contra good
      simp only [Bool.or_eq_true, List.isEmpty_iff, Bool.not_eq_true', not_or, Bool.not_eq_false] at good
      exact invalid ⟨good.1, List.all_eq_true.mp good.2⟩
  have start : 0 < 1 <<< 32 := by decide
  unfold ofDigits?
  split <;> rename_i check
  · simp [refused.mp check]
  · have valid : IsDigits digits := by
      by_contra invalid
      exact check (refused.mpr invalid)
    split
    · rename_i n read
      obtain ⟨_, rfl, _⟩ := (readDigits_ten_eq_ok_iff start).mp read
      split <;> rename_i below
      · simp only [valid, true_and, Option.some.injEq]
        constructor
        · rintro rfl
          exact ⟨rfl, below⟩
        · exact And.left
      · simp only [reduceCtorEq, valid, true_and, false_iff]
        rintro ⟨rfl, small⟩
        exact below small
    · rename_i error read
      -- Digits fail to be read only when their value is too large for any register.
      simp only [reduceCtorEq, valid, true_and, false_iff]
      rintro ⟨rfl, small⟩
      have readable := (readDigits_ten_eq_ok_iff start).mpr ⟨valid.digit, rfl, by omega⟩
      cases read.symm.trans readable

theorem toUpper_eq_iff {c : Char} : c.toUpper = 'R' ↔ c = 'R' ∨ c = 'r' := by
  have big : 'R'.toNat = 82 := rfl
  have small : 'r'.toNat = 114 := rfl
  have moved := Text.toNat_toUpper c
  rw [← Char.toNat_inj, ← Char.toNat_inj, ← Char.toNat_inj]
  split at moved <;> omega

/-- Digits have no case, so that only the letter in front of them can be written in two ways. -/
theorem upper_eq_numbered_iff {token digits : Text} (valid : IsDigits digits) :
    token.upper = 'R' :: digits ↔ token = 'R' :: digits ∨ token = 'r' :: digits := by
  constructor
  · intro same
    obtain ⟨c, rest, rfl, atFirst, rfl⟩ := List.map_eq_cons_iff.mp same
    have kept : rest.map Char.toUpper = rest := valid.eq_of_upper
    rw [kept]
    exact (toUpper_eq_iff.mp atFirst).imp (congrArg (· :: rest)) (congrArg (· :: rest))
  · rintro (rfl | rfl)
    · exact congrArg ('R' :: ·) valid.upper_eq
    · exact congrArg ('R' :: ·) valid.upper_eq

theorem numbered?_of_letter {token digits : Text} (letter : token = 'R' :: digits ∨ token = 'r' :: digits) :
    numbered? token = ofDigits? digits := by
  rcases letter with rfl | rfl
  · rfl
  · rfl

theorem numbered?_eq_some_iff {token : Text} {register : Nat} :
    numbered? token = some register ↔ ∃ digits, token.upper = 'R' :: digits ∧ ofDigits? digits = some register := by
  constructor
  · intro found
    unfold numbered? at found
    split at found
    · exact ⟨_, (upper_eq_numbered_iff (ofDigits?_eq_some_iff.mp found).1).mpr (Or.inl rfl), found⟩
    · exact ⟨_, (upper_eq_numbered_iff (ofDigits?_eq_some_iff.mp found).1).mpr (Or.inr rfl), found⟩
    · simp at found
  · rintro ⟨digits, same, found⟩
    rw [numbered?_of_letter ((upper_eq_numbered_iff (ofDigits?_eq_some_iff.mp found).1).mp same), found]

theorem spelling_of_ofToken? {token : Text} {register : Nat} (found : ofToken? token = some register) :
    Spelling token.trim.upper register := by
  unfold ofToken? at found
  split at found
  · rename_i entry atEntry
    cases found
    have same : entry.1.upper = token.trim.upper := by simpa [Text.sameLetters] using List.find?_some atEntry
    rw [← same]
    exact spelling_of_mem_named (List.mem_of_find?_eq_some atEntry)
  · obtain ⟨digits, same, found⟩ := numbered?_eq_some_iff.mp found
    obtain ⟨valid, value, below⟩ := ofDigits?_eq_some_iff.mp found
    exact .byNumber same valid value below

theorem exists_of_spelling {token : Text} {register : Nat} (spelling : Spelling token.trim.upper register) :
    ∃ found, ofToken? token = some found := by
  unfold ofToken?
  split
  · exact ⟨_, rfl⟩
  · rename_i unnamed
    cases spelling with
    | byAlias member =>
      -- A second name is in the table, so the search cannot have failed.
      have listed : ∀ second ∈ aliases, ∃ entry ∈ named, entry.1.upper = second.1 := by decide
      obtain ⟨entry, inNamed, same⟩ := listed _ member
      have differs := List.find?_eq_none.mp unnamed entry inNamed
      simp [Text.sameLetters, same] at differs
    | byNumber same valid value below =>
      exact ⟨register, numbered?_eq_some_iff.mpr ⟨_, same, ofDigits?_eq_some_iff.mpr ⟨valid, value, below⟩⟩⟩

theorem ofToken?_eq_some_iff {token : Text} {register : Nat} :
    ofToken? token = some register ↔ Spelling token.trim.upper register := by
  constructor
  · exact spelling_of_ofToken?
  · intro spelling
    obtain ⟨found, atFound⟩ := exists_of_spelling spelling
    rw [atFound, (spelling_of_ofToken? atFound).unique spelling]

end Register

theorem readRegister_eq_ok_iff {token : Text} (isToken : IsToken token) {register : Nat} :
    readRegister token = .ok register ↔ Register.Spelling token.upper register := by
  have found : Register.ofToken? token = some register ↔ _ := Register.ofToken?_eq_some_iff
  rw [isToken.trim_eq] at found
  rw [← found]
  unfold readRegister
  split <;> rename_i atToken
  · rw [atToken, Except.ok.injEq, Option.some.injEq]
  · simp [atToken]

namespace Immediate

/-- The value that a token spells behind its number sign. -/
inductive Spelling : Text → Int → Prop
  | intro {number : Text} {value : Int} : IsSigned number value → -128 ≤ value → value ≤ 127 →
      Spelling ('#' :: number) value

theorem low_of_isSigned {text : Text} {value : Int} (signed : IsSigned text value) : ∀ c ∈ text, c.toNat < 65 := by
  cases signed with
  | plain digits => exact digits.low
  | plus digits => exact List.forall_mem_cons.mpr ⟨by decide, digits.low⟩
  | minus digits => exact List.forall_mem_cons.mpr ⟨by decide, digits.low⟩

theorem Spelling.low {token : Text} {value : Int} (spelling : Spelling token value) : ∀ c ∈ token, c.toNat < 65 := by
  obtain ⟨signed, _, _⟩ := spelling
  exact List.forall_mem_cons.mpr ⟨by decide, low_of_isSigned signed⟩

theorem spelling_upper_iff {token : Text} {value : Int} : Spelling token.upper value ↔ Spelling token value := by
  constructor
  · intro spelling
    have same := Text.upper_of_low fun _ member => Or.inr (spelling.low _ (List.mem_map_of_mem member))
    rwa [same] at spelling
  · intro spelling
    have same := Text.upper_of_low fun c member => Or.inl (spelling.low c member)
    rwa [same]

end Immediate

theorem readImmediate_eq_ok_iff {token : Text} {value : Int} :
    readImmediate token = .ok value ↔ Immediate.Spelling token.upper value := by
  have limit : (1 <<< 63 : Nat) = 9223372036854775808 := rfl
  have least := Immediate.least_eq
  have greatest := Immediate.greatest_eq
  have start : 0 < 1 <<< 63 := by decide
  rw [Immediate.spelling_upper_iff]
  constructor
  · intro read
    have bounds := readImmediate_bounds read
    unfold readImmediate at read
    split at read
    · split at read
      · rename_i found
        split at read
        · cases read
          obtain ⟨signed, _, _⟩ := (readSigned_eq_ok_iff start).mp found
          exact ⟨signed, by omega, by omega⟩
        · simp at read
      · simp at read
      · simp at read
    · simp at read
  · rintro ⟨signed, lower, upper⟩
    have found := (readSigned_eq_ok_iff start).mpr ⟨signed, by omega, by omega⟩
    have inside : Immediate.least ≤ value ∧ value ≤ Immediate.greatest := by omega
    simp only [readImmediate, found, inside, and_self, if_true]

theorem readImmediate_of_unmarked {token : Text} (unmarked : token.head? ≠ some '#') :
    readImmediate token = .error (.invalidImmediate token) := by
  unfold readImmediate
  split
  · exact absurd rfl unmarked
  · rfl

/-- The operations that take a given kind of operands. -/
def Layout.ops : Layout → List Op
  | branch => [.br]
  | regImm => [.const]
  | srcPair => [.cmp, .str]
  | triple => [.add, .sub, .mul, .div]
  | dstSrc => [.ldr]
  | bare => [.nop, .ret]

theorem Op.mem_ops {op : Op} {layout : Layout} : op ∈ layout.ops ↔ op.layout = layout := by
  cases op <;> cases layout <;> decide

theorem Op.upper_mnemonic (op : Op) : op.mnemonic.upper = op.mnemonic := by cases op <;> decide

theorem Op.eq_of_ofMnemonic? {name : Text} {op : Op} (found : ofMnemonic? name = some op) :
    op.mnemonic = name.upper := by
  have same : op.mnemonic.upper = name.upper := by simpa [Text.sameLetters] using List.find?_some found
  rwa [op.upper_mnemonic] at same

theorem upper_of_readMnemonic_branch {token : Text} {op : Op} {cond : Cond} (read : readMnemonic token = .ok (op, cond))
    (layout : op.layout = .branch) :
    op = .br ∧ ∃ letters, token.upper = 'B' :: 'R' :: letters ∧ cond = Cond.ofLetters letters := by
  unfold readMnemonic at read
  split at read
  · rename_i letters same
    cases read
    exact ⟨rfl, letters, same, rfl⟩
  · rename_i other
    split at read
    · rename_i found
      cases read
      -- The plain mnemonic of a branch already starts with its two letters.
      obtain rfl : op = .br := List.mem_singleton.mp (Op.mem_ops.mpr layout)
      have same := Op.eq_of_ofMnemonic? found
      rw [Text.upper_upper] at same
      exact absurd same.symm (other [])
    · simp at read

theorem upper_of_readMnemonic {token : Text} {op : Op} {cond : Cond} (read : readMnemonic token = .ok (op, cond))
    (layout : op.layout ≠ .branch) : token.upper = op.mnemonic := by
  unfold readMnemonic at read
  split at read
  · cases read
    exact absurd rfl layout
  · split at read
    · rename_i found
      cases read
      have same := Op.eq_of_ofMnemonic? found
      rw [Text.upper_upper] at same
      exact same.symm
    · simp at read

theorem readMnemonic_of_branch {token letters : Text} (same : token.upper = 'B' :: 'R' :: letters) :
    readMnemonic token = .ok (.br, Cond.ofLetters letters) := by
  unfold readMnemonic
  rw [same]
  rfl

theorem readMnemonic_of_mnemonic {token : Text} {op : Op} (same : token.upper = op.mnemonic) :
    readMnemonic token = .ok (op, Cond.never) := by
  unfold readMnemonic
  rw [same]
  cases op <;> rfl

end SimtAsm
