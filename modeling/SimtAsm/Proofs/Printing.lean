import Mathlib.Data.List.Basic
import SimtAsm.Disassembly.Printer
import SimtAsm.Proofs.Encoding
import SimtAsm.Proofs.Spacing

namespace SimtAsm

open Numeral

namespace Source

/-- Printable ASCII other than the characters that end a token, a statement or a label. -/
def isPlain (c : Char) : Bool :=
  decide (33 ≤ c.toNat) && decide (c.toNat ≤ 126) && c != ',' && c != ';' && c != ':'

theorem isBlank_of_isPlain {c : Char} (plain : isPlain c = true) : Text.isBlank c = false := by
  simp only [isPlain, Bool.and_eq_true, decide_eq_true_eq] at plain
  simp only [Text.isBlank, Bool.or_eq_false_iff, Bool.and_eq_false_iff, decide_eq_false_iff_not, beq_eq_false_iff_ne]
  omega

theorem isPlain_of_isDigit {c : Char} (digit : c.isDigit = true) : isPlain c = true := by
  obtain ⟨lower, upper⟩ : 48 ≤ c.toNat ∧ c.toNat ≤ 57 := Char.isDigit_iff_toNat.mp digit
  simp only [isPlain, Bool.and_eq_true, decide_eq_true_eq, bne_iff_ne]
  refine ⟨⟨⟨⟨by omega, by omega⟩, ?_⟩, ?_⟩, ?_⟩
  all_goals
    rintro rfl
    exact absurd digit (by decide)

theorem isPlain_of_toNat {c : Char} (lower : 60 ≤ c.toNat) (upper : c.toNat ≤ 126) : isPlain c = true := by
  simp only [isPlain, Bool.and_eq_true, decide_eq_true_eq, bne_iff_ne]
  refine ⟨⟨⟨⟨by omega, upper⟩, ?_⟩, ?_⟩, ?_⟩
  all_goals
    rintro rfl
    exact absurd lower (by decide)

structure IsPlainToken (text : Text) : Prop where
  ne_nil : text ≠ []
  plain : ∀ c ∈ text, isPlain c = true

namespace IsPlainToken

variable {text : Text}

theorem isToken (token : IsPlainToken text) : IsToken text := by
  refine ⟨token.ne_nil, ?_⟩
  intro c member
  have plain := token.plain c member
  have noBlank := isBlank_of_isPlain plain
  simp only [isPlain, Bool.and_eq_true, bne_iff_ne] at plain
  simp only [isSeparator, noBlank, Bool.false_or, beq_eq_false_iff_ne]
  exact plain.1.1.2

theorem isStatement (token : IsPlainToken text) : IsStatement text := by
  obtain ⟨first, rest, rfl⟩ := List.exists_cons_of_ne_nil token.ne_nil
  refine ⟨⟨first, rfl, isBlank_of_isPlain (token.plain first (List.mem_cons_self ..))⟩, ?_, ?_⟩
  · have member := List.getLast_mem token.ne_nil
    exact ⟨_, List.getLast?_eq_some_getLast token.ne_nil, isBlank_of_isPlain (token.plain _ member)⟩
  · intro c member
    have plain := token.plain c member
    simp only [isPlain, Bool.and_eq_true, bne_iff_ne, decide_eq_true_eq] at plain
    refine ⟨plain.1.2, ?_⟩
    rintro rfl
    exact absurd plain.1.1.1.1 (by decide)

theorem newline_notMem (token : IsPlainToken text) : '\n' ∉ text := token.isStatement.newline_notMem

theorem getLast?_ne_colon (token : IsPlainToken text) : text.getLast? ≠ some ':' := by
  intro atLast
  have plain := token.plain ':' (List.mem_of_getLast? atLast)
  exact absurd plain (by decide)

theorem append {more : Text} (token : IsPlainToken text) (plain : ∀ c ∈ more, isPlain c = true) :
    IsPlainToken (text ++ more) := by
  refine ⟨?_, ?_⟩
  · simp [token.ne_nil]
  · intro c member
    rcases List.mem_append.mp member with member | member
    · exact token.plain c member
    · exact plain c member

theorem cons {c : Char} (plain : isPlain c = true) (token : IsPlainToken text) : IsPlainToken (c :: text) := by
  refine ⟨List.cons_ne_nil _ _, ?_⟩
  intro x member
  rcases List.mem_cons.mp member with rfl | member
  · exact plain
  · exact token.plain x member

end IsPlainToken

end Source

open Source

namespace Numeral

theorem isSome_digit?_of_readDigits {radix limit acc value : Nat} {text : Text}
    (read : readDigits radix limit acc text = .ok value) : ∀ c ∈ text, (digit? radix c).isSome = true := by
  induction text generalizing acc with
  | nil => simp
  | cons c rest ih =>
    simp only [readDigits] at read
    split at read
    · simp at read
    · rename_i d found
      split at read
      · intro x member
        rcases List.mem_cons.mp member with rfl | member
        · simp [found]
        · exact ih read x member
      · simp at read

theorem isDigit_of_mem_decimal {n : Nat} {c : Char} (member : c ∈ decimal n) : c.isDigit = true :=
  Nat.isDigit_of_mem_toDigits (by decide) (by decide) member

theorem decimal_isPlainToken (n : Nat) : IsPlainToken (decimal n) :=
  ⟨Nat.toDigits_ne_nil, fun _ member => isPlain_of_isDigit (isDigit_of_mem_decimal member)⟩

theorem newline_notMem_decimal (n : Nat) : '\n' ∉ decimal n := (decimal_isPlainToken n).newline_notMem

theorem signedDecimal_isPlainToken (value : Int) : IsPlainToken (signedDecimal value) := by
  cases value with
  | ofNat n => exact decimal_isPlainToken n
  | negSucc n => exact (decimal_isPlainToken (n + 1)).cons (by decide)

theorem isPlain_of_digitValue? {c : Char} {value : Nat} (digit : digitValue? c = some value) : isPlain c = true := by
  unfold digitValue? at digit
  split at digit
  · exact isPlain_of_isDigit ‹_›
  · split at digit
    · rename_i letter
      have lower : 97 ≤ c.toNat := UInt32.le_iff_toNat_le.mp letter.1
      have upper : c.toNat ≤ 102 := UInt32.le_iff_toNat_le.mp letter.2
      exact isPlain_of_toNat (by omega) (by omega)
    · split at digit
      · rename_i letter
        have lower : 65 ≤ c.toNat := UInt32.le_iff_toNat_le.mp letter.1
        have upper : c.toNat ≤ 70 := UInt32.le_iff_toNat_le.mp letter.2
        exact isPlain_of_toNat (by omega) (by omega)
      · simp at digit

theorem isPlain_of_isSome_digit? {radix : Nat} {c : Char} (isDigit : (digit? radix c).isSome = true) :
    isPlain c = true := by
  obtain ⟨value, found⟩ := Option.isSome_iff_exists.mp isDigit
  exact isPlain_of_digitValue? (Option.filter_eq_some_iff.mp found).1

section Radix

variable {radix : Nat} (large : 1 < radix) (small : radix ≤ 16)
include large small

/-- Zeros in front of a numeral do not count. -/
theorem readDigits_padded {limit n : Nat} (bound : n < limit) (width : Nat) :
    readDigits radix limit 0 (padded radix width n) = .ok n := by
  have zero : digit? radix (Nat.digitChar 0) = some 0 := digit?_digitChar small (by omega)
  rw [show Nat.digitChar 0 = '0' from rfl] at zero
  have zeros : ∀ count, readDigits radix limit 0 (List.replicate count '0') = .ok 0 := by
    intro count
    induction count with
    | zero => rfl
    | succ count ih =>
      simp only [List.replicate_succ, readDigits, zero, Nat.zero_mul, Nat.add_zero, Nat.zero_lt_of_lt bound, if_true, ih]
  rw [padded, List.leftpad, readDigits_append, zeros]
  exact readDigits_toDigits large small bound

theorem padded_injective {width a b : Nat} (same : padded radix width a = padded radix width b) : a = b := by
  have readA := readDigits_padded large small (Nat.lt_succ_of_le (Nat.le_max_left a b)) width
  have readB := readDigits_padded large small (Nat.lt_succ_of_le (Nat.le_max_right a b)) width
  rw [same] at readA
  exact Except.ok.inj (readA.symm.trans readB)

theorem padded_isPlainToken (width n : Nat) : IsPlainToken (padded radix width n) := by
  refine ⟨?_, ?_⟩
  · simp [padded, List.leftpad, Nat.toDigits_ne_nil]
  · intro c member
    have read := readDigits_padded large small (Nat.lt_succ_self n) width
    exact isPlain_of_isSome_digit? (isSome_digit?_of_readDigits read c member)

end Radix

theorem decimal_injective {a b : Nat} (same : decimal a = decimal b) : a = b := by
  have unpadded : ∀ n, padded 10 0 n = decimal n := fun n => by
    simp only [padded, List.leftpad, Nat.zero_sub, List.replicate_zero, List.nil_append, decimal]
  rw [← unpadded, ← unpadded] at same
  exact padded_injective (by decide) (by decide) same

/-- A text that starts with a digit is no signed number in disguise. -/
theorem readSigned_decimal (limit n : Nat) :
    readSigned 10 limit (decimal n) = (readDigits 10 limit 0 (decimal n)).map Int.ofNat := by
  obtain ⟨c, rest, same⟩ := List.exists_cons_of_ne_nil (decimal_isPlainToken n).ne_nil
  have digit : c.isDigit = true := isDigit_of_mem_decimal (by rw [same]; exact List.mem_cons_self ..)
  rw [same]
  unfold readSigned
  split
  · simp_all
  · rename_i equal
    cases equal
    exact absurd digit (by decide)
  · rename_i equal
    cases equal
    exact absurd digit (by decide)
  · rfl

theorem readMagnitude_decimal (limit n : Nat) :
    readMagnitude 10 limit (decimal n) = readDigits 10 limit 0 (decimal n) := by
  obtain ⟨c, rest, same⟩ := List.exists_cons_of_ne_nil (decimal_isPlainToken n).ne_nil
  rw [same]
  rfl

theorem readSigned_signedDecimal {limit : Nat} {value : Int} (lower : -(limit : Int) ≤ value) (upper : value < limit) :
    readSigned 10 limit (signedDecimal value) = .ok value := by
  cases value with
  | ofNat n =>
    have bound : n < limit := Int.ofNat_lt.mp upper
    rw [signedDecimal, readSigned_decimal, decimal, readDigits_toDigits (by decide) (by decide) bound]
    rfl
  | negSucc n =>
    have bound : n + 1 < limit + 1 := by omega
    have read := readMagnitude_decimal (limit + 1) (n + 1)
    rw [decimal, readDigits_toDigits (by decide) (by decide) bound] at read
    simp only [signedDecimal, readSigned, decimal, read, Except.map]
    rfl

end Numeral

theorem readRegister_register : ∀ n < Register.count, readRegister (Decoded.register n) = .ok n := by decide

theorem readImmediate_signedDecimal {value : Int} (lower : Immediate.least ≤ value) (upper : value ≤ Immediate.greatest) :
    readImmediate ('#' :: signedDecimal value) = .ok value := by
  have read : readSigned 10 (1 <<< 63) (signedDecimal value) = .ok value := by
    rw [Immediate.least_eq] at lower
    rw [Immediate.greatest_eq] at upper
    exact readSigned_signedDecimal (by omega) (by omega)
  simp only [readImmediate, read, lower, upper, and_self, if_true]

theorem Op.layout_eq_branch_iff {op : Op} : op.layout = .branch ↔ op = .br := by cases op <;> decide

theorem readMnemonic_mnemonic {op : Op} (other : op.layout ≠ .branch) :
    readMnemonic op.mnemonic = .ok (op, Cond.never) := by
  cases op
  case br => exact absurd rfl other
  all_goals decide

theorem readMnemonic_letters (cond : Cond) : readMnemonic (Op.br.mnemonic ++ cond.letters) = .ok (.br, cond) := by
  obtain ⟨negative, zero, positive⟩ := cond
  cases negative <;> cases zero <;> cases positive <;> rfl

/-- A mnemonic and its operands on one line. -/
def spelled (mnemonic : Text) : List Text → Text
  | [] => mnemonic
  | operands => mnemonic ++ " " ++ Text.join ", " operands

theorem tokens_spelled {mnemonic : Text} {operands : List Text} (first : IsToken mnemonic)
    (each : ∀ operand ∈ operands, IsToken operand) : tokens (spelled mnemonic operands) = mnemonic :: operands := by
  cases operands with
  | nil => exact first.tokens_eq
  | cons operand rest =>
    have read : tokens (Text.join ", " (operand :: rest)) = operand :: rest :=
      tokens_join (by decide) (List.all_eq_true.mp (by decide)) each
    have split : mnemonic ++ String.toList " " = mnemonic ++ [' '] := rfl
    simp only [spelled, split, List.append_assoc, List.singleton_append]
    rw [first.tokens_append (by decide), read]

theorem join_isStatement {parts : List Text} (nonempty : parts ≠ []) (each : ∀ part ∈ parts, IsPlainToken part) :
    IsStatement (Text.join ", " parts) ∧ (Text.join ", " parts).getLast? ≠ some ':' := by
  induction parts with
  | nil => exact absurd rfl nonempty
  | cons part rest ih =>
    have here := each part (List.mem_cons_self ..)
    cases rest with
    | nil => simpa [Text.join] using ⟨here.isStatement, here.getLast?_ne_colon⟩
    | cons next rest =>
      obtain ⟨statement, last⟩ := ih (List.cons_ne_nil _ _) fun x member => each x (List.mem_cons_of_mem _ member)
      rw [Text.join_cons_cons]
      refine ⟨here.isStatement.append statement (List.all_iff_forall_prop.mp (by decide)), ?_⟩
      rwa [List.getLast?_append_of_ne_nil _ statement.ne_nil]

theorem spelled_isStatement {mnemonic : Text} {operands : List Text} (first : IsPlainToken mnemonic)
    (each : ∀ operand ∈ operands, IsPlainToken operand) :
    IsStatement (spelled mnemonic operands) ∧ (spelled mnemonic operands).getLast? ≠ some ':' := by
  cases operands with
  | nil => exact ⟨first.isStatement, first.getLast?_ne_colon⟩
  | cons operand rest =>
    obtain ⟨statement, last⟩ := join_isStatement (List.cons_ne_nil _ _) each
    refine ⟨first.isStatement.append statement (List.all_iff_forall_prop.mp (by decide)), ?_⟩
    exact (List.getLast?_append_of_ne_nil _ statement.ne_nil).trans_ne last

namespace Decoded

/-- The first token of the printed text, with the letters of a branch condition. -/
def mnemonicText (d : Decoded) : Text :=
  match d.op.layout with
  | .branch => d.op.mnemonic ++ d.cond.letters
  | _ => d.op.mnemonic

def operandTexts (d : Decoded) (target : Text) : List Text :=
  match d.op.layout with
  | .branch => [target]
  | .regImm => [register d.rd, '#' :: signedDecimal d.imm]
  | .srcPair => [register d.rs, register d.rt]
  | .triple => [register d.rd, register d.rs, register d.rt]
  | .dstSrc => [register d.rd, register d.rs]
  | .bare => []

theorem text_eq_spelled (name? : Nat → Option Text) (d : Decoded) :
    d.text name? = spelled d.mnemonicText (d.operandTexts ((name? d.target).getD (decimal d.target))) := by
  cases layout : d.op.layout <;> simp [text, mnemonicText, operandTexts, layout, spelled, Text.join]

theorem mnemonicText_isPlainToken (d : Decoded) : IsPlainToken d.mnemonicText := by
  have mnemonic : IsPlainToken d.op.mnemonic := by
    have plain : d.op.mnemonic.all isPlain = true := by cases d.op <;> decide
    refine ⟨?_, List.all_eq_true.mp plain⟩
    cases d.op <;> decide
  have letters : d.cond.letters.all isPlain = true := by
    obtain ⟨negative, zero, positive⟩ := d.cond
    cases negative <;> cases zero <;> cases positive <;> decide
  unfold mnemonicText
  split
  · exact mnemonic.append (List.all_eq_true.mp letters)
  · exact mnemonic

theorem register_isPlainToken (n : Nat) : IsPlainToken (register n) := (decimal_isPlainToken n).cons (by decide)

theorem immediate_isPlainToken (value : Int) : IsPlainToken ('#' :: signedDecimal value) :=
  (signedDecimal_isPlainToken value).cons (by decide)

theorem mem_operandTexts {d : Decoded} {target operand : Text} (member : operand ∈ d.operandTexts target) :
    (d.op.layout = .branch ∧ operand = target) ∨ IsPlainToken operand := by
  unfold operandTexts at member
  split at member <;> rename_i layout <;> simp only [List.mem_cons, List.not_mem_nil, or_false] at member
  · exact Or.inl ⟨layout, member⟩
  · rcases member with rfl | rfl
    · exact Or.inr (register_isPlainToken _)
    · exact Or.inr (immediate_isPlainToken _)
  · rcases member with rfl | rfl <;> exact Or.inr (register_isPlainToken _)
  · rcases member with rfl | rfl | rfl <;> exact Or.inr (register_isPlainToken _)
  · rcases member with rfl | rfl <;> exact Or.inr (register_isPlainToken _)

/-- The text is a statement, and it does not look like a label line. -/
theorem text_isStatement {name? : Nat → Option Text} {d : Decoded}
    (plain : d.op.layout = .branch → IsPlainToken ((name? d.target).getD (decimal d.target))) :
    IsStatement (d.text name?) ∧ (d.text name?).getLast? ≠ some ':' := by
  rw [text_eq_spelled]
  apply spelled_isStatement d.mnemonicText_isPlainToken
  intro operand member
  rcases mem_operandTexts member with ⟨layout, rfl⟩ | token
  · exact plain layout
  · exact token

/-- Fields that the printed text can carry. -/
structure InRange (d : Decoded) : Prop where
  rd : d.rd < Register.count
  rs : d.rs < Register.count
  rt : d.rt < Register.count
  lower : Immediate.least ≤ d.imm
  upper : d.imm ≤ Immediate.greatest

theorem InRange.ofTokens_eq {d : Decoded} (inRange : d.InRange) (target : Text) :
    Instr.ofTokens (d.mnemonicText :: d.operandTexts target) = .ok ⟨d.op, d.operands target.upper⟩ := by
  have readRd := readRegister_register d.rd inRange.rd
  have readRs := readRegister_register d.rs inRange.rs
  have readRt := readRegister_register d.rt inRange.rt
  have readImm := readImmediate_signedDecimal inRange.lower inRange.upper
  cases layout : d.op.layout with
  | branch =>
    have branch := Op.layout_eq_branch_iff.mp layout
    simp only [Instr.ofTokens, mnemonicText, operandTexts, operands, branch, Op.layout, readMnemonic_letters]
    rfl
  | regImm | srcPair | triple | dstSrc | bare =>
    have other : d.op.layout ≠ .branch := by simp [layout]
    have mnemonic := readMnemonic_mnemonic other
    simp only [Instr.ofTokens, mnemonicText, operandTexts, operands, layout, mnemonic, bind, Except.bind,
      readOperands?, readRd, readRs, readRt, readImm]
    rfl

/-- Assembling the printed text is encoding what was decoded, under whatever name the target has. -/
theorem InRange.encodeLine_text {d : Decoded} (inRange : d.InRange) {name? : Nat → Option Text} {name : Text}
    (same : (name? d.target).getD (decimal d.target) = name) (token : d.op.layout = .branch → IsToken name)
    (symbols : SymbolTable) :
    encodeLine symbols (d.text name?) = Instr.encode symbols ⟨d.op, d.operands name.upper⟩ := by
  have each : ∀ operand ∈ d.operandTexts name, IsToken operand := by
    intro operand member
    rcases mem_operandTexts member with ⟨layout, rfl⟩ | plain
    · exact token layout
    · exact plain.isToken
  rw [encodeLine, text_eq_spelled, same, tokens_spelled d.mnemonicText_isPlainToken.isToken each,
    inRange.ofTokens_eq]
  rfl

end Decoded

end SimtAsm
