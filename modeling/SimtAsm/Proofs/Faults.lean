import SimtAsm.Proofs.Grammar

namespace SimtAsm

open Source

/-- What a layout asks of one operand. -/
inductive Slot
  | label
  | register
  | immediate
  deriving DecidableEq, Repr

/-- The operands of a layout from left to right. -/
def Layout.slots : Layout → List Slot
  | branch => [.label]
  | regImm => [.register, .immediate]
  | srcPair | dstSrc => [.register, .register]
  | triple => [.register, .register, .register]
  | bare => []

namespace Slot

/-- Whether a token is what a slot asks for. Any token can be a label. -/
def Fits : Slot → Text → Prop
  | label, _ => True
  | register, token => ∃ number, Register.Spelling token.trim.upper number
  | immediate, token => ∃ value, Immediate.Spelling token.upper value

/-- The error for a token that is not what its slot asks for. -/
inductive Misfit : Slot → Text → EncodeError → Prop
  | register {token : Text} : ¬Fits .register token → Misfit .register token (.invalidRegister token)
  | immediate {token : Text} {error : EncodeError} : readImmediate token = .error error → Misfit .immediate token error

theorem fits_register_iff {token : Text} : Fits .register token ↔ ∃ number, readRegister token = .ok number := by
  refine exists_congr fun number => ?_
  rw [← Register.ofToken?_eq_some_iff, readRegister]
  split <;> rename_i found <;> simp [found]

theorem misfit_register_iff {token : Text} {error : EncodeError} :
    Misfit .register token error ↔ readRegister token = .error error := by
  constructor
  · rintro ⟨unfit⟩
    rw [fits_register_iff] at unfit
    unfold readRegister at unfit ⊢
    split <;> simp_all
  · intro failed
    have unfit : ¬Fits .register token := by
      rw [fits_register_iff, failed]
      simp
    unfold readRegister at failed
    split at failed
    · cases failed
    · cases failed
      exact .register unfit

theorem not_misfit_label {token : Text} {error : EncodeError} : ¬Misfit .label token error := by
  rintro ⟨⟩

theorem misfit_immediate_iff {token : Text} {error : EncodeError} :
    Misfit .immediate token error ↔ readImmediate token = .error error := by
  constructor
  · rintro ⟨⟩
    assumption
  · exact .immediate

end Slot

/-- The error of the leftmost token that is not what its slot asks for. -/
inductive FirstMisfit : List Slot → List Text → EncodeError → Prop
  | here {slot : Slot} {slots : List Slot} {token : Text} {tokens : List Text} {error : EncodeError} :
      slot.Misfit token error → FirstMisfit (slot :: slots) (token :: tokens) error
  | later {slot : Slot} {slots : List Slot} {token : Text} {tokens : List Text} {error : EncodeError} :
      slot.Fits token → FirstMisfit slots tokens error → FirstMisfit (slot :: slots) (token :: tokens) error

theorem firstMisfit_cons_iff {slot : Slot} {slots : List Slot} {token : Text} {tokens : List Text}
    {error : EncodeError} :
    FirstMisfit (slot :: slots) (token :: tokens) error ↔
      slot.Misfit token error ∨ slot.Fits token ∧ FirstMisfit slots tokens error := by
  constructor
  · intro first
    cases first with
    | here misfit => exact Or.inl misfit
    | later fits rest => exact Or.inr ⟨fits, rest⟩
  · rintro (misfit | ⟨fits, rest⟩)
    · exact .here misfit
    · exact .later fits rest

theorem not_firstMisfit_nil {tokens : List Text} {error : EncodeError} : ¬FirstMisfit [] tokens error := by
  rintro ⟨⟩

theorem readImmediate_eq_error {token : Text} {error : EncodeError} (failed : readImmediate token = .error error) :
    error = .invalidImmediate token ∨ ∃ digits, token = '#' :: digits ∧ error = .immediateRange digits 8 (-128) 127 := by
  unfold readImmediate at failed
  split at failed
  · rename_i digits
    split at failed
    · split at failed <;> cases failed
      exact Or.inr ⟨digits, rfl, rfl⟩
    · cases failed
      exact Or.inr ⟨digits, rfl, rfl⟩
    · cases failed
      exact Or.inl rfl
  · cases failed
    exact Or.inl rfl

/-- The error of an operand shows its token, or the token without its number sign. -/
theorem FirstMisfit.error_cases {slots : List Slot} {tokens : List Text} {error : EncodeError}
    (first : FirstMisfit slots tokens error) : ∃ token ∈ tokens, error = .invalidRegister token ∨
      error = .invalidImmediate token ∨ ∃ digits, token = '#' :: digits ∧
        error = .immediateRange digits 8 (-128) 127 := by
  induction first with
  | @here _ _ token _ _ misfit =>
    refine ⟨token, List.mem_cons_self .., ?_⟩
    cases misfit with
    | register => exact Or.inl rfl
    | immediate failed => exact Or.inr (readImmediate_eq_error failed)
  | later _ _ ih =>
    obtain ⟨token, member, shown⟩ := ih
    exact ⟨token, List.mem_cons_of_mem _ member, shown⟩

/-- Operands are read just when there are as many as the layout takes. -/
theorem readOperands?_eq_none_iff {cond : Cond} {layout : Layout} {tokens : List Text} :
    readOperands? cond layout tokens = none ↔ tokens.length ≠ layout.arity := by
  unfold readOperands?
  split
  case h_7 _ _ branch regImm srcPair triple dstSrc bare =>
    simp only [true_iff]
    intro count
    cases layout with
    | branch =>
      obtain ⟨target, rfl⟩ := List.length_eq_one_iff.mp count
      exact branch target rfl rfl
    | regImm =>
      obtain ⟨rd, imm, rfl⟩ := List.length_eq_two.mp count
      exact regImm rd imm rfl rfl
    | srcPair =>
      obtain ⟨rs, rt, rfl⟩ := List.length_eq_two.mp count
      exact srcPair rs rt rfl rfl
    | triple =>
      obtain ⟨rd, rs, rt, rfl⟩ := List.length_eq_three.mp count
      exact triple rd rs rt rfl rfl
    | dstSrc =>
      obtain ⟨rd, rs, rfl⟩ := List.length_eq_two.mp count
      exact dstSrc rd rs rfl rfl
    | bare => exact bare rfl (List.length_eq_zero_iff.mp count)
  all_goals simp [Layout.arity]

/-- The readers go from left to right, and the first one that fails decides. -/
theorem readOperands?_eq_error_iff {cond : Cond} {layout : Layout} {tokens : List Text} {error : EncodeError} :
    readOperands? cond layout tokens = some (.error error) ↔
      tokens.length = layout.arity ∧ FirstMisfit layout.slots tokens error := by
  cases read : readOperands? cond layout tokens with
  | none => simp [readOperands?_eq_none_iff.mp read]
  | some result =>
    have count : tokens.length = layout.arity := by
      by_contra other
      simp [readOperands?_eq_none_iff.mpr other] at read
    rw [and_iff_right count]
    unfold readOperands? at read
    split at read
    case h_7 => simp at read
    all_goals
      cases read
      simp only [Layout.slots, firstMisfit_cons_iff, not_firstMisfit_nil, Slot.not_misfit_label,
        Slot.misfit_register_iff, Slot.misfit_immediate_iff, Slot.fits_register_iff, Option.some.injEq, reduceCtorEq,
        bind_eq_error, pure, Except.pure, and_false, exists_false, or_false, exists_and_right]

/-- The operation that a mnemonic in upper case stands for. Whatever starts with BR is a branch. -/
inductive Op.Named : Text → Op → Prop
  | branch (letters : Text) : Named ('B' :: 'R' :: letters) .br
  | mnemonic (op : Op) : Named op.mnemonic op

theorem Op.named_br_iff {name : Text} : Named name .br ↔ ∃ letters, name = 'B' :: 'R' :: letters := by
  constructor
  · rintro (⟨letters⟩ | ⟨_⟩)
    · exact ⟨letters, rfl⟩
    · exact ⟨[], rfl⟩
  · rintro ⟨letters, rfl⟩
    exact .branch letters

theorem exists_readMnemonic_iff {token : Text} {op : Op} :
    (∃ cond, readMnemonic token = .ok (op, cond)) ↔ op.Named token.upper := by
  constructor
  · rintro ⟨cond, read⟩
    by_cases branch : op.layout = .branch
    · obtain ⟨rfl, letters, same, _⟩ := upper_of_readMnemonic_branch read branch
      rw [same]
      exact .branch letters
    · rw [upper_of_readMnemonic read branch]
      exact .mnemonic op
  · intro named
    generalize same : token.upper = name at named
    cases named with
    | branch letters => exact ⟨_, readMnemonic_of_branch same⟩
    | mnemonic => exact ⟨_, readMnemonic_of_mnemonic same⟩

theorem readMnemonic_eq_error_iff {token : Text} {error : EncodeError} :
    readMnemonic token = .error error ↔
      (∀ op : Op, ¬op.Named token.upper) ∧ error = .unknownMnemonic token.upper := by
  have shown : ∀ {error}, readMnemonic token = .error error → error = .unknownMnemonic token.upper := by
    intro error failed
    unfold readMnemonic at failed
    split at failed
    · cases failed
    · split at failed <;> cases failed
      rfl
  constructor
  · intro failed
    refine ⟨?_, shown failed⟩
    intro op named
    obtain ⟨cond, read⟩ := exists_readMnemonic_iff.mpr named
    cases failed.symm.trans read
  · rintro ⟨unknown, rfl⟩
    cases read : readMnemonic token with
    | ok found => exact absurd (exists_readMnemonic_iff.mp ⟨found.2, read⟩) (unknown found.1)
    | error error => rw [shown read]

/-- Why tokens are no instruction, whatever the labels are. -/
inductive Misread : List Text → EncodeError → Prop
  | empty : Misread [] .malformedInstruction
  | mnemonic {mnemonic : Text} {operands : List Text} : (∀ op : Op, ¬op.Named mnemonic.upper) →
      Misread (mnemonic :: operands) (.unknownMnemonic mnemonic.upper)
  | count {mnemonic : Text} {operands : List Text} {op : Op} : op.Named mnemonic.upper →
      operands.length ≠ op.layout.arity →
      Misread (mnemonic :: operands) (.operandCount mnemonic.upper op.layout.arity operands.length)
  | operand {mnemonic : Text} {operands : List Text} {op : Op} {error : EncodeError} : op.Named mnemonic.upper →
      operands.length = op.layout.arity → FirstMisfit op.layout.slots operands error →
      Misread (mnemonic :: operands) error

theorem Instr.ofTokens_eq_error_iff {tokens : List Text} {error : EncodeError} :
    ofTokens tokens = .error error ↔ Misread tokens error := by
  constructor
  · intro failed
    cases tokens with
    | nil =>
      cases failed
      exact .empty
    | cons mnemonic operands =>
      rcases bind_eq_error.mp failed with refused | ⟨⟨op, cond⟩, read, failed⟩
      · obtain ⟨unknown, rfl⟩ := readMnemonic_eq_error_iff.mp refused
        exact .mnemonic unknown
      · have named := exists_readMnemonic_iff.mp ⟨cond, read⟩
        dsimp only at failed
        split at failed
        · rename_i result readRest
          rcases bind_eq_error.mp failed with rfl | ⟨_, _, made⟩
          · obtain ⟨count, first⟩ := readOperands?_eq_error_iff.mp readRest
            exact .operand named count first
          · cases made
        · rename_i refused
          cases failed
          exact .count named (readOperands?_eq_none_iff.mp refused)
  · intro misread
    cases misread with
    | empty => rfl
    | mnemonic unknown => exact bind_eq_error.mpr (Or.inl (readMnemonic_eq_error_iff.mpr ⟨unknown, rfl⟩))
    | count named differs =>
      obtain ⟨cond, read⟩ := exists_readMnemonic_iff.mpr named
      refine bind_eq_error.mpr (Or.inr ⟨_, read, ?_⟩)
      simp only [readOperands?_eq_none_iff.mpr differs]
    | operand named count first =>
      obtain ⟨cond, read⟩ := exists_readMnemonic_iff.mpr named
      refine bind_eq_error.mpr (Or.inr ⟨_, read, ?_⟩)
      simp only [readOperands?_eq_error_iff.mpr ⟨count, first⟩]
      rfl

/-- Why tokens give no word: they are no instruction, or they are a branch to a label that is not there. -/
inductive Fault (symbols : SymbolTable) : List Text → EncodeError → Prop
  | misread {tokens : List Text} {error : EncodeError} : Misread tokens error → Fault symbols tokens error
  | label {mnemonic label : Text} : Op.br.Named mnemonic.upper → symbols.get? label = none →
      Fault symbols [mnemonic, label] (.undefinedLabel label.upper)

theorem encodeLine_eq_error_iff {symbols : SymbolTable} {line : Text} {error : EncodeError} :
    encodeLine symbols line = .error error ↔ Fault symbols (tokens line) error := by
  constructor
  · intro failed
    rcases bind_eq_error.mp failed with misread | ⟨instr, read, failed⟩
    · exact .misread (Instr.ofTokens_eq_error_iff.mp misread)
    · obtain ⟨op, operands⟩ := instr
      obtain ⟨cond, label, rfl, missing, rfl⟩ := Instr.encode_eq_error_iff.mp failed
      generalize tokens line = parts at read
      cases parts with
      | nil => cases read
      | cons mnemonic rest =>
        obtain ⟨_, readOp, layout, token, rfl, _, rfl⟩ := Instr.ofTokens_cons_eq_ok_iff.mp read
        obtain ⟨rfl, _⟩ := upper_of_readMnemonic_branch readOp layout.symm
        rw [SymbolTable.get?_upper] at missing
        exact .label (exists_readMnemonic_iff.mp ⟨_, readOp⟩) missing
  · intro fault
    rw [encodeLine, bind_eq_error]
    generalize tokens line = parts at fault
    cases fault with
    | misread misread => exact Or.inl (Instr.ofTokens_eq_error_iff.mpr misread)
    | label named missing =>
      obtain ⟨letters, same⟩ := Op.named_br_iff.mp named
      rw [← SymbolTable.get?_upper] at missing
      exact Or.inr ⟨_, Instr.ofTokens_of_branch same _, Instr.encode_eq_error_iff.mpr ⟨_, _, rfl, missing, rfl⟩⟩

/-- Labels matter to branches only. -/
theorem encodeLine_eq_of_not_branch {line : Text} (other : ∀ mnemonic ∈ (tokens line).head?, ¬Op.br.Named mnemonic.upper)
    (symbols symbols' : SymbolTable) : encodeLine symbols line = encodeLine symbols' line := by
  rw [encodeLine, encodeLine]
  generalize tokens line = parts at other
  cases read : Instr.ofTokens parts with
  | error error => rfl
  | ok instr =>
    cases parts with
    | nil => cases read
    | cons mnemonic rest =>
      obtain ⟨op, operands⟩ := instr
      obtain ⟨cond, readOp, layout, _⟩ := Instr.ofTokens_cons_eq_ok_iff.mp read
      cases operands with
      | branch =>
        obtain ⟨rfl, _⟩ := upper_of_readMnemonic_branch readOp layout.symm
        exact absurd (exists_readMnemonic_iff.mp ⟨cond, readOp⟩) (other mnemonic rfl)
      | regImm | srcPair | triple | dstSrc | bare => rfl

/-- A line gives the error of its first problem, and a word if it has none. What starts with no branch gives the same
with all labels. -/
theorem encodeLine_first_fault (symbols : SymbolTable) (line : Text) :
    (∀ error, encodeLine symbols line = .error error ↔ Fault symbols (tokens line) error) ∧
      ((∃ word, encodeLine symbols line = .ok word) ↔ ∀ error, ¬Fault symbols (tokens line) error) ∧
      ((∀ mnemonic ∈ (tokens line).head?, ¬Op.br.Named mnemonic.upper) →
        ∀ symbols', encodeLine symbols' line = encodeLine symbols line) := by
  refine ⟨fun error => encodeLine_eq_error_iff, ?_, fun other symbols' => encodeLine_eq_of_not_branch other _ _⟩
  simp only [← encodeLine_eq_error_iff]
  cases encodeLine symbols line <;> simp

end SimtAsm
