import SimtAsm.Proofs.Packing
import SimtAsm.Proofs.Spelling

namespace SimtAsm

open Numeral Source

/-- The statements of the language as tokens in any case, with the number that each one stands for: its opcode in front,
and the operands in their places. -/
inductive Spells (symbols : SymbolTable) : List Text → Nat → Prop
  | branch {mnemonic letters label : Text} {address : Nat} : mnemonic.upper = 'B' :: 'R' :: letters →
      symbols.get? label = some address →
      Spells symbols [mnemonic, label] (4096 + (if 'N' ∈ letters then 2048 else 0) +
        (if 'Z' ∈ letters then 1024 else 0) + (if 'P' ∈ letters then 512 else 0) + address % 256)
  | const {mnemonic rd imm : Text} {d : Nat} {v : Int} : mnemonic.upper = "CONST" → Register.Spelling rd.upper d →
      Immediate.Spelling imm.upper v → Spells symbols [mnemonic, rd, imm] (4096 * 9 + 256 * d + (v % 256).toNat)
  | pair {mnemonic rs rt : Text} {opcode s t : Nat} :
      (mnemonic.upper, opcode) ∈ ([("CMP", 2), ("STR", 8)] : List (Text × Nat)) →
      Register.Spelling rs.upper s → Register.Spelling rt.upper t →
      Spells symbols [mnemonic, rs, rt] (4096 * opcode + 16 * s + t)
  | triple {mnemonic rd rs rt : Text} {opcode d s t : Nat} :
      (mnemonic.upper, opcode) ∈ ([("ADD", 3), ("SUB", 4), ("MUL", 5), ("DIV", 6)] : List (Text × Nat)) →
      Register.Spelling rd.upper d → Register.Spelling rs.upper s → Register.Spelling rt.upper t →
      Spells symbols [mnemonic, rd, rs, rt] (4096 * opcode + 256 * d + 16 * s + t)
  | load {mnemonic rd rs : Text} {d s : Nat} : mnemonic.upper = "LDR" → Register.Spelling rd.upper d →
      Register.Spelling rs.upper s → Spells symbols [mnemonic, rd, rs] (4096 * 7 + 256 * d + 16 * s)
  | bare {mnemonic : Text} {opcode : Nat} :
      (mnemonic.upper, opcode) ∈ ([("NOP", 0), ("RET", 15)] : List (Text × Nat)) →
      Spells symbols [mnemonic] (4096 * opcode)

theorem Spells.of_eq {symbols : SymbolTable} {tokens : List Text} {m n : Nat} (spells : Spells symbols tokens m)
    (same : n = m) : Spells symbols tokens n := by
  rwa [same]

/-- What the tokens behind a mnemonic must be for these operands to be read from them. -/
def Operands.ReadFrom (cond : Cond) (tokens : List Text) : Operands → Prop
  | branch cond' label => ∃ token : Text, tokens = [token] ∧ cond' = cond ∧ label = token.upper
  | regImm d v => ∃ rd imm, tokens = [rd, imm] ∧ readRegister rd = .ok d ∧ readImmediate imm = .ok v
  | srcPair s t => ∃ rs rt, tokens = [rs, rt] ∧ readRegister rs = .ok s ∧ readRegister rt = .ok t
  | triple d s t =>
    ∃ rd rs rt, tokens = [rd, rs, rt] ∧ readRegister rd = .ok d ∧ readRegister rs = .ok s ∧ readRegister rt = .ok t
  | dstSrc d s => ∃ rd rs, tokens = [rd, rs] ∧ readRegister rd = .ok d ∧ readRegister rs = .ok s
  | bare => tokens = []

theorem readOperands?_eq_ok_iff {cond : Cond} {layout : Layout} {tokens : List Text} {operands : Operands} :
    readOperands? cond layout tokens = some (.ok operands) ↔
      operands.layout = layout ∧ operands.ReadFrom cond tokens := by
  constructor
  · intro read
    refine ⟨(readOperands?_spec read).1, ?_⟩
    unfold readOperands? at read
    split at read <;>
      simp only [Option.some.injEq, reduceCtorEq, bind_eq_ok, pure, Except.pure, Except.ok.injEq] at read
    · subst read
      exact ⟨_, rfl, rfl, rfl⟩
    · obtain ⟨d, readRd, v, readImm, rfl⟩ := read
      exact ⟨_, _, rfl, readRd, readImm⟩
    · obtain ⟨s, readRs, t, readRt, rfl⟩ := read
      exact ⟨_, _, rfl, readRs, readRt⟩
    · obtain ⟨d, readRd, s, readRs, t, readRt, rfl⟩ := read
      exact ⟨_, _, _, rfl, readRd, readRs, readRt⟩
    · obtain ⟨d, readRd, s, readRs, rfl⟩ := read
      exact ⟨_, _, rfl, readRd, readRs⟩
    · subst read
      rfl
  · rintro ⟨rfl, read⟩
    cases operands with
    | branch cond' label =>
      obtain ⟨token, rfl, rfl, rfl⟩ := read
      rfl
    | regImm d v =>
      obtain ⟨rd, imm, rfl, readRd, readImm⟩ := read
      simp only [Operands.layout, readOperands?, readRd, readImm]
      rfl
    | srcPair s t =>
      obtain ⟨rs, rt, rfl, readRs, readRt⟩ := read
      simp only [Operands.layout, readOperands?, readRs, readRt]
      rfl
    | triple d s t =>
      obtain ⟨rd, rs, rt, rfl, readRd, readRs, readRt⟩ := read
      simp only [Operands.layout, readOperands?, readRd, readRs, readRt]
      rfl
    | dstSrc d s =>
      obtain ⟨rd, rs, rfl, readRd, readRs⟩ := read
      simp only [Operands.layout, readOperands?, readRd, readRs]
      rfl
    | bare =>
      obtain rfl := read
      rfl

theorem Instr.ofTokens_cons_eq_ok_iff {mnemonic : Text} {rest : List Text} {instr : Instr} :
    ofTokens (mnemonic :: rest) = .ok instr ↔
      ∃ cond, readMnemonic mnemonic = .ok (instr.op, cond) ∧ instr.operands.layout = instr.op.layout ∧
        instr.operands.ReadFrom cond rest := by
  simp only [ofTokens, bind_eq_ok, ← readOperands?_eq_ok_iff]
  constructor
  · rintro ⟨⟨op, cond⟩, readOp, read⟩
    split at read
    · rename_i result readRest
      obtain ⟨operands, rfl, same⟩ := bind_eq_ok.mp read
      cases same
      exact ⟨cond, readOp, readRest⟩
    · simp at read
  · rintro ⟨cond, readOp, readRest⟩
    refine ⟨_, readOp, ?_⟩
    simp only [readRest]
    rfl

theorem capital_of_upper {token letters : Text} (same : token.upper = 'B' :: 'R' :: letters) :
    ∀ c ∈ letters, c.toUpper = c := by
  intro c member
  have inside : c ∈ token.upper := by
    rw [same]
    exact List.mem_cons_of_mem _ (List.mem_cons_of_mem _ member)
  exact Text.toUpper_of_mem_upper inside

theorem Cond.bits_ofLetters {letters : Text} (capital : ∀ c ∈ letters, c.toUpper = c) :
    512 * (ofLetters letters).bits = (if 'N' ∈ letters then 2048 else 0) + (if 'Z' ∈ letters then 1024 else 0) +
      (if 'P' ∈ letters then 512 else 0) := by
  have occurs : ∀ letter, letters.any (·.toUpper == letter) = decide (letter ∈ letters) := by
    intro letter
    rw [Bool.eq_iff_iff, List.any_eq_true, decide_eq_true_eq]
    constructor
    · rintro ⟨c, member, same⟩
      rw [capital c member, beq_iff_eq] at same
      exact same ▸ member
    · intro member
      exact ⟨letter, member, by simp [capital letter member]⟩
  simp only [bits, ofLetters, occurs]
  by_cases hasN : 'N' ∈ letters <;> by_cases hasZ : 'Z' ∈ letters <;> by_cases hasP : 'P' ∈ letters <;>
    simp [hasN, hasZ, hasP]

/-- The mnemonics that take a given kind of operands, with their opcodes. -/
def Layout.keywords (layout : Layout) : List (Text × Nat) := layout.ops.map fun op => (op.mnemonic, op.opcode)

/-- A register that exists takes its four bits as it is. -/
theorem Register.mod_eq {register : Nat} (below : register < count) : register % 16 = register := Nat.mod_eq_of_lt below

theorem spells_of_branch {symbols : SymbolTable} {mnemonic letters label : Text} {n : Nat}
    (same : mnemonic.upper = 'B' :: 'R' :: letters)
    (body : Operands.body? symbols (.branch (Cond.ofLetters letters) label.upper) = some n) :
    Spells symbols [mnemonic, label] (4096 + n) := by
  obtain ⟨address, found, rfl⟩ := Option.map_eq_some_iff.mp body
  rw [SymbolTable.get?_upper] at found
  have bits := Cond.bits_ofLetters (capital_of_upper same)
  refine (Spells.branch same found).of_eq ?_
  omega

theorem spells_of_keyword {symbols : SymbolTable} {mnemonic : Text} {rest : List Text} {opcode n : Nat} {cond : Cond}
    {operands : Operands} (each : ∀ token ∈ rest, IsToken token) (other : operands.layout ≠ .branch)
    (listed : (mnemonic.upper, opcode) ∈ operands.layout.keywords) (read : operands.ReadFrom cond rest)
    (fits : operands.Fits) (body : operands.body? symbols = some n) :
    Spells symbols (mnemonic :: rest) (4096 * opcode + n) := by
  have register : ∀ {token : Text} {d}, token ∈ rest → readRegister token = .ok d →
      Register.Spelling token.upper d :=
    fun member => (readRegister_eq_ok_iff (each _ member)).mp
  cases operands with
  | branch cond' label => exact absurd rfl other
  | regImm d v =>
    obtain ⟨rd, imm, rfl, readRd, readImm⟩ := read
    cases body
    obtain ⟨same, rfl⟩ := Prod.mk.inj (List.mem_singleton.mp listed)
    refine (Spells.const same (register (by simp) readRd) (readImmediate_eq_ok_iff.mp readImm)).of_eq ?_
    simp only [Op.opcode, Register.mod_eq fits.1]
    omega
  | srcPair s t =>
    obtain ⟨rs, rt, rfl, readRs, readRt⟩ := read
    cases body
    refine (Spells.pair listed (register (by simp) readRs) (register (by simp) readRt)).of_eq ?_
    simp only [Register.mod_eq fits.1, Register.mod_eq fits.2]
    omega
  | triple d s t =>
    obtain ⟨rd, rs, rt, rfl, readRd, readRs, readRt⟩ := read
    cases body
    refine (Spells.triple listed (register (by simp) readRd) (register (by simp) readRs)
      (register (by simp) readRt)).of_eq ?_
    simp only [Register.mod_eq fits.1, Register.mod_eq fits.2.1, Register.mod_eq fits.2.2]
    omega
  | dstSrc d s =>
    obtain ⟨rd, rs, rfl, readRd, readRs⟩ := read
    cases body
    obtain ⟨same, rfl⟩ := Prod.mk.inj (List.mem_singleton.mp listed)
    refine (Spells.load same (register (by simp) readRd) (register (by simp) readRs)).of_eq ?_
    simp only [Op.opcode, Register.mod_eq fits.1, Register.mod_eq fits.2]
    omega
  | bare =>
    obtain rfl := read
    cases body
    exact .bare listed

theorem spells_of_ofTokens {symbols : SymbolTable} {tokens : List Text} {instr : Instr} {n : Nat}
    (each : ∀ token ∈ tokens, IsToken token) (read : Instr.ofTokens tokens = .ok instr)
    (body : instr.operands.body? symbols = some n) : Spells symbols tokens (4096 * instr.op.opcode + n) := by
  obtain ⟨_, fits⟩ := Instr.wellFormed_of_ofTokens read
  obtain ⟨op, operands⟩ := instr
  cases tokens with
  | nil => simp [Instr.ofTokens] at read
  | cons mnemonic rest =>
    obtain ⟨cond, readOp, layout, readRest⟩ := Instr.ofTokens_cons_eq_ok_iff.mp read
    by_cases branches : op.layout = .branch
    · obtain ⟨rfl, letters, same, rfl⟩ := upper_of_readMnemonic_branch readOp branches
      cases operands with
      | branch cond' label =>
        obtain ⟨token, rfl, rfl, rfl⟩ := readRest
        exact spells_of_branch same body
      | regImm | srcPair | triple | dstSrc | bare => cases layout
    · have listed : (mnemonic.upper, op.opcode) ∈ operands.layout.keywords := by
        rw [upper_of_readMnemonic readOp branches]
        exact List.mem_map_of_mem (Op.mem_ops.mpr layout.symm)
      exact spells_of_keyword (List.forall_mem_cons.mp each).2 (layout ▸ branches) listed readRest fits body

theorem Instr.exists_ofTokens_of_keyword {mnemonic : Text} {rest : List Text} {opcode : Nat} {operands : Operands}
    (read : operands.ReadFrom Cond.never rest) (listed : (mnemonic.upper, opcode) ∈ operands.layout.keywords) :
    ∃ op : Op, ofTokens (mnemonic :: rest) = .ok ⟨op, operands⟩ ∧ operands.Fits ∧ op.opcode = opcode := by
  obtain ⟨op, member, same⟩ := List.mem_map.mp listed
  obtain ⟨named, rfl⟩ := Prod.mk.inj same
  have readAll : ofTokens (mnemonic :: rest) = .ok ⟨op, operands⟩ := ofTokens_cons_eq_ok_iff.mpr
    ⟨Cond.never, readMnemonic_of_mnemonic named.symm, (Op.mem_ops.mp member).symm, read⟩
  exact ⟨op, readAll, (wellFormed_of_ofTokens readAll).fits, rfl⟩

theorem Instr.ofTokens_of_branch {mnemonic letters : Text} (same : mnemonic.upper = 'B' :: 'R' :: letters)
    (label : Text) : ofTokens [mnemonic, label] = .ok ⟨.br, .branch (Cond.ofLetters letters) label.upper⟩ :=
  ofTokens_cons_eq_ok_iff.mpr ⟨_, readMnemonic_of_branch same, rfl, label, rfl, rfl, rfl⟩

theorem ofTokens_of_spells {symbols : SymbolTable} {tokens : List Text} {n : Nat}
    (each : ∀ token ∈ tokens, IsToken token) (spells : Spells symbols tokens n) :
    ∃ instr below, Instr.ofTokens tokens = .ok instr ∧ instr.operands.body? symbols = some below ∧
      n = 4096 * instr.op.opcode + below := by
  have register : ∀ {token : Text} {d}, token ∈ tokens → Register.Spelling token.upper d →
      readRegister token = .ok d :=
    fun member => (readRegister_eq_ok_iff (each _ member)).mpr
  cases spells with
  | @branch mnemonic letters label address same found =>
    have body : Operands.body? symbols (.branch (Cond.ofLetters letters) label.upper) =
        some (512 * (Cond.ofLetters letters).bits + address % 256) := by
      rw [Operands.body?, SymbolTable.get?_upper, found, Option.map_some]
    have bits := Cond.bits_ofLetters (capital_of_upper same)
    refine ⟨_, _, Instr.ofTokens_of_branch same label, body, ?_⟩
    simp only [Op.opcode]
    omega
  | @const mnemonic rd imm d v same spelledRd spelledImm =>
    have readRest : Operands.ReadFrom Cond.never [rd, imm] (.regImm d v) :=
      ⟨rd, imm, rfl, register (by simp) spelledRd, readImmediate_eq_ok_iff.mpr spelledImm⟩
    have listed : (mnemonic.upper, 9) ∈ Layout.regImm.keywords := same ▸ List.mem_singleton_self _
    obtain ⟨op, read, fits, code⟩ := Instr.exists_ofTokens_of_keyword readRest listed
    refine ⟨_, _, read, rfl, ?_⟩
    simp only [code, Register.mod_eq fits.1]
    omega
  | @pair mnemonic rs rt opcode s t listed spelledRs spelledRt =>
    have readRest : Operands.ReadFrom Cond.never [rs, rt] (.srcPair s t) :=
      ⟨rs, rt, rfl, register (by simp) spelledRs, register (by simp) spelledRt⟩
    obtain ⟨op, read, fits, rfl⟩ := Instr.exists_ofTokens_of_keyword readRest listed
    refine ⟨_, _, read, rfl, ?_⟩
    simp only [Register.mod_eq fits.1, Register.mod_eq fits.2]
    omega
  | @triple mnemonic rd rs rt opcode d s t listed spelledRd spelledRs spelledRt =>
    have readRest : Operands.ReadFrom Cond.never [rd, rs, rt] (.triple d s t) :=
      ⟨rd, rs, rt, rfl, register (by simp) spelledRd, register (by simp) spelledRs, register (by simp) spelledRt⟩
    obtain ⟨op, read, fits, rfl⟩ := Instr.exists_ofTokens_of_keyword readRest listed
    refine ⟨_, _, read, rfl, ?_⟩
    simp only [Register.mod_eq fits.1, Register.mod_eq fits.2.1, Register.mod_eq fits.2.2]
    omega
  | @load mnemonic rd rs d s same spelledRd spelledRs =>
    have readRest : Operands.ReadFrom Cond.never [rd, rs] (.dstSrc d s) :=
      ⟨rd, rs, rfl, register (by simp) spelledRd, register (by simp) spelledRs⟩
    have listed : (mnemonic.upper, 7) ∈ Layout.dstSrc.keywords := same ▸ List.mem_singleton_self _
    obtain ⟨op, read, fits, code⟩ := Instr.exists_ofTokens_of_keyword readRest listed
    refine ⟨_, _, read, rfl, ?_⟩
    simp only [code, Register.mod_eq fits.1, Register.mod_eq fits.2]
    omega
  | @bare mnemonic opcode listed =>
    have readRest : Operands.ReadFrom Cond.never [] .bare := rfl
    obtain ⟨op, read, _, rfl⟩ := Instr.exists_ofTokens_of_keyword readRest listed
    exact ⟨_, _, read, rfl, rfl⟩

/-- The line assembles just when its maximal runs belong to the grammar, and its word is the number that the grammar
gives them. -/
theorem encodeLine_iff_spells (symbols : SymbolTable) (line : Text) (word : Word) :
    encodeLine symbols line = .ok word ↔ ∃ tokens, Runs line tokens ∧ Spells symbols tokens word.toNat := by
  have each := (runs_tokens line).isToken
  simp only [encodeLine, bind_eq_ok, ← tokens_eq_iff, exists_eq_left']
  constructor
  · rintro ⟨instr, read, encoded⟩
    obtain ⟨below, body, value⟩ := Instr.encode_eq_ok_iff.mp encoded
    rw [value]
    exact spells_of_ofTokens each read body
  · intro spells
    obtain ⟨instr, below, read, body, value⟩ := ofTokens_of_spells each spells
    exact ⟨instr, read, Instr.encode_eq_ok_iff.mpr ⟨below, body, value⟩⟩

end SimtAsm
