import SimtAsm.Proofs.Encoding

namespace SimtAsm

/-- What operands stand for below the opcode. Operands need not fit: their fields hold four bits of a register, eight of
an immediate, and the low eight bits of the address of a branch. -/
def Operands.body? (symbols : SymbolTable) : Operands → Option Nat
  | branch cond target => (symbols.get? target).map fun address => 512 * cond.bits + address % 256
  | regImm rd imm => some (256 * (rd % 16) + (imm % 256).toNat)
  | srcPair rs rt => some (16 * (rs % 16) + rt % 16)
  | triple rd rs rt => some (256 * (rd % 16) + 16 * (rs % 16) + rt % 16)
  | dstSrc rd rs => some (256 * (rd % 16) + 16 * (rs % 16))
  | bare => some 0

/-- A field keeps the low bits of a number, however large the number is. -/
theorem Field.toNat_ofNat_mod {field : Field} (inside : field.shift + field.bits ≤ 16) (n : Nat) :
    (BitVec.ofNat 16 n).toNat % 2 ^ field.bits = n % 2 ^ field.bits := by
  have divides : 2 ^ field.bits ∣ 2 ^ 16 := Nat.pow_dvd_pow 2 (by omega)
  rw [BitVec.toNat_ofNat, Nat.mod_mod_of_dvd _ divides]

theorem Field.toNat_put_ofNat {field : Field} (inside : field.shift + field.bits ≤ 16) (n : Nat) :
    (field.put (BitVec.ofNat 16 n)).toNat = 2 ^ field.shift * (n % 2 ^ field.bits) := by
  rw [toNat_put inside, toNat_ofNat_mod inside, Nat.mul_comm]

theorem Field.toNat_put_ofNat_or {field : Field} (inside : field.shift + field.bits ≤ 16) (n : Nat) {rest : Word}
    (below : rest.toNat < 2 ^ field.shift) :
    (field.put (BitVec.ofNat 16 n) ||| rest).toNat = 2 ^ field.shift * (n % 2 ^ field.bits) + rest.toNat := by
  rw [toNat_put_or inside _ below, toNat_ofNat_mod inside]

theorem Field.toNat_put_pair (rs rt : Nat) :
    (Field.rs.put (BitVec.ofNat 16 rs) ||| Field.rt.put (BitVec.ofNat 16 rt)).toNat = 16 * (rs % 16) + rt % 16 := by
  have low : (Field.rt.put (BitVec.ofNat 16 rt)).toNat = rt % 16 := by
    rw [toNat_put_ofNat (by decide)]
    exact Nat.one_mul _
  rw [toNat_put_ofNat_or (by decide) _ (by rw [low]; simp only [Field.rs]; omega), low]
  rfl

theorem Operands.encode_eq_ok_iff {symbols : SymbolTable} {operands : Operands} {body : Word} :
    operands.encode symbols = .ok body ↔ operands.body? symbols = some body.toNat := by
  have settled : ∀ {word : Word} {n : Nat}, word.toNat = n →
      ((Except.ok word : Except EncodeError Word) = .ok body ↔ some n = some body.toNat) := by
    rintro word n rfl
    rw [Except.ok.injEq, Option.some.injEq, BitVec.toNat_inj]
  cases operands with
  | branch cond target =>
    simp only [encode, body?]
    split <;> rename_i found
    · rename_i address
      rw [found, Option.map_some]
      apply settled
      have bits := cond.bits_lt
      have low : (Field.target.put (BitVec.ofNat 16 address)).toNat = address % 256 := by
        rw [Field.toNat_put_ofNat (by decide)]
        exact Nat.one_mul _
      rw [Field.toNat_put_ofNat_or (by decide) _ (by rw [low]; simp only [Field.cond]; omega), low]
      simp only [Field.cond]
      omega
    · simp [found]
  | regImm rd imm =>
    have low : (Word.ofSigned imm Field.immediate.bits).toNat = (imm % 256).toNat := by
      have value := Word.toNat_ofSigned (by decide : Field.immediate.bits ≤ 16) imm
      simp only [Field.immediate] at value ⊢
      omega
    apply settled
    rw [Field.toNat_put_ofNat_or (by decide) _ (by rw [low]; simp only [Field.rd]; omega), low]
    rfl
  | srcPair rs rt => exact settled (Field.toNat_put_pair rs rt)
  | triple rd rs rt =>
    have low := Field.toNat_put_pair rs rt
    apply settled
    rw [BitVec.or_assoc, Field.toNat_put_ofNat_or (by decide) _ (by rw [low]; simp only [Field.rd]; omega), low,
      ← Nat.add_assoc]
    rfl
  | dstSrc rd rs =>
    have low : (Field.rs.put (BitVec.ofNat 16 rs)).toNat = 16 * (rs % 16) := Field.toNat_put_ofNat (by decide) rs
    apply settled
    rw [Field.toNat_put_ofNat_or (by decide) _ (by rw [low]; simp only [Field.rd]; omega), low]
    rfl
  | bare => exact settled rfl

/-- Operands never reach the opcode. -/
theorem Operands.body?_lt {symbols : SymbolTable} {operands : Operands} {n : Nat}
    (found : operands.body? symbols = some n) : n < 4096 := by
  cases operands with
  | branch cond target =>
    obtain ⟨address, _, rfl⟩ := Option.map_eq_some_iff.mp found
    have bits := cond.bits_lt
    omega
  | regImm | srcPair | triple | dstSrc | bare =>
    cases found
    omega

/-- The word of an instruction as a number. -/
theorem Instr.encode_eq_ok_iff {symbols : SymbolTable} {instr : Instr} {word : Word} :
    instr.encode symbols = .ok word ↔
      ∃ n, instr.operands.body? symbols = some n ∧ word.toNat = 4096 * instr.op.opcode + n := by
  have packed : ∀ {body : Word}, body.toNat < 4096 →
      (Field.opcode.put (BitVec.ofNat 16 instr.op.opcode) ||| body).toNat = 4096 * instr.op.opcode + body.toNat := by
    intro body below
    have bound := instr.op.opcode_lt
    rw [Field.toNat_put_ofNat_or (by decide) _ below]
    simp only [Field.opcode]
    omega
  unfold encode
  rw [bind_eq_ok]
  constructor
  · rintro ⟨body, encoded, same⟩
    have number := Operands.encode_eq_ok_iff.mp encoded
    cases same
    exact ⟨body.toNat, number, packed (Operands.body?_lt number)⟩
  · rintro ⟨n, number, same⟩
    have below := Operands.body?_lt number
    have body : (BitVec.ofNat 16 n).toNat = n := by
      rw [BitVec.toNat_ofNat]
      omega
    refine ⟨BitVec.ofNat 16 n, Operands.encode_eq_ok_iff.mpr (by rw [body, number]), ?_⟩
    refine congrArg Except.ok (BitVec.eq_of_toNat_eq ?_)
    rw [packed (by rw [body]; exact below), body, same]

theorem Instr.opcode_of_encode {symbols : SymbolTable} {instr : Instr} {word : Word}
    (encoded : instr.encode symbols = .ok word) : word.toNat / 4096 = instr.op.opcode := by
  obtain ⟨below, number, value⟩ := encode_eq_ok_iff.mp encoded
  have small := Operands.body?_lt number
  omega

/-- The word of a branch on `cond` to the low eight bits of an address. -/
def branchWord (cond : Cond) (address : Nat) : Word := BitVec.ofNat 16 (4096 + 512 * cond.bits + address % 256)

theorem toNat_branchWord (cond : Cond) (address : Nat) :
    (branchWord cond address).toNat = 4096 + 512 * cond.bits + address % 256 := by
  have bits := cond.bits_lt
  rw [branchWord, BitVec.toNat_ofNat]
  omega

theorem Instr.encode_branch {symbols : SymbolTable} {label : Text} {address : Nat}
    (found : symbols.get? label = some address) (cond : Cond) :
    encode symbols ⟨.br, .branch cond label⟩ = .ok (branchWord cond address) := by
  refine encode_eq_ok_iff.mpr ⟨512 * cond.bits + address % 256, ?_, ?_⟩
  · simp only [Operands.body?, found, Option.map_some]
  · rw [toNat_branchWord, Op.opcode]
    omega

theorem Op.opcode_injective {a b : Op} (same : a.opcode = b.opcode) : a = b := by
  have found := ofOpcode?_opcode a
  rw [same, ofOpcode?_opcode] at found
  exact (Option.some.inj found).symm

/-- Packing fails only for want of a label. -/
theorem Instr.encode_eq_error_iff {symbols : SymbolTable} {instr : Instr} {error : EncodeError} :
    instr.encode symbols = .error error ↔ ∃ cond label, instr.operands = .branch cond label ∧
      symbols.get? label = none ∧ error = .undefinedLabel label := by
  obtain ⟨op, operands⟩ := instr
  cases operands with
  | branch cond label =>
    cases found : symbols.get? label with
    | none =>
      have fails : encode symbols ⟨op, .branch cond label⟩ = .error (.undefinedLabel label) := by
        simp only [encode, Operands.encode, found, bind, Except.bind]
      rw [fails, Except.error.injEq]
      constructor
      · rintro rfl
        exact ⟨cond, label, rfl, found, rfl⟩
      · rintro ⟨_, _, same, _, rfl⟩
        cases same
        rfl
    | some address =>
      simp only [encode, Operands.encode, found, bind, Except.bind, pure, Except.pure, reduceCtorEq, false_iff]
      rintro ⟨_, _, same, missing, _⟩
      cases same
      cases found.symm.trans missing
  | regImm | srcPair | triple | dstSrc | bare =>
    simp [encode, Operands.encode, bind, Except.bind, pure, Except.pure]

theorem Instr.encode_branch_of_missing {symbols : SymbolTable} {label : Text} (missing : symbols.get? label = none)
    (cond : Cond) : encode symbols ⟨.br, .branch cond label⟩ = .error (.undefinedLabel label) :=
  encode_eq_error_iff.mpr ⟨cond, label, rfl, missing, rfl⟩

/-- Whatever its operands are, and whether or not they belong to its operation, an instruction is packed unless it is a
branch to a label that is missing. Each operand keeps to its own field and the opcode is left alone. -/
theorem Instr.fields_never_leak (symbols : SymbolTable) (instr : Instr) :
    (∀ error, instr.encode symbols = .error error ↔ ∃ cond target, instr.operands = .branch cond target ∧
      symbols.get? target = none ∧ error = .undefinedLabel target) ∧
      (∀ word, instr.encode symbols = .ok word ↔ ∃ body, instr.operands.body? symbols = some body ∧ body < 4096 ∧
        word.toNat = 4096 * instr.op.opcode + body) ∧
      ∀ word, instr.encode symbols = .ok word → (Field.opcode.get word).toNat = instr.op.opcode := by
  refine ⟨fun error => encode_eq_error_iff, fun word => ⟨?_, ?_⟩, ?_⟩
  · intro encoded
    obtain ⟨body, found, value⟩ := encode_eq_ok_iff.mp encoded
    exact ⟨body, found, Operands.body?_lt found, value⟩
  · rintro ⟨body, found, _, value⟩
    exact encode_eq_ok_iff.mpr ⟨body, found, value⟩
  · intro word encoded
    have opcode := opcode_of_encode encoded
    have bound := instr.op.opcode_lt
    rw [Field.toNat_get]
    simp only [Field.opcode]
    omega

/-- A return packed with three registers, none of which exists, and a branch with the least immediate of all. -/
theorem Instr.fields_never_leak_mismatched :
    (Instr.encode SymbolTable.empty ⟨.ret, .triple 255 18 200⟩ = .ok 0xFF28#16 ∧
      (Field.opcode.get 0xFF28#16).toNat = Op.ret.opcode) ∧
      Instr.encode SymbolTable.empty ⟨.br, .regImm 16 (-9223372036854775808)⟩ = .ok 0x1000#16 ∧
        (Field.opcode.get 0x1000#16).toNat = Op.br.opcode := by
  obtain ⟨_, packs, opcode⟩ := fields_never_leak SymbolTable.empty ⟨.ret, .triple 255 18 200⟩
  obtain ⟨_, packs', opcode'⟩ := fields_never_leak SymbolTable.empty ⟨.br, .regImm 16 (-9223372036854775808)⟩
  have encoded := (packs 0xFF28#16).mpr ⟨0xF28, rfl, by decide, rfl⟩
  have encoded' := (packs' 0x1000#16).mpr ⟨0, rfl, by decide, rfl⟩
  exact ⟨⟨encoded, opcode _ encoded⟩, encoded', opcode' _ encoded'⟩

end SimtAsm
