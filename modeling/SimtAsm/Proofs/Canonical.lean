import SimtAsm.Proofs.Printing

namespace SimtAsm

open Source

/-- The bits that a layout leaves unused. -/
def Layout.reserved : Layout → Word
  | branch => 0x0100#16
  | srcPair => 0x0F00#16
  | dstSrc => 0x000F#16
  | bare => 0x0FFF#16
  | regImm | triple => 0#16

/-- A word with its reserved bits cleared, and zero in the place of a word that does not decode. -/
def Word.canonical (word : Word) : Word :=
  match decode word with
  | .ok d => word &&& ~~~d.op.layout.reserved
  | .error _ => 0#16

theorem Word.canonical_of_decode {word : Word} {d : Decoded} (decoded : decode word = .ok d) :
    word.canonical = word &&& ~~~d.op.layout.reserved := by
  rw [canonical, decoded]

theorem decode_eq_ok {word : Word} {d : Decoded} (decoded : decode word = .ok d) :
    d = Decoded.ofOp d.op word ∧ d.op.opcode = (Field.opcode.get word).toNat := by
  unfold decode at decoded
  split at decoded
  · rename_i op found
    cases decoded
    have sameOp : (Decoded.ofOp op word).op = op := by cases op <;> rfl
    rw [sameOp]
    exact ⟨rfl, Op.opcode_of_ofOpcode? found⟩
  · simp at decoded

/-- The fields of an operation lie outside the bits that its layout reserves. -/
theorem Decoded.ofOp_and_not_reserved (op : Op) (word : Word) :
    ofOp op (word &&& ~~~op.layout.reserved) = { ofOp op word with word := word &&& ~~~op.layout.reserved } := by
  unfold ofOp
  cases op.layout <;> simp (disch := decide) only [Layout.reserved, Field.get_and_not]

/-- A word and its canonical form have the same fields. -/
theorem Word.decode_canonical {word : Word} {d : Decoded} (decoded : decode word = .ok d) :
    decode word.canonical = .ok { d with word := word.canonical } := by
  obtain ⟨fields, opcode⟩ := decode_eq_ok decoded
  have outside : Field.opcode.get d.op.layout.reserved = 0#16 := by cases d.op.layout <;> decide
  have same := Decoded.ofOp_and_not_reserved d.op word
  rw [← fields] at same
  rw [canonical_of_decode decoded, decode, Field.get_and_not outside, ← opcode, Op.ofOpcode?_opcode]
  exact congrArg Except.ok same

theorem Field.toNat_get_lt (field : Field) (word : Word) : (field.get word).toNat < 2 ^ field.bits := by
  rw [toNat_get]
  exact Nat.mod_lt _ (Nat.two_pow_pos _)

theorem Immediate.toSigned_bounds (word : Word) :
    least ≤ word.toSigned Field.immediate.bits ∧ word.toSigned Field.immediate.bits ≤ greatest := by
  have lower := Int.le_bmod (x := (word.toNat : Int)) (by decide : 0 < 2 ^ Field.immediate.bits)
  have upper := Int.bmod_lt (x := (word.toNat : Int)) (by decide : 0 < 2 ^ Field.immediate.bits)
  rw [Word.toSigned_eq_bmod (by decide) (by decide)]
  simp only [Field.immediate, least_eq, greatest_eq] at *
  omega

theorem Decoded.inRange_of_decode {word : Word} {d : Decoded} (decoded : decode word = .ok d) : d.InRange := by
  have rd := Field.rd.toNat_get_lt word
  have rs := Field.rs.toNat_get_lt word
  have rt := Field.rt.toNat_get_lt word
  obtain ⟨lower, upper⟩ := Immediate.toSigned_bounds (Field.immediate.get word)
  have zero : 0 < Register.count := by decide
  obtain ⟨least, greatest⟩ : Immediate.least ≤ 0 ∧ 0 ≤ Immediate.greatest := by decide
  obtain ⟨same, _⟩ := decode_eq_ok decoded
  rw [same]
  unfold ofOp
  split
  · exact ⟨zero, zero, zero, least, greatest⟩
  · refine ⟨rd, zero, zero, ?_, ?_⟩
    · dsimp only
      exact lower
    · dsimp only
      exact upper
  · exact ⟨zero, rs, rt, least, greatest⟩
  · exact ⟨rd, rs, rt, least, greatest⟩
  · exact ⟨rd, rs, zero, least, greatest⟩
  · exact ⟨zero, zero, zero, least, greatest⟩

theorem Decoded.target_lt {word : Word} {d : Decoded} (decoded : decode word = .ok d) : d.target < 256 := by
  have target := Field.target.toNat_get_lt word
  obtain ⟨same, _⟩ := decode_eq_ok decoded
  rw [same]
  unfold ofOp
  split
  · exact target
  all_goals exact Nat.zero_lt_succ _

theorem Cond.bits_ofBits : ∀ n < 8, (ofBits n).bits = n := by decide

/-- The bits that a layout gives to operands. -/
def Layout.operandMask : Layout → Word
  | branch => Field.cond.mask ||| Field.target.mask
  | regImm => Field.rd.mask ||| Field.immediate.mask
  | srcPair => Field.rs.mask ||| Field.rt.mask
  | triple => Field.rd.mask ||| Field.rs.mask ||| Field.rt.mask
  | dstSrc => Field.rd.mask ||| Field.rs.mask
  | bare => 0#16

theorem Layout.not_reserved (layout : Layout) : ~~~layout.reserved = Field.opcode.mask ||| layout.operandMask := by
  cases layout <;> decide

theorem Field.put_cond_get (word : Word) :
    Field.cond.put (BitVec.ofNat 16 (Cond.ofBits (Field.cond.get word).toNat).bits) = word &&& Field.cond.mask := by
  rw [Cond.bits_ofBits _ (Field.cond.toNat_get_lt word), put_ofNat_get]

theorem Field.put_immediate_get (word : Word) :
    Word.ofSigned ((Field.immediate.get word).toSigned Field.immediate.bits) Field.immediate.bits =
      word &&& Field.immediate.mask := by
  rw [Word.ofSigned_toSigned (by decide) (by decide), ← put_get, put]
  exact (BitVec.shiftLeft_zero _).symm

theorem Decoded.encode_operands {symbols : SymbolTable} {word : Word} {d : Decoded} {target : Text}
    (decoded : decode word = .ok d) (found : d.NamesTarget symbols target) :
    (d.operands target).encode symbols = .ok (word &&& d.op.layout.operandMask) := by
  obtain ⟨same, _⟩ := decode_eq_ok decoded
  cases layout : d.op.layout with
  | branch =>
    obtain ⟨address, atTarget, low⟩ := found layout
    have sameCond : d.cond = Cond.ofBits (Field.cond.get word).toNat := by
      rw [same]
      simp only [ofOp, layout]
    have sameTarget : d.target = (Field.target.get word).toNat := by
      rw [same]
      simp only [ofOp, layout]
    have putTarget : Field.target.put (BitVec.ofNat 16 address) = word &&& Field.target.mask := by
      have cut := Field.put_ofNat_mod (by decide : Field.target.bits ≤ 16) address
      rw [← cut, ← Field.put_ofNat_get, ← sameTarget, low]
      rfl
    simp only [operands, layout, Operands.encode, atTarget, sameCond, Field.put_cond_get, putTarget,
      Layout.operandMask, BitVec.and_or_distrib_left]
  | regImm | srcPair | triple | dstSrc | bare =>
    rw [same]
    simp only [operands, ofOp, layout, Operands.encode, Field.put_ofNat_get, Field.put_immediate_get,
      Layout.operandMask, BitVec.and_or_distrib_left, BitVec.and_zero, BitVec.ofNat_eq_ofNat]

theorem Decoded.encode_eq_canonical {symbols : SymbolTable} {word : Word} {d : Decoded} {target : Text}
    (decoded : decode word = .ok d) (found : d.NamesTarget symbols target) :
    Instr.encode symbols ⟨d.op, d.operands target⟩ = .ok word.canonical := by
  obtain ⟨_, opcode⟩ := decode_eq_ok decoded
  rw [Word.canonical_of_decode decoded, Layout.not_reserved, BitVec.and_or_distrib_left, ← Field.put_ofNat_get,
    ← opcode, Instr.encode, encode_operands decoded found]
  rfl

/-- What assembles is canonical. -/
theorem Instr.canonical_of_encode {symbols : SymbolTable} {instr : Instr} {word : Word} (formed : instr.WellFormed)
    (encoded : instr.encode symbols = .ok word) : word.canonical = word := by
  obtain ⟨d, shown, decoded⟩ := Instr.decode_encode formed encoded
  obtain ⟨target, same, found⟩ := Instr.operands_of_fields? formed shown
  have again := Decoded.encode_eq_canonical decoded found
  rw [← same, Instr.op_of_fields? shown] at again
  exact Except.ok.inj (again.symm.trans encoded)

theorem Word.and_not_eq_self_iff (word bits : Word) : word &&& ~~~bits = word ↔ word &&& bits = 0#16 := by
  constructor
  · intro same
    rw [← same, BitVec.and_assoc, BitVec.not_and_self]
    exact BitVec.and_zero
  · intro clear
    calc word &&& ~~~bits = (word &&& ~~~bits) ||| (word &&& bits) := by rw [clear, BitVec.or_zero]
      _ = word &&& (~~~bits ||| bits) := BitVec.and_or_distrib_left.symm
      _ = word := by rw [BitVec.not_or_self, BitVec.and_allOnes]

/-- The canonical words are those that decode and have no reserved bit set. -/
theorem Word.canonical_eq_self_iff {word : Word} :
    word.canonical = word ↔ ∃ d, decode word = .ok d ∧ word &&& d.op.layout.reserved = 0#16 := by
  cases decoded : decode word with
  | ok d =>
    simp only [canonical_of_decode decoded, and_not_eq_self_iff, Except.ok.injEq, exists_eq_left']
  | error unknown =>
    -- Zero decodes, so it is not the word at hand.
    have zeroDecodes : decode 0#16 = .ok (Decoded.ofOp .nop 0#16) := rfl
    have differs : word.canonical ≠ word := by
      intro same
      simp only [canonical, decoded] at same
      subst same
      cases zeroDecodes.symm.trans decoded
    simp [differs]

end SimtAsm
