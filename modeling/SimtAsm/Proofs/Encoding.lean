import SimtAsm.Assembly.Instr
import SimtAsm.Isa.Decode
import SimtAsm.Proofs.Fields

namespace SimtAsm

open Std

theorem bind_eq_error {ε α β : Type} {first : Except ε α} {next : α → Except ε β} {error : ε} :
    (first >>= next) = .error error ↔
      first = .error error ∨ ∃ value, first = .ok value ∧ next value = .error error := by
  cases first <;> simp [bind, Except.bind]

namespace Operands

def layout : Operands → Layout
  | branch .. => .branch
  | regImm .. => .regImm
  | srcPair .. => .srcPair
  | triple .. => .triple
  | dstSrc .. => .dstSrc
  | bare => .bare

/-- Every number is one that its field can hold. -/
def Fits : Operands → Prop
  | branch .. | bare => True
  | regImm rd imm => rd < Register.count ∧ Immediate.least ≤ imm ∧ imm ≤ Immediate.greatest
  | srcPair rs rt => rs < Register.count ∧ rt < Register.count
  | triple rd rs rt => rd < Register.count ∧ rs < Register.count ∧ rt < Register.count
  | dstSrc rd rs => rd < Register.count ∧ rs < Register.count

/-- The same operands, where a branch label counts for the low eight bits of its address only. -/
def Agree (symbols : SymbolTable) : Operands → Operands → Prop
  | branch cond target, branch cond' target' =>
    cond = cond' ∧ ∃ address address', symbols.get? target = some address ∧
      symbols.get? target' = some address' ∧ address % 256 = address' % 256
  | operands, operands' => operands = operands'

end Operands

/-- Operands of the operation's own layout, within the bounds of their fields. -/
structure Instr.WellFormed (instr : Instr) : Prop where
  layout : instr.operands.layout = instr.op.layout
  fits : instr.operands.Fits

/-- The fields that `word` has to show for an instruction: its operation and operands, a branch label as the
low eight bits of its address, and zero wherever the instruction has no operand. -/
def Instr.fields? (symbols : SymbolTable) (word : Word) (instr : Instr) : Option Decoded :=
  match instr.operands with
  | .branch cond target =>
    (symbols.get? target).map fun address => { word, op := instr.op, cond, target := address % 256 }
  | .regImm rd imm => some { word, op := instr.op, rd, imm }
  | .srcPair rs rt => some { word, op := instr.op, rs, rt }
  | .triple rd rs rt => some { word, op := instr.op, rd, rs, rt }
  | .dstSrc rd rs => some { word, op := instr.op, rd, rs }
  | .bare => some { word, op := instr.op }

theorem Register.ofDigits?_lt {digits : Text} {register : Nat} (found : ofDigits? digits = some register) :
    register < count := by
  unfold ofDigits? at found
  split at found
  · simp at found
  · split at found
    · split at found
      · cases found
        assumption
      · simp at found
    · simp at found

theorem Register.ofToken?_lt {token : Text} {register : Nat} (found : ofToken? token = some register) :
    register < count := by
  have namedBelow : ∀ entry ∈ named, entry.2 < count := by decide
  unfold ofToken? at found
  split at found
  · rename_i entry atEntry
    cases found
    exact namedBelow entry (List.mem_of_find?_eq_some atEntry)
  · unfold numbered? at found
    split at found
    · exact ofDigits?_lt found
    · exact ofDigits?_lt found
    · simp at found

theorem readRegister_lt {token : Text} {register : Nat} (read : readRegister token = .ok register) :
    register < Register.count := by
  unfold readRegister at read
  split at read
  · rename_i found
    cases read
    exact Register.ofToken?_lt found
  · simp at read

theorem readImmediate_bounds {token : Text} {value : Int} (read : readImmediate token = .ok value) :
    Immediate.least ≤ value ∧ value ≤ Immediate.greatest := by
  unfold readImmediate at read
  split at read
  · split at read
    · split at read
      · cases read
        assumption
      · simp at read
    · simp at read
    · simp at read
  · simp at read

theorem readOperands?_spec {cond : Cond} {layout : Layout} {tokens : List Text} {operands : Operands}
    (read : readOperands? cond layout tokens = some (.ok operands)) :
    operands.layout = layout ∧ operands.Fits := by
  unfold readOperands? at read
  split at read <;> simp only [Option.some.injEq, reduceCtorEq, bind_eq_ok, pure, Except.pure, Except.ok.injEq] at read
  · subst read
    exact ⟨rfl, trivial⟩
  · obtain ⟨rd, readRd, imm, readImm, rfl⟩ := read
    exact ⟨rfl, readRegister_lt readRd, readImmediate_bounds readImm⟩
  · obtain ⟨rs, readRs, rt, readRt, rfl⟩ := read
    exact ⟨rfl, readRegister_lt readRs, readRegister_lt readRt⟩
  · obtain ⟨rd, readRd, rs, readRs, rt, readRt, rfl⟩ := read
    exact ⟨rfl, readRegister_lt readRd, readRegister_lt readRs, readRegister_lt readRt⟩
  · obtain ⟨rd, readRd, rs, readRs, rfl⟩ := read
    exact ⟨rfl, readRegister_lt readRd, readRegister_lt readRs⟩
  · subst read
    exact ⟨rfl, trivial⟩

theorem Instr.wellFormed_of_ofTokens {tokens : List Text} {instr : Instr} (read : ofTokens tokens = .ok instr) :
    instr.WellFormed := by
  cases tokens with
  | nil => simp [ofTokens] at read
  | cons mnemonic tokens =>
    simp only [ofTokens, bind_eq_ok] at read
    obtain ⟨⟨op, cond⟩, _, read⟩ := read
    split at read
    · rename_i result readResult
      obtain ⟨operands, rfl, same⟩ := bind_eq_ok.mp read
      cases same
      obtain ⟨layout, fits⟩ := readOperands?_spec readResult
      exact ⟨layout, fits⟩
    · simp at read

/-- No operand reaches into the opcode. -/
theorem Operands.opcode_get_encode {symbols : SymbolTable} {operands : Operands} {body : Word}
    (encoded : operands.encode symbols = .ok body) : Field.opcode.get body = 0#16 := by
  cases operands with
  | branch cond target =>
    simp only [encode] at encoded
    split at encoded
    · cases encoded
      simp (disch := decide) only [Field.get_or, Field.get_put_of_apart, BitVec.or_self]
    · simp at encoded
  | regImm rd imm =>
    cases encoded
    simp (disch := decide) only [Word.ofSigned_immediate, Field.get_or, Field.get_put_of_apart, BitVec.or_self]
  | srcPair rs rt | triple rd rs rt | dstSrc rd rs =>
    cases encoded
    simp (disch := decide) only [Field.get_or, Field.get_put_of_apart, BitVec.or_self]
  | bare =>
    cases encoded
    rfl

theorem decode_opcode_put_or (op : Op) {body : Word} (below : Field.opcode.get body = 0#16) :
    decode (Field.opcode.put (BitVec.ofNat 16 op.opcode) ||| body) =
      .ok (Decoded.ofOp op (Field.opcode.put (BitVec.ofNat 16 op.opcode) ||| body)) := by
  have code : (Field.opcode.get (Field.opcode.put (BitVec.ofNat 16 op.opcode) ||| body)).toNat = op.opcode := by
    have bound := op.opcode_lt
    rw [Field.get_or, below, Field.get_put_self (by decide), BitVec.or_zero, Word.toNat_low, BitVec.toNat_ofNat]
    simp only [Field.opcode]
    omega
  rw [decode, code, Op.ofOpcode?_opcode]

theorem Register.toNat_low {register : Nat} (bound : register < count) :
    (Word.low (BitVec.ofNat 16 register) 4).toNat = register := by
  simp only [count] at bound
  rw [Word.toNat_low, BitVec.toNat_ofNat]
  omega

theorem Field.toNat_low_target (address : Nat) :
    (Word.low (BitVec.ofNat 16 address) Field.target.bits).toNat = address % 256 := by
  simp only [Word.toNat_low, BitVec.toNat_ofNat, Field.target]
  omega

theorem Cond.ofBits_low (cond : Cond) : ofBits (Word.low (BitVec.ofNat 16 cond.bits) 3).toNat = cond := by
  have bound := cond.bits_lt
  have same : (Word.low (BitVec.ofNat 16 cond.bits) 3).toNat = cond.bits := by
    rw [Word.toNat_low, BitVec.toNat_ofNat]
    omega
  rw [same, ofBits_bits]

theorem Immediate.toSigned_low {value : Int} (lower : least ≤ value) (upper : value ≤ greatest) :
    (Word.low (BitVec.ofInt 16 value) 8).toSigned 8 = value := by
  rw [least_eq] at lower
  rw [greatest_eq] at upper
  have back := Word.toSigned_ofSigned (by decide : 0 < 8) (by decide) value
  rw [Word.ofSigned] at back
  rw [back]
  exact Int.bmod_eq_of_le (by omega) (by omega)

/-- The word of a well-formed instruction shows its fields and nothing else. -/
theorem Instr.decode_encode {symbols : SymbolTable} {instr : Instr} {word : Word} (formed : instr.WellFormed)
    (encoded : instr.encode symbols = .ok word) :
    ∃ d, instr.fields? symbols word = some d ∧ decode word = .ok d := by
  obtain ⟨op, operands⟩ := instr
  obtain ⟨layout, fits⟩ := formed
  obtain ⟨body, atBody, same⟩ := bind_eq_ok.mp encoded
  cases same
  have decoded := decode_opcode_put_or op (Operands.opcode_get_encode atBody)
  refine ⟨_, ?_, decoded⟩
  cases operands with
  | branch cond target =>
    simp only [Operands.encode] at atBody
    split at atBody
    · rename_i address found
      cases atBody
      simp (disch := decide) only [fields?, found, Option.map_some, Decoded.ofOp, ← layout, Operands.layout,
        Field.get_or, Field.get_put_self, Field.get_put_of_apart, BitVec.zero_or, BitVec.or_zero]
      simp only [Field.toNat_low_target, Field.cond, Cond.ofBits_low]
    · simp at atBody
  | regImm rd imm =>
    cases atBody
    obtain ⟨rdBound, lower, upper⟩ := fits
    simp (disch := decide) only [fields?, Decoded.ofOp, ← layout, Operands.layout, Word.ofSigned_immediate,
      Field.get_or, Field.get_put_self, Field.get_put_of_apart, BitVec.zero_or, BitVec.or_zero]
    simp only [Field.rd, Field.immediate, Register.toNat_low rdBound, Immediate.toSigned_low lower upper]
  | srcPair rs rt =>
    cases atBody
    obtain ⟨rsBound, rtBound⟩ := fits
    simp (disch := decide) only [fields?, Decoded.ofOp, ← layout, Operands.layout,
      Field.get_or, Field.get_put_self, Field.get_put_of_apart, BitVec.zero_or, BitVec.or_zero]
    simp only [Field.rs, Field.rt, Register.toNat_low rsBound, Register.toNat_low rtBound]
  | triple rd rs rt =>
    cases atBody
    obtain ⟨rdBound, rsBound, rtBound⟩ := fits
    simp (disch := decide) only [fields?, Decoded.ofOp, ← layout, Operands.layout,
      Field.get_or, Field.get_put_self, Field.get_put_of_apart, BitVec.zero_or, BitVec.or_zero]
    simp only [Field.rd, Field.rs, Field.rt, Register.toNat_low rdBound, Register.toNat_low rsBound,
      Register.toNat_low rtBound]
  | dstSrc rd rs =>
    cases atBody
    obtain ⟨rdBound, rsBound⟩ := fits
    simp (disch := decide) only [fields?, Decoded.ofOp, ← layout, Operands.layout,
      Field.get_or, Field.get_put_self, Field.get_put_of_apart, BitVec.zero_or, BitVec.or_zero]
    simp only [Field.rd, Field.rs, Register.toNat_low rdBound, Register.toNat_low rsBound]
  | bare =>
    simp only [fields?, Decoded.ofOp, ← layout, Operands.layout]

/-- The operands in a decoded word, with a name for its branch target. -/
def Decoded.operands (d : Decoded) (target : Text) : Operands :=
  match d.op.layout with
  | .branch => .branch d.cond target
  | .regImm => .regImm d.rd d.imm
  | .srcPair => .srcPair d.rs d.rt
  | .triple => .triple d.rd d.rs d.rt
  | .dstSrc => .dstSrc d.rd d.rs
  | .bare => .bare

/-- A name that the table has at the branch target of a decoded word, up to the bits that a word cannot hold. -/
def Decoded.NamesTarget (symbols : SymbolTable) (d : Decoded) (target : Text) : Prop :=
  d.op.layout = .branch → ∃ address, symbols.get? target = some address ∧ d.target = address % 256

theorem Instr.op_of_fields? {symbols : SymbolTable} {instr : Instr} {word : Word} {d : Decoded}
    (shown : instr.fields? symbols word = some d) : d.op = instr.op := by
  unfold fields? at shown
  split at shown
  · obtain ⟨address, _, rfl⟩ := Option.map_eq_some_iff.mp shown
    rfl
  all_goals
    cases shown
    rfl

theorem Instr.operands_of_fields? {symbols : SymbolTable} {instr : Instr} {word : Word} {d : Decoded}
    (formed : instr.WellFormed) (shown : instr.fields? symbols word = some d) :
    ∃ target, instr.operands = d.operands target ∧ d.NamesTarget symbols target := by
  obtain ⟨op, operands⟩ := instr
  have layout := formed.layout
  have sameOp := op_of_fields? shown
  simp only at layout sameOp
  cases operands with
  | branch cond target =>
    obtain ⟨address, found, rfl⟩ := Option.map_eq_some_iff.mp shown
    refine ⟨target, ?_, fun _ => ⟨address, found, rfl⟩⟩
    simp only [Decoded.operands, ← layout, Operands.layout]
  | regImm | srcPair | triple | dstSrc | bare =>
    cases shown
    -- There is no target to name, so any text will do.
    refine ⟨[], ?_, ?_⟩
    · simp only [Decoded.operands, ← layout, Operands.layout]
    · simp [Decoded.NamesTarget, ← layout, Operands.layout]

theorem Decoded.agree_operands {symbols : SymbolTable} {d : Decoded} {target target' : Text}
    (found : d.NamesTarget symbols target) (found' : d.NamesTarget symbols target') :
    (d.operands target).Agree symbols (d.operands target') := by
  cases layout : d.op.layout with
  | branch =>
    obtain ⟨address, atTarget, low⟩ := found layout
    obtain ⟨address', atTarget', low'⟩ := found' layout
    simp only [operands, layout]
    exact ⟨rfl, address, address', atTarget, atTarget', low.symm.trans low'⟩
  | regImm | srcPair | triple | dstSrc | bare =>
    simp only [operands, layout]
    rfl

/-- The word of an accepted line decodes to the fields of its instruction, and two accepted lines with the same
word have the same operation and the same operands, branch labels taken by the low eight bits of their
addresses. -/
theorem decode_of_accepted {symbols : SymbolTable} {line : Text} {instr : Instr} {word : Word}
    (read : Instr.ofTokens (Source.tokens line) = .ok instr) (encoded : instr.encode symbols = .ok word) :
    (∃ d, instr.fields? symbols word = some d ∧ decode word = .ok d) ∧
      ∀ line' instr', Instr.ofTokens (Source.tokens line') = .ok instr' → instr'.encode symbols = .ok word →
        instr'.op = instr.op ∧ instr'.operands.Agree symbols instr.operands := by
  have formed := Instr.wellFormed_of_ofTokens read
  obtain ⟨d, shown, decoded⟩ := Instr.decode_encode formed encoded
  refine ⟨⟨d, shown, decoded⟩, ?_⟩
  intro line' instr' read' encoded'
  -- Both instructions show the same decoded word, and it determines all but the name of a target.
  have formed' := Instr.wellFormed_of_ofTokens read'
  obtain ⟨d', shown', decoded'⟩ := Instr.decode_encode formed' encoded'
  cases decoded.symm.trans decoded'
  obtain ⟨target, same, found⟩ := Instr.operands_of_fields? formed shown
  obtain ⟨target', same', found'⟩ := Instr.operands_of_fields? formed' shown'
  refine ⟨(Instr.op_of_fields? shown').symm.trans (Instr.op_of_fields? shown), ?_⟩
  rw [same, same']
  exact Decoded.agree_operands found' found

/-- The target of a branch keeps the low eight bits of a far address. -/
theorem decode_of_accepted_far_branch :
    Instr.ofTokens (Source.tokens "brNz loop") = .ok ⟨.br, .branch ⟨true, true, false⟩ "LOOP"⟩ ∧
      Instr.encode ⟨(∅ : ExtTreeMap Text Nat).insert "LOOP" 300⟩ ⟨.br, .branch ⟨true, true, false⟩ "LOOP"⟩ =
        .ok 0x1C2C#16 ∧
      decode 0x1C2C#16 = .ok { word := 0x1C2C#16, op := .br, cond := ⟨true, true, false⟩, target := 44 } := by
  have read : Instr.ofTokens (Source.tokens "brNz loop") = .ok ⟨.br, .branch ⟨true, true, false⟩ "LOOP"⟩ := rfl
  have encoded : Instr.encode ⟨(∅ : ExtTreeMap Text Nat).insert "LOOP" 300⟩
      ⟨.br, .branch ⟨true, true, false⟩ "LOOP"⟩ = .ok 0x1C2C#16 := rfl
  obtain ⟨⟨d, shown, decoded⟩, -⟩ := decode_of_accepted read encoded
  cases shown
  exact ⟨read, encoded, decoded⟩

end SimtAsm
