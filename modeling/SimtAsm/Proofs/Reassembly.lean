import Mathlib.Data.List.Nodup
import SimtAsm.Proofs.Canonical
import SimtAsm.Proofs.Disassembly
import SimtAsm.Proofs.LetterCase

namespace SimtAsm

open Std Numeral Source

namespace Disassembly

theorem upper_labelName (target : Nat) : (labelName target).upper = labelName target := by
  have digits : (decimal target).map Char.toUpper = decimal target := by
    have each : ∀ c ∈ decimal target, c.toUpper = c := fun c member =>
      Text.toUpper_of_isDigit (isDigit_of_mem_decimal member)
    simpa using List.map_congr_left each
  simp only [Text.upper, labelName, List.map_cons, digits]
  rfl

theorem key_labelName (target : Nat) : SymbolTable.key (labelName target) = labelName target := by
  have statement := (labelName_isPlainToken target).isStatement
  have trimmed := Text.trim_append (List.forall_mem_nil _) (List.forall_mem_nil _) statement.first statement.last
  rw [List.nil_append, List.append_nil] at trimmed
  rw [SymbolTable.key, trimmed, upper_labelName]

/-- The labels of a disassembled source are placed at the addresses they are named after. -/
theorem exists_placement (words : List Word) :
    ∃ placement, Placement.ofLines (Source.statements (disassemble words)) = .ok placement ∧
      placement.instructions = (slots words).map (statement (labels words)) ∧
      ∀ (name : Text) (address : Nat),
        placement.symbols.addresses[name]? = some address ↔ (labels words)[address]? = some name := by
  have named := named_labels words
  have declared := declarationsFrom_statementsFrom named 0 (slots words)
  rw [length_slots] at declared
  have distinct : ((Placement.declarationsFrom 0 (Source.statements (disassemble words))).map
      fun declaration => SymbolTable.key declaration.1).Nodup := by
    rw [statements_disassemble, declared]
    simp only [List.map_map, Function.comp_def, key_labelName]
    apply List.Nodup.map
    · intro a b same
      exact labelName_injective same
    · exact List.Nodup.filter _ List.nodup_range'
  obtain ⟨placement, placed⟩ := Placement.exists_ofLines_iff.mpr distinct
  obtain ⟨instructions, symbols⟩ := Placement.of_ofLines placed
  refine ⟨placement, placed, ?_, ?_⟩
  · rw [instructions, statements_disassemble, instructionLines_statementsFrom named]
  · intro name address
    rw [symbols, statements_disassemble, declared]
    simp only [List.mem_map, List.mem_filter, List.mem_range'_1, Prod.mk.injEq]
    constructor
    · rintro ⟨label, ⟨target, ⟨_, isLabel⟩, rfl, rfl⟩, rfl⟩
      obtain ⟨name, found⟩ := Option.isSome_iff_exists.mp isLabel
      rw [key_labelName, found, named target name found]
    · intro found
      have inTargets : address ∈ targets words := by
        rw [getElem?_labels] at found
        split at found
        · assumption
        · simp at found
      have bound := le_extent inTargets
      refine ⟨labelName address, ⟨address, ⟨⟨by omega, by omega⟩, by simp [found]⟩, rfl, rfl⟩, ?_⟩
      rw [key_labelName, named address name found]

/-- The word that the line of a slot assembles to. -/
def slotWord : Option Word → Word
  | some word => word.canonical
  | none => 0#16

/-- Every line of a disassembled source assembles, as long as each label stands for the address it names. -/
theorem encodeLine_statement {words : List Word} {symbols : SymbolTable}
    (bound : ∀ (name : Text) (address : Nat),
      symbols.addresses[name]? = some address ↔ (labels words)[address]? = some name)
    {slot : Option Word} (member : slot ∈ slots words) :
    encodeLine symbols (statement (labels words) slot) = .ok (slotWord slot) := by
  have nop : encodeLine symbols "NOP" = .ok 0#16 := rfl
  cases slot with
  | none => exact nop
  | some word =>
    cases decoded : decode word with
    | error error =>
      simp only [statement, slotWord, Word.canonical, decoded]
      exact nop
    | ok d =>
      simp only [statement, slotWord, decoded]
      have inRange := Decoded.inRange_of_decode decoded
      have plain := targetName_isPlainToken (named_labels words) d.target
      rw [inRange.encodeLine_text rfl fun _ => plain.isToken]
      apply Decoded.encode_eq_canonical decoded
      intro layout
      have inWords : word ∈ words := by simpa [slots] using member
      have inTargets : d.target ∈ targets words :=
        mem_targets.mpr ⟨word, inWords, d, decoded, Op.layout_eq_branch_iff.mp layout, rfl⟩
      have found : (labels words)[d.target]? = some (labelName d.target) := by
        rw [getElem?_labels, if_pos inTargets]
      refine ⟨d.target, ?_, ?_⟩
      · rw [found, Option.getD_some, upper_labelName, SymbolTable.get?, key_labelName]
        exact (bound _ _).mpr found
      · have small := Decoded.target_lt decoded
        omega

theorem map_slotWord_slots (words : List Word) :
    (slots words).map slotWord =
      words.map Word.canonical ++ List.replicate (extent words - words.length) 0#16 := by
  simp only [slots, List.map_append, List.map_map, List.map_replicate]
  rfl

theorem exists_reassembled (words : List Word) :
    ∃ program, assemble (disassemble words) = .ok program ∧
      program.words = .ok (words.map Word.canonical ++ List.replicate (extent words - words.length) 0#16) ∧
      ∀ (name : Text) (address : Nat),
        program.symbols.addresses[name]? = some address ↔ (labels words)[address]? = some name := by
  obtain ⟨placement, placed, instructions, bound⟩ := exists_placement words
  refine ⟨Program.ofPlacement placement, ?_, ?_, bound⟩
  · rw [assemble, placed]
    rfl
  · rw [Program.words_eq_ok_iff, instructions, ← map_slotWord_slots, List.map_map, List.map_map]
    exact List.map_congr_left fun slot member => encodeLine_statement bound member

theorem prefix_map_canonical_iff {words rest : List Word} :
    words <+: words.map Word.canonical ++ rest ↔ ∀ word ∈ words, word.canonical = word := by
  constructor
  · intro isPrefix
    have canonical := List.prefix_append (words.map Word.canonical) rest
    have same := (List.prefix_of_prefix_length_le isPrefix canonical (by simp)).eq_of_length (by simp)
    exact List.map_inj_left.mp (same.symm.trans (List.map_id _).symm)
  · intro each
    have same : words.map Word.canonical = words := (List.map_congr_left each).trans (List.map_id _)
    rw [same]
    exact List.prefix_append words rest

theorem getElem?_map_canonical {words rest : List Word} {i : Nat} {word : Word} (found : words[i]? = some word) :
    (words.map Word.canonical ++ rest)[i]? = some word.canonical := by
  obtain ⟨inside, _⟩ := List.getElem?_eq_some_iff.mp found
  rw [List.getElem?_append_left (by simpa using inside), List.getElem?_map, found]
  rfl

end Disassembly

open Disassembly

/-- A disassembled list of words assembles without an error. Its labels are the branch targets, each named after
its address. Its words are the canonical forms of the given ones, followed by zeros up to the furthest branch
target, so that the given words are a prefix just when all of them are canonical. -/
theorem assemble_disassemble (words : List Word) :
    ∃ program padding, assemble (disassemble words) = .ok program ∧ program.diagnostics = [] ∧
      (∀ name address, (name, address) ∈ program.symbols.toList ↔
        name = 'L' :: decimal address ∧
          ∃ word ∈ words, ∃ d, decode word = .ok d ∧ d.op = .br ∧ d.target = address) ∧
      (∀ name address, (name, address) ∈ program.symbols.toList ↔ (address, name) ∈ (labels words).toList) ∧
      program.words = .ok (words.map Word.canonical ++ List.replicate padding 0#16) ∧
      words.length + padding = max words.length ((words.filterMap branchTarget?).max?.getD 0) ∧
      (words <+: words.map Word.canonical ++ List.replicate padding 0#16 ↔
        ∀ word ∈ words, ∃ d, decode word = .ok d ∧ word &&& d.op.layout.reserved = 0#16) := by
  obtain ⟨program, assembled, sameWords, symbols⟩ := exists_reassembled words
  refine ⟨program, extent words - words.length, assembled, ?_, ?_, ?_, sameWords, ?_, ?_⟩
  · exact Program.diagnostics_eq_nil_iff.mpr ⟨_, sameWords⟩
  · intro name address
    rw [SymbolTable.mem_toList, symbols, getElem?_labels, ← mem_targets]
    split <;> rename_i isTarget
    · simp [isTarget, labelName, eq_comm]
    · simp [isTarget]
  · intro name address
    rw [SymbolTable.mem_toList, symbols, ExtTreeMap.mem_toList_iff_getElem?_eq_some]
  · have length := extent_eq words
    rw [targets] at length
    omega
  · rw [prefix_map_canonical_iff]
    exact forall_congr' fun word => imp_congr_right fun _ => Word.canonical_eq_self_iff

theorem encodeLine_eq_ok {symbols : SymbolTable} {line : Text} {word : Word}
    (encoded : encodeLine symbols line = .ok word) :
    ∃ instr : Instr, instr.WellFormed ∧ instr.encode symbols = .ok word := by
  obtain ⟨instr, read, encoded⟩ := bind_eq_ok.mp encoded
  exact ⟨instr, Instr.wellFormed_of_ofTokens read, encoded⟩

/-- The target of an assembled branch is the low part of the address of a label. -/
theorem Instr.target_of_encode {symbols : SymbolTable} {instr : Instr} {word : Word} {d : Decoded}
    (formed : instr.WellFormed) (encoded : instr.encode symbols = .ok word) (decoded : decode word = .ok d)
    (branch : d.op = .br) : ∃ label address, symbols.get? label = some address ∧ d.target = address % 256 := by
  obtain ⟨d', shown, decoded'⟩ := Instr.decode_encode formed encoded
  cases decoded.symm.trans decoded'
  obtain ⟨target, _, found⟩ := Instr.operands_of_fields? formed shown
  exact ⟨target, found (Op.layout_eq_branch_iff.mpr branch)⟩

/-- Assembled words are canonical, and no branch among them leads beyond their end. -/
theorem words_of_assemble {source : Text} {program : Program} {words : List Word}
    (assembled : assemble source = .ok program) (sameWords : program.words = .ok words) :
    (∀ word ∈ words, word.canonical = word) ∧ ∀ target ∈ targets words, target ≤ words.length := by
  obtain ⟨placement, placed, rfl⟩ := assemble_eq_ok_iff.mp assembled
  have encoded := Program.words_eq_ok_iff.mp sameWords
  have length : placement.count = words.length := by
    simpa [Placement.count] using congrArg List.length encoded
  have origin : ∀ word ∈ words, ∃ instr : Instr, instr.WellFormed ∧ instr.encode placement.symbols = .ok word := by
    intro word member
    have inOutcomes : Except.ok word ∈ placement.instructions.map (encodeLine placement.symbols) := by
      rw [encoded]
      exact List.mem_map_of_mem member
    obtain ⟨line, _, atLine⟩ := List.mem_map.mp inOutcomes
    exact encodeLine_eq_ok atLine
  constructor
  · intro word member
    obtain ⟨instr, formed, encodes⟩ := origin word member
    exact Instr.canonical_of_encode formed encodes
  · intro target member
    obtain ⟨word, inWords, d, decoded, branch, rfl⟩ := mem_targets.mp member
    obtain ⟨instr, formed, encodes⟩ := origin word inWords
    obtain ⟨label, address, found, low⟩ := Instr.target_of_encode formed encodes decoded branch
    have bound := Placement.address_le_count placed found
    have wrapped := Nat.mod_le address 256
    omega

/-- Words that come from a source without errors survive the way through their own disassembly, whatever the
length of the program. -/
theorem reassemble_assembled {source : Text} {program : Program} (assembled : assemble source = .ok program)
    (clean : program.diagnostics = []) :
    ∃ words again, program.words = .ok words ∧ assemble (disassemble words) = .ok again ∧
      again.diagnostics = [] ∧ again.words = .ok words := by
  obtain ⟨words, sameWords⟩ := Program.diagnostics_eq_nil_iff.mp clean
  obtain ⟨canonical, within⟩ := words_of_assemble assembled sameWords
  obtain ⟨again, reassembled, wordsAgain, _⟩ := exists_reassembled words
  have same : words.map Word.canonical = words := (List.map_congr_left canonical).trans (List.map_id _)
  rw [same, extent_eq_length within, Nat.sub_self, List.replicate_zero, List.append_nil] at wordsAgain
  exact ⟨words, again, sameWords, reassembled, Program.diagnostics_eq_nil_iff.mpr ⟨_, wordsAgain⟩, wordsAgain⟩

/-- A loop with a backward branch and a label behind the last instruction. -/
theorem reassemble_assembled_loop :
    ∃ program again, assemble "TOP:\nCONST R1, #-7\nBRnp top ; again\nBRz Done\nDONE:" = .ok program ∧
      program.diagnostics = [] ∧ program.words = .ok [0x91F9#16, 0x1A00#16, 0x1403#16] ∧
      assemble (disassemble [0x91F9#16, 0x1A00#16, 0x1403#16]) = .ok again ∧
      again.words = .ok [0x91F9#16, 0x1A00#16, 0x1403#16] := by
  have assembled : assemble "TOP:\nCONST R1, #-7\nBRnp top ; again\nBRz Done\nDONE:" = .ok (.ofPlacement
      ⟨⟨((∅ : ExtTreeMap Text Nat).insert "TOP" 0).insert "DONE" 3⟩, ["CONST R1, #-7", "BRnp top", "BRz Done"]⟩) := by
    rfl
  obtain ⟨words, again, sameWords, reassembled, _, wordsAgain⟩ := reassemble_assembled assembled rfl
  obtain rfl : [0x91F9#16, 0x1A00#16, 0x1403#16] = words := Except.ok.inj sameWords
  exact ⟨_, again, assembled, rfl, sameWords, reassembled, wordsAgain⟩

/-- Word by word, the way through a disassembly keeps all but the reserved bits. A word that decodes comes back with
these bits cleared, and so as itself just when none of them is set. One that does not decode comes back as zero, and
nothing but zeros stands behind the last word. -/
theorem reassembled_word_by_word (words : List Word) :
    ∃ program again, assemble (disassemble words) = .ok program ∧ program.words = .ok again ∧
      words.length ≤ again.length ∧
      (∀ (i : Nat) (word : Word) (d : Decoded), words[i]? = some word → decode word = .ok d →
        again[i]? = some (word &&& ~~~d.op.layout.reserved) ∧
          (again[i]? = some word ↔ word &&& d.op.layout.reserved = 0#16)) ∧
      (∀ (i : Nat) (word : Word) (unknown : UnknownOpcode), words[i]? = some word → decode word = .error unknown →
        again[i]? = some 0#16) ∧
      ∀ i, words.length ≤ i → i < again.length → again[i]? = some 0#16 := by
  obtain ⟨program, assembled, sameWords, _⟩ := exists_reassembled words
  refine ⟨program, _, assembled, sameWords, by simp, ?_, ?_, ?_⟩
  · intro i word d found decoded
    rw [getElem?_map_canonical found, Word.canonical_of_decode decoded]
    refine ⟨rfl, ?_⟩
    rw [Option.some_inj, Word.and_not_eq_self_iff]
  · intro i word unknown found undecoded
    rw [getElem?_map_canonical found, Word.canonical, undecoded]
  · intro i behind inside
    rw [List.length_append, List.length_map, List.length_replicate] at inside
    rw [List.getElem?_append_right (by simpa using behind), List.length_map, List.getElem?_replicate,
      if_pos (by omega)]

/-- A decodable word need not come back as itself: a return with a reserved bit set loses that bit. -/
theorem reserved_bit_lost :
    ¬∀ words : List Word, ∃ program again, assemble (disassemble words) = .ok program ∧ program.words = .ok again ∧
      (∀ (i : Nat) (word : Word) (d : Decoded), words[i]? = some word → decode word = .ok d →
        again[i]? = some word) ∧
      (∀ (i : Nat) (word : Word) (unknown : UnknownOpcode), words[i]? = some word → decode word = .error unknown →
        again[i]? = some 0#16) ∧
      ∀ i, words.length ≤ i → i < again.length → again[i]? = some 0#16 := by
  intro law
  obtain ⟨program, again, assembled, sameWords, kept, _⟩ := law [0xF001#16]
  obtain ⟨program', assembled', cleared, _⟩ := exists_reassembled [0xF001#16]
  cases assembled.symm.trans assembled'
  obtain rfl : [0xF000#16] = again := Except.ok.inj (cleared.symm.trans sameWords)
  have same := kept 0 0xF001#16 _ rfl rfl
  exact absurd same (by decide)

end SimtAsm
