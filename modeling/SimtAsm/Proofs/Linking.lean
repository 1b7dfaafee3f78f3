import SimtAsm.Proofs.Faults
import SimtAsm.Proofs.Labels

namespace SimtAsm

open Source

/-- The condition behind the two first letters of a statement. -/
def branchCond (statement : Text) : Cond := Cond.ofLetters (((tokens statement).headD []).drop 2)

/-- A branch word with `offset` added to its low byte, modulo 256. Any other word stays. -/
def Word.moveTarget (offset : Nat) (word : Word) : Word :=
  if word.toNat / 4096 = Op.br.opcode then BitVec.ofNat 16 (word.toNat / 256 * 256 + (word.toNat % 256 + offset) % 256)
  else word

namespace Entry

/-- The entry `offset` addresses further on, with its own labels moved along. -/
def move (offset : Nat) (entry : Entry) : Entry :=
  { entry with address := entry.address + offset, outcome := entry.outcome.map (Word.moveTarget offset) }

/-- The entry with an address for the label that it lacked. -/
def link (address? : Text → Option Nat) (entry : Entry) : Entry :=
  match entry.outcome with
  | .error (.undefinedLabel label) =>
    match address? label with
    | some address => { entry with outcome := .ok (branchWord (branchCond entry.text) address) }
    | none => entry
  | _ => entry

end Entry

theorem Word.moveTarget_branchWord (offset : Nat) (cond : Cond) (address : Nat) :
    Word.moveTarget offset (branchWord cond address) = branchWord cond (address + offset) := by
  have bits := cond.bits_lt
  have number := toNat_branchWord cond address
  have opcode : Op.br.opcode = 1 := rfl
  apply BitVec.eq_of_toNat_eq
  rw [moveTarget, if_pos (by omega), BitVec.toNat_ofNat, number, toNat_branchWord]
  omega

theorem Word.moveTarget_zero (word : Word) : Word.moveTarget 0 word = word := by
  have bound := word.isLt
  unfold moveTarget
  split
  · apply BitVec.eq_of_toNat_eq
    rw [BitVec.toNat_ofNat]
    omega
  · rfl

/-- Labels are looked up only when an instruction is encoded. -/
theorem Instr.ofTokens_ne_undefinedLabel {label : Text} (tokens : List Text) :
    ofTokens tokens ≠ .error (.undefinedLabel label) := by
  intro failed
  cases ofTokens_eq_error_iff.mp failed with
  | operand _ _ first =>
    obtain ⟨token, _, shown⟩ := first.error_cases
    simp at shown

theorem Cond.ofLetters_upper (letters : Text) : ofLetters letters.upper = ofLetters letters := by
  simp only [ofLetters, Text.upper, List.any_map, Function.comp_def, Text.toUpper_toUpper]

/-- The operands of a branch come from its mnemonic and from the label behind it. -/
theorem branchCond_of_ofTokens {statement label : Text} {op : Op} {cond : Cond}
    (read : Instr.ofTokens (tokens statement) = .ok ⟨op, .branch cond label⟩) :
    op = .br ∧ branchCond statement = cond := by
  have layout := (Instr.wellFormed_of_ofTokens read).layout
  rw [branchCond]
  cases parts : tokens statement with
  | nil => simp [parts, Instr.ofTokens] at read
  | cons mnemonic rest =>
    rw [parts] at read
    obtain ⟨found, readOp, _, _, _, rfl, _⟩ := Instr.ofTokens_cons_eq_ok_iff.mp read
    obtain ⟨branch, letters, same, rfl⟩ := upper_of_readMnemonic_branch readOp layout.symm
    refine ⟨branch, ?_⟩
    have behind : (mnemonic.drop 2).map Char.toUpper = letters := by
      rw [List.map_drop]
      exact congrArg (List.drop 2) same
    rw [List.headD_cons, ← Cond.ofLetters_upper, Text.upper, behind]

/-- A statement is a branch, or it gives the same whatever the labels are. -/
theorem encodeLine_cases (statement : Text) :
    (∃ label, Instr.ofTokens (tokens statement) = .ok ⟨.br, .branch (branchCond statement) label⟩ ∧
      ∀ symbols, encodeLine symbols statement =
        match symbols.get? label with
        | some address => .ok (branchWord (branchCond statement) address)
        | none => .error (.undefinedLabel label)) ∨
    ∃ outcome, (∀ symbols, encodeLine symbols statement = outcome) ∧
      (∀ label, outcome ≠ .error (.undefinedLabel label)) ∧
      ∀ word, outcome = .ok word → word.toNat / 4096 ≠ Op.br.opcode := by
  cases read : Instr.ofTokens (tokens statement) with
  | error error =>
    refine Or.inr ⟨.error error, ?_, ?_, ?_⟩
    · intro symbols
      rw [encodeLine, read]
      rfl
    · intro label same
      cases same
      exact Instr.ofTokens_ne_undefinedLabel _ read
    · simp
  | ok instr =>
    have encodes : ∀ symbols, encodeLine symbols statement = instr.encode symbols := by
      intro symbols
      rw [encodeLine, read]
      rfl
    have formed := Instr.wellFormed_of_ofTokens read
    obtain ⟨op, operands⟩ := instr
    cases operands with
    | branch cond label =>
      obtain ⟨rfl, rfl⟩ := branchCond_of_ofTokens read
      refine Or.inl ⟨label, rfl, ?_⟩
      intro symbols
      rw [encodes]
      cases found : symbols.get? label with
      | some address => exact Instr.encode_branch found _
      | none => exact Instr.encode_branch_of_missing found _
    | regImm | srcPair | triple | dstSrc | bare =>
      refine Or.inr ⟨encodeLine SymbolTable.empty statement, ?_, ?_, ?_⟩
      · intro symbols
        rw [encodes, encodes]
        rfl
      · intro label
        rw [encodes]
        simp [Instr.encode, Operands.encode, bind, Except.bind, pure, Except.pure]
      · intro word encoded
        rw [encodes] at encoded
        rw [Instr.opcode_of_encode encoded]
        intro same
        cases Op.opcode_injective same
        cases formed.layout

/-- The larger table keeps the labels of the smaller one, moved by `offset`, and has the others from `other`. -/
def SymbolTable.Extends (small large : SymbolTable) (offset : Nat) (other : Text → Option Nat) : Prop :=
  ∀ label, large.get? label = match small.get? label with
    | some address => some (address + offset)
    | none => other label

/-- The entry of a statement in a larger program comes from its entry in the smaller one. -/
theorem Entry.link_move {small large : SymbolTable} {offset : Nat} {other : Text → Option Nat}
    (grown : small.Extends large offset other) (address : Nat) (text : Text) :
    link other (move offset ⟨address, text, encodeLine small text⟩) =
      ⟨address + offset, text, encodeLine large text⟩ := by
  rcases encodeLine_cases text with ⟨label, _, branch⟩ | ⟨outcome, fixed, resolved, plain⟩
  · have atLabel := grown label
    cases found : small.get? label with
    | some bound =>
      simp only [found] at atLabel
      simp only [branch, found, atLabel, move, Except.map, Word.moveTarget_branchWord, link]
    | none =>
      simp only [found] at atLabel
      simp only [branch, found, atLabel, move, Except.map, link]
      cases other label <;> rfl
  · rw [fixed, fixed]
    cases outcome with
    | ok word =>
      have kept : Word.moveTarget offset word = word := if_neg (plain word rfl)
      simp only [move, Except.map, kept, link]
    | error error =>
      simp only [move, Except.map]
      unfold link
      split
      · rename_i label same
        cases same
        exact absurd rfl (resolved label)
      · rfl

theorem entriesFrom_append (address : Nat) (symbols : SymbolTable) (first second : List Text) :
    entriesFrom address symbols (first ++ second) =
      entriesFrom address symbols first ++ entriesFrom (address + first.length) symbols second := by
  induction first generalizing address with
  | nil => rfl
  | cons text rest ih =>
    have onward : address + 1 + rest.length = address + (rest.length + 1) := by omega
    simp only [List.cons_append, entriesFrom, ih, List.length_cons, onward]

theorem entriesFrom_extends {small large : SymbolTable} {offset : Nat} {other : Text → Option Nat}
    (grown : small.Extends large offset other) (address : Nat) (lines : List Text) :
    entriesFrom (address + offset) large lines =
      (entriesFrom address small lines).map fun entry => (entry.move offset).link other := by
  induction lines generalizing address with
  | nil => rfl
  | cons text rest ih =>
    have onward : address + offset + 1 = address + 1 + offset := by omega
    simp only [entriesFrom, List.map_cons, Entry.link_move grown, onward, ih]

theorem Entry.move_zero (entry : Entry) : entry.move 0 = entry := by
  obtain ⟨address, text, outcome⟩ := entry
  cases outcome with
  | ok word => simp only [move, Except.map, Word.moveTarget_zero, Nat.add_zero]
  | error error => rfl

namespace Placement

theorem declarationsFrom_add (address offset : Nat) (lines : List Text) :
    declarationsFrom (address + offset) lines =
      (declarationsFrom address lines).map fun declaration => (declaration.1, declaration.2 + offset) := by
  induction lines generalizing address with
  | nil => rfl
  | cons line rest ih =>
    cases label : labelName? line with
    | some name => simp only [declarationsFrom, label, ih, List.map_cons]
    | none =>
      have onward : address + offset + 1 = address + 1 + offset := by omega
      simp only [declarationsFrom, label, onward, ih]

section Joined

variable {above below : List Text} {whole first second : Placement} (placed : ofLines (above ++ below) = .ok whole)
  (placedAbove : ofLines above = .ok first) (placedBelow : ofLines below = .ok second)
include placed placedAbove placedBelow

theorem mem_symbols_append {name : Text} {address : Nat} :
    (name, address) ∈ whole.symbols.toList ↔ (name, address) ∈ first.symbols.toList ∨
      ∃ own, (name, own) ∈ second.symbols.toList ∧ address = own + first.count := by
  have counted : (instructionLines above).length = first.count := by rw [count, (of_ofLines placedAbove).1]
  simp only [mem_symbols_iff placed, mem_symbols_iff placedAbove, mem_symbols_iff placedBelow,
    declarationsFrom_append, declarationsFrom_add, counted, List.mem_append, List.mem_map]
  constructor
  · rintro ⟨label, member | ⟨⟨label', own⟩, member, same⟩, rfl⟩
    · exact Or.inl ⟨label, member, rfl⟩
    · obtain ⟨rfl, rfl⟩ := Prod.mk.inj same
      exact Or.inr ⟨own, ⟨label', member, rfl⟩, rfl⟩
  · rintro (⟨label, member, rfl⟩ | ⟨own, ⟨label, member, rfl⟩, rfl⟩)
    · exact ⟨label, Or.inl member, rfl⟩
    · exact ⟨label, Or.inr ⟨(label, own), member, rfl⟩, rfl⟩

theorem get?_append {label : Text} {address : Nat} :
    whole.symbols.get? label = some address ↔ first.symbols.get? label = some address ∨
      ∃ own, second.symbols.get? label = some own ∧ address = own + first.count := by
  simpa only [SymbolTable.get?, SymbolTable.mem_toList] using mem_symbols_append placed placedAbove placedBelow

theorem extends_first :
    first.symbols.Extends whole.symbols 0 fun label => (second.symbols.get? label).map (· + first.count) := by
  intro label
  cases found : first.symbols.get? label with
  | some address => exact (get?_append placed placedAbove placedBelow).mpr (Or.inl found)
  | none =>
    apply Option.ext
    intro address
    simp only [get?_append placed placedAbove placedBelow, found, reduceCtorEq, false_or, Option.map_eq_some_iff]
    exact exists_congr fun own => and_congr_right fun _ => eq_comm

theorem extends_second : second.symbols.Extends whole.symbols first.count first.symbols.get? := by
  intro label
  cases found : second.symbols.get? label with
  | some own => exact (get?_append placed placedAbove placedBelow).mpr (Or.inr ⟨own, found, rfl⟩)
  | none =>
    apply Option.ext
    intro address
    simp only [get?_append placed placedAbove placedBelow, found, reduceCtorEq, false_and, exists_false, or_false]

theorem instructions_append : whole.instructions = first.instructions ++ second.instructions := by
  rw [(of_ofLines placed).1, (of_ofLines placedAbove).1, (of_ofLines placedBelow).1, instructionLines_append]

theorem entries_append :
    (Program.ofPlacement whole).entries =
      (Program.ofPlacement first).entries.map
          (Entry.link fun label => (second.symbols.get? label).map (· + first.count)) ++
        (Program.ofPlacement second).entries.map fun entry => (entry.move first.count).link first.symbols.get? := by
  have left := entriesFrom_extends (extends_first placed placedAbove placedBelow) 0 first.instructions
  have right := entriesFrom_extends (extends_second placed placedAbove placedBelow) 0 second.instructions
  simp only [Entry.move_zero] at left
  rw [Nat.zero_add] at right
  simp only [Program.ofPlacement, instructions_append placed placedAbove placedBelow, entriesFrom_append, Nat.zero_add]
  exact congrArg₂ (· ++ ·) left right

end Joined

theorem labelKeys_append (above below : List Text) : labelKeys (above ++ below) = labelKeys above ++ labelKeys below :=
  List.filterMap_append

end Placement

theorem assemble_eq_error_iff {source : Text} :
    (∃ error, assemble source = .error error) ↔ ¬(labelKeys (statements source)).Nodup := by
  rw [← Placement.succeeds_iff, assemble_eq]
  cases Placement.ofLines (statements source) <;> simp [Except.map]

theorem nodup_of_assemble {source : Text} {program : Program} (assembled : assemble source = .ok program) :
    (labelKeys (statements source)).Nodup := by
  obtain ⟨placement, placed, _⟩ := assemble_eq_ok_iff.mp assembled
  exact Placement.succeeds_iff.mp ⟨placement, placed⟩

theorem exists_assemble_of_nodup {source : Text} (distinct : (labelKeys (statements source)).Nodup) :
    ∃ program, assemble source = .ok program := by
  obtain ⟨placement, placed⟩ := Placement.succeeds_iff.mpr distinct
  exact ⟨_, assemble_eq_ok_iff.mpr ⟨placement, placed, rfl⟩⟩

theorem mem_addresses_of_assemble {source : Text} {program : Program} (assembled : assemble source = .ok program)
    {name : Text} : name ∈ program.symbols.addresses ↔ name ∈ labelKeys (statements source) := by
  obtain ⟨placement, placed, rfl⟩ := assemble_eq_ok_iff.mp assembled
  exact Placement.mem_addresses_iff placed

theorem labelKeys_below (first second : Text) :
    labelKeys (statements (first ++ '\n' :: second)) =
      labelKeys (statements first) ++ labelKeys (statements second) := by
  rw [statements_append, Placement.labelKeys_append]

theorem assemble_below_eq_error_iff (first second : Text) :
    (∃ error, assemble (first ++ '\n' :: second) = .error error) ↔
      (∃ error, assemble first = .error error) ∨ (∃ error, assemble second = .error error) ∨
        ∃ p q name, assemble first = .ok p ∧ assemble second = .ok q ∧ name ∈ p.symbols.addresses ∧
          name ∈ q.symbols.addresses := by
  rw [assemble_eq_error_iff, labelKeys_below, List.nodup_append]
  constructor
  · intro failed
    cases atFirst : assemble first with
    | error error => exact Or.inl ⟨error, rfl⟩
    | ok p =>
      cases atSecond : assemble second with
      | error error => exact Or.inr (Or.inl ⟨error, rfl⟩)
      | ok q =>
        refine Or.inr (Or.inr ?_)
        by_contra apart
        refine failed ⟨nodup_of_assemble atFirst, nodup_of_assemble atSecond, ?_⟩
        rintro name inFirst _ inSecond rfl
        exact apart ⟨p, q, name, rfl, rfl, (mem_addresses_of_assemble atFirst).mpr inFirst,
          (mem_addresses_of_assemble atSecond).mpr inSecond⟩
  · rintro (repeated | repeated | ⟨p, q, name, atFirst, atSecond, inP, inQ⟩) ⟨distinctFirst, distinctSecond, apart⟩
    · exact assemble_eq_error_iff.mp repeated distinctFirst
    · exact assemble_eq_error_iff.mp repeated distinctSecond
    · have inFirst := (mem_addresses_of_assemble atFirst).mp inP
      have inSecond := (mem_addresses_of_assemble atSecond).mp inQ
      exact apart name inFirst name inSecond rfl

/-- Assembly of two sources, one below the other. It fails if one of them does or if both declare the same label.
Otherwise the second program stands behind the first: its labels and its branches to them move up by the number of
instructions in the first, and in both programs a branch to a label of the other gets its address. -/
theorem assemble_append (first second : Text) :
    ((∃ error, assemble (first ++ '\n' :: second) = .error error) ↔
      (∃ error, assemble first = .error error) ∨ (∃ error, assemble second = .error error) ∨
        ∃ p q name, assemble first = .ok p ∧ assemble second = .ok q ∧ name ∈ p.symbols.addresses ∧
          name ∈ q.symbols.addresses) ∧
      ∀ program, assemble (first ++ '\n' :: second) = .ok program →
        ∃ p q, assemble first = .ok p ∧ assemble second = .ok q ∧
          program.instructions = p.instructions ++ q.instructions ∧
          (∀ name address, (name, address) ∈ program.symbols.toList ↔ (name, address) ∈ p.symbols.toList ∨
            ∃ own, (name, own) ∈ q.symbols.toList ∧ address = own + p.instructions.length) ∧
          program.entries =
            p.entries.map (Entry.link fun label => (q.symbols.get? label).map (· + p.instructions.length)) ++
              q.entries.map fun entry => (entry.move p.instructions.length).link p.symbols.get? := by
  refine ⟨assemble_below_eq_error_iff first second, ?_⟩
  intro program assembled
  have distinct := nodup_of_assemble assembled
  rw [labelKeys_below, List.nodup_append] at distinct
  obtain ⟨_, atFirst⟩ := exists_assemble_of_nodup distinct.1
  obtain ⟨_, atSecond⟩ := exists_assemble_of_nodup distinct.2.1
  obtain ⟨whole, placed, rfl⟩ := assemble_eq_ok_iff.mp assembled
  obtain ⟨p, placedFirst, rfl⟩ := assemble_eq_ok_iff.mp atFirst
  obtain ⟨q, placedSecond, rfl⟩ := assemble_eq_ok_iff.mp atSecond
  rw [statements_append] at placed
  refine ⟨_, _, atFirst, atSecond, Placement.instructions_append placed placedFirst placedSecond, ?_, ?_⟩
  · exact fun name address => Placement.mem_symbols_append placed placedFirst placedSecond
  · exact Placement.entries_append placed placedFirst placedSecond

end SimtAsm
