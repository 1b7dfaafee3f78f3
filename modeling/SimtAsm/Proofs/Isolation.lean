import SimtAsm.Proofs.Layout

namespace SimtAsm

namespace Source

/-- What is left of a line without its comment and the blanks around it. -/
def cleaned (line : Text) : Text := (withoutComment line).trim

/-- Whether a line holds an instruction: something is left of it that no colon ends. -/
def holdsInstruction (line : Text) : Bool := !(cleaned line).isEmpty && (cleaned line).getLast? != some ':'

theorem labelName?_cleaned {line : Text} (holds : holdsInstruction line = true) : labelName? (cleaned line) = none := by
  simp only [holdsInstruction, Bool.and_eq_true, bne_iff_ne] at holds
  simp only [labelName?, holds.2, if_false]

theorem statements_of_instruction {line : Text} (free : '\n' ∉ line) (holds : holdsInstruction line = true) :
    statements line = [cleaned line] := by
  simp only [holdsInstruction, Bool.and_eq_true] at holds
  rw [statements_of_line free, ← cleaned, List.filter_cons, if_pos holds.1, List.filter_nil]

/-- A line without a newline adds an instruction just when it holds one. -/
theorem length_instructionLines_of_line {line : Text} (free : '\n' ∉ line) :
    (Placement.instructionLines (statements line)).length = (holdsInstruction line).toNat := by
  cases holds : holdsInstruction line with
  | true =>
    rw [statements_of_instruction free holds, Placement.instructionLines_of_instruction (labelName?_cleaned holds)]
    rfl
  | false =>
    rw [statements_of_line free, ← cleaned]
    simp only [holdsInstruction, Bool.and_eq_false_iff, bne_eq_false_iff_eq] at holds
    rcases holds with empty | colon
    · simp only [List.filter_cons, empty, Bool.false_eq_true, if_false, List.filter_nil]
      rfl
    · have label : labelName? (cleaned line) = some (cleaned line).dropLast := if_pos colon
      simp only [List.filter_cons, List.filter_nil]
      split
      · rw [Placement.instructionLines_of_label label]
        rfl
      · rfl

theorem length_instructionLines {lines : List Text} (free : ∀ line ∈ lines, '\n' ∉ line) :
    (Placement.instructionLines (lines.flatMap statements)).length = lines.countP holdsInstruction := by
  induction lines with
  | nil => rfl
  | cons line rest ih =>
    have here := length_instructionLines_of_line (free line (List.mem_cons_self ..))
    have later := ih fun x member => free x (List.mem_cons_of_mem _ member)
    rw [List.flatMap_cons, Placement.instructionLines_append, List.length_append, here, later, List.countP_cons]
    cases holdsInstruction line <;> simp [Nat.add_comm]

/-- A line that holds an instruction is one statement between those of the lines above and below. -/
theorem statements_set {lines : List Text} {i : Nat} {line : Text} (inside : i < lines.length) (free : '\n' ∉ line)
    (holds : holdsInstruction line = true) :
    statements (Text.join ['\n'] (lines.set i line)) =
      (lines.take i).flatMap statements ++ cleaned line :: (lines.drop (i + 1)).flatMap statements := by
  rw [statements_join, List.set_eq_take_cons_drop line inside, List.flatMap_append, List.flatMap_cons,
    statements_of_instruction free holds, List.singleton_append]

theorem newline_notMem_of_mem_lines {source line : Text} (member : line ∈ source.lines) : '\n' ∉ line :=
  Text.separator_notMem_of_mem_pieces member

end Source

namespace Placement

theorem getElem?_instructions {line : Text} {above below : List Text} {placement : Placement}
    (instruction : labelName? line = none) (placed : ofLines (above ++ line :: below) = .ok placement) :
    placement.instructions[(instructionLines above).length]? = some line := by
  rw [(of_ofLines placed).1, instructionLines_append, instructionLines_of_instruction instruction]
  rw [List.getElem?_append_right (Nat.le_refl _), Nat.sub_self]
  rfl

section Replace

variable {line line' : Text} (instruction : labelName? line = none) (instruction' : labelName? line' = none)
  (above below : List Text)
include instruction instruction'

theorem declarationsFrom_replace (address : Nat) :
    declarationsFrom address (above ++ line' :: below) = declarationsFrom address (above ++ line :: below) := by
  simp only [declarationsFrom_append, declarationsFrom, instruction, instruction']

theorem instructionLines_replace :
    instructionLines (above ++ line' :: below) =
      (instructionLines (above ++ line :: below)).set (instructionLines above).length line' := by
  simp only [instructionLines_append, instructionLines_of_instruction instruction,
    instructionLines_of_instruction instruction', List.set_append_right _ _ (Nat.le_refl _), Nat.sub_self,
    List.set_cons_zero]

/-- Another instruction in the place of one changes neither the labels nor any other instruction. -/
theorem ofLines_replace {placement : Placement} (placed : ofLines (above ++ line :: below) = .ok placement) :
    ofLines (above ++ line' :: below) =
      .ok ⟨placement.symbols, placement.instructions.set (instructionLines above).length line'⟩ := by
  rw [ofLines, ofLinesFrom_eq] at placed ⊢
  rw [declarationsFrom_replace instruction instruction', instructionLines_replace instruction instruction']
  cases defined : SymbolTable.empty.defineAll (declarationsFrom 0 (above ++ line :: below)) with
  | ok symbols =>
    rw [defined] at placed
    cases placed
    rfl
  | error error =>
    rw [defined] at placed
    cases placed

end Replace

end Placement

theorem getElem?_entriesFrom (address : Nat) (symbols : SymbolTable) (lines : List Text) (i : Nat) :
    (entriesFrom address symbols lines)[i]? =
      lines[i]?.map fun text => ⟨address + i, text, encodeLine symbols text⟩ := by
  induction lines generalizing address i with
  | nil => rfl
  | cons line rest ih =>
    cases i with
    | zero => rfl
    | succ i =>
      have onward : address + 1 + i = address + (i + 1) := by omega
      simp only [entriesFrom, List.getElem?_cons_succ, ih, onward]

theorem length_entriesFrom (address : Nat) (symbols : SymbolTable) (lines : List Text) :
    (entriesFrom address symbols lines).length = lines.length := by
  simpa using congrArg List.length (map_address_entriesFrom address symbols lines)

/-- The second pass looks at each instruction by itself. -/
theorem entriesFrom_set (address : Nat) (symbols : SymbolTable) (lines : List Text) (k : Nat) (line : Text) :
    entriesFrom address symbols (lines.set k line) =
      (entriesFrom address symbols lines).set k ⟨address + k, line, encodeLine symbols line⟩ := by
  apply List.ext_getElem?
  intro i
  rw [getElem?_entriesFrom, List.getElem?_set', List.getElem?_set', getElem?_entriesFrom]
  split
  · rename_i same
    subst same
    cases lines[k]? <;> rfl
  · rfl

/-- An entry without a word. -/
def Entry.Fails (entry : Entry) : Prop := ∃ error, entry.outcome = .error error

theorem Entry.diagnostic?_eq_some_iff {entry : Entry} {diagnostic : Diagnostic} :
    entry.diagnostic? = some diagnostic ↔ entry = ⟨diagnostic.address, diagnostic.text, .error diagnostic.error⟩ := by
  obtain ⟨address, text, outcome⟩ := entry
  obtain ⟨address', text', error'⟩ := diagnostic
  cases outcome <;> simp [diagnostic?]

namespace Program

theorem mem_diagnostics {program : Program} {diagnostic : Diagnostic} :
    diagnostic ∈ program.diagnostics ↔
      ⟨diagnostic.address, diagnostic.text, .error diagnostic.error⟩ ∈ program.entries := by
  simp only [diagnostics, List.mem_filterMap, Entry.diagnostic?_eq_some_iff, exists_eq_right]

theorem diagnostics_ne_nil_iff {program : Program} :
    program.diagnostics ≠ [] ↔ ∃ entry ∈ program.entries, entry.Fails := by
  constructor
  · intro nonempty
    obtain ⟨diagnostic, member⟩ := List.exists_mem_of_ne_nil _ nonempty
    exact ⟨_, mem_diagnostics.mp member, diagnostic.error, rfl⟩
  · rintro ⟨⟨address, text, outcome⟩, member, error, rfl⟩
    have listed : ⟨address, text, error⟩ ∈ program.diagnostics := mem_diagnostics.mpr member
    exact List.ne_nil_of_mem listed

/-- If some entry fails, there are diagnostics in the place of words. -/
theorem words_eq_error_iff {program : Program} :
    program.words = .error program.diagnostics ↔ ∃ entry ∈ program.entries, entry.Fails := by
  rw [← diagnostics_ne_nil_iff, words]
  split <;> rename_i isEmpty <;> simpa using isEmpty

variable (placement : Placement)

theorem entries_eq : (ofPlacement placement).entries = entriesFrom 0 placement.symbols placement.instructions := rfl

theorem pairwise_address : (ofPlacement placement).entries.Pairwise fun a b => a.address < b.address := by
  have addresses := map_address_entriesFrom 0 placement.symbols placement.instructions
  have ascending : ((ofPlacement placement).entries.map Entry.address).Pairwise (· < ·) := by
    rw [entries_eq, addresses]
    exact List.pairwise_lt_range'
  exact List.pairwise_map.mp ascending

theorem pairwise_diagnostics :
    (ofPlacement placement).diagnostics.Pairwise fun a b => a.address < b.address := by
  refine (pairwise_address placement).filterMap _ ?_
  intro a b less d atA d' atB
  rw [Entry.diagnostic?_eq_some_iff.mp atA, Entry.diagnostic?_eq_some_iff.mp atB] at less
  exact less

/-- Each entry has a word just when there are words, and then these are the words of the entries. -/
theorem exists_words_iff :
    (∃ words, (ofPlacement placement).words = .ok words ∧ words.length = placement.instructions.length ∧
        (ofPlacement placement).entries.map Entry.outcome = words.map .ok) ↔
      ¬∃ entry ∈ (ofPlacement placement).entries, entry.Fails := by
  rw [← words_eq_error_iff]
  constructor
  · rintro ⟨words, found, _⟩ failed
    cases found.symm.trans failed
  · intro fine
    have clean : (ofPlacement placement).diagnostics = [] := by
      rw [words] at fine
      simpa using fine
    obtain ⟨words, found⟩ := diagnostics_eq_nil_iff.mp clean
    have outcomes :=
      (map_outcome_entriesFrom 0 placement.symbols placement.instructions).trans (words_eq_ok_iff.mp found)
    refine ⟨words, found, ?_, outcomes⟩
    rw [← length_entriesFrom 0 placement.symbols]
    simpa using (congrArg List.length outcomes).symm

end Program

open Source Program

/-- Failures are isolated. When one instruction line of a source is replaced by another one, valid or not, the source
still assembles, with the same labels and the same entries but for that of the line: its address is the number of
instruction lines above. Entries and instructions match one by one, diagnostics are the failing entries in the order of
their addresses, and there are words, one for each instruction, just when no entry fails. -/
theorem failures_isolated {source : Text} {program : Program} (assembled : assemble source = .ok program) :
    (∀ i line line', source.lines[i]? = some line → holdsInstruction line = true →
      '\n' ∉ line' → holdsInstruction line' = true →
      ∃ edited address, assemble (Text.join ['\n'] (source.lines.set i line')) = .ok edited ∧
        address = (source.lines.take i).countP holdsInstruction ∧
        program.entries[address]? = some ⟨address, cleaned line, encodeLine program.symbols (cleaned line)⟩ ∧
        edited.symbols = program.symbols ∧
        edited.instructions = program.instructions.set address (cleaned line') ∧
        edited.entries =
          program.entries.set address ⟨address, cleaned line', encodeLine program.symbols (cleaned line')⟩) ∧
      program.entries.length = program.instructions.length ∧
      (∀ (i : Nat) (entry : Entry), program.entries[i]? = some entry →
        entry.address = i ∧ program.instructions[i]? = some entry.text) ∧
      (program.diagnostics.Pairwise fun a b => a.address < b.address) ∧
      (∀ d, d ∈ program.diagnostics ↔ ⟨d.address, d.text, .error d.error⟩ ∈ program.entries) ∧
      ((∃ words, program.words = .ok words ∧ words.length = program.instructions.length ∧
        program.entries.map Entry.outcome = words.map .ok) ↔ ¬∃ entry ∈ program.entries, entry.Fails) ∧
      (program.words = .error program.diagnostics ↔ ∃ entry ∈ program.entries, entry.Fails) := by
  obtain ⟨placement, placed, rfl⟩ := assemble_eq_ok_iff.mp assembled
  refine ⟨?_, length_entriesFrom .., ?_, pairwise_diagnostics placement, fun d => mem_diagnostics,
    exists_words_iff placement, words_eq_error_iff⟩
  · intro i line line' atLine holds free' holds'
    obtain ⟨inside, rfl⟩ := List.getElem?_eq_some_iff.mp atLine
    have free := newline_notMem_of_mem_lines (List.getElem_mem inside)
    -- The line is one statement among those of the lines above and below, in the source as it is and as edited.
    have original := statements_set inside free holds
    rw [List.set_getElem_self, Text.join_lines] at original
    rw [original] at placed
    have replaced := Placement.ofLines_replace (labelName?_cleaned holds) (labelName?_cleaned holds') _ _ placed
    rw [← statements_set inside free' holds'] at replaced
    have atInstruction := Placement.getElem?_instructions (labelName?_cleaned holds) placed
    have freeAbove : ∀ line ∈ source.lines.take i, '\n' ∉ line :=
      fun line member => newline_notMem_of_mem_lines (List.mem_of_mem_take member)
    rw [length_instructionLines freeAbove] at replaced atInstruction
    refine ⟨_, _, assemble_eq_ok_iff.mpr ⟨_, replaced, rfl⟩, rfl, ?_, rfl, rfl, ?_⟩
    · rw [entries_eq, getElem?_entriesFrom, atInstruction, Nat.zero_add]
      rfl
    · rw [entries_eq, entriesFrom_set, Nat.zero_add]
      rfl
  · intro i entry atEntry
    rw [entries_eq, getElem?_entriesFrom, Nat.zero_add] at atEntry
    obtain ⟨text, atText, rfl⟩ := Option.map_eq_some_iff.mp atEntry
    exact ⟨rfl, atText⟩

/-- A branch to an unknown label gives way to an addition with too few operands; the return below it is not touched. -/
theorem failures_isolated_between :
    ∃ program edited, assemble "TOP:\nBR down\nRET" = .ok program ∧ assemble "TOP:\n ADD R1;x\nRET" = .ok edited ∧
      program.entries = [⟨0, "BR down", .error (.undefinedLabel "DOWN")⟩, ⟨1, "RET", .ok 0xF000#16⟩] ∧
      edited.entries = [⟨0, "ADD R1", .error (.operandCount "ADD" 3 1)⟩, ⟨1, "RET", .ok 0xF000#16⟩] ∧
      edited.symbols = program.symbols ∧ program.words = .error [⟨0, "BR down", .undefinedLabel "DOWN"⟩] := by
  have assembled : assemble "TOP:\nBR down\nRET" =
      .ok (.ofPlacement ⟨⟨(∅ : Std.ExtTreeMap Text Nat).insert "TOP" 0⟩, ["BR down", "RET"]⟩) := by
    rfl
  obtain ⟨replaced, _, _, _, _, _, failing⟩ := failures_isolated assembled
  obtain ⟨edited, address, again, rfl, _, symbols, _, entries⟩ :=
    replaced 1 "BR down" " ADD R1;x" rfl rfl (by decide) rfl
  exact ⟨_, edited, assembled, again, rfl, entries, symbols, failing.mpr ⟨_, List.mem_cons_self .., _, rfl⟩⟩

end SimtAsm
