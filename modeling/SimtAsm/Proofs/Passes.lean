import SimtAsm.Assembly.Program

namespace SimtAsm

open Std

namespace SymbolTable

/-- Binds labels one after the other, up to the first name that is taken. -/
def defineAll (table : SymbolTable) : List (Text × Nat) → Except DuplicateLabel SymbolTable
  | [] => .ok table
  | (label, address) :: rest =>
    match table.define label address with
    | (.ok (), next) => next.defineAll rest
    | (.error error, _) => .error error

theorem mem_toList {table : SymbolTable} {name : Text} {address : Nat} :
    (name, address) ∈ table.toList ↔ table.addresses[name]? = some address :=
  ExtTreeMap.mem_toList_iff_getElem?_eq_some

theorem define_of_fresh {table : SymbolTable} {label : Text} (fresh : table.get? label = none) (address : Nat) :
    table.define label address = (.ok (), ⟨table.addresses.insert (key label) address⟩) :=
  define_eq_ok_iff.mpr ⟨fresh, rfl⟩

theorem getElem?_of_define {table next : SymbolTable} {label : Text} {address : Nat}
    (defined : table.define label address = (.ok (), next)) (name : Text) :
    next.addresses[name]? = if name = key label then some address else table.addresses[name]? := by
  obtain ⟨_, rfl⟩ := define_eq_ok_iff.mp defined
  simp only [ExtTreeMap.getElem?_insert, LawfulEqCmp.compare_eq_iff_eq]
  simp [eq_comm]

/-- A whole list of labels is bound if no name repeats and none is taken. -/
theorem exists_defineAll_iff {table : SymbolTable} {declarations : List (Text × Nat)} :
    (∃ next, table.defineAll declarations = .ok next) ↔
      (declarations.map fun declaration => key declaration.1).Nodup ∧
        ∀ declaration ∈ declarations, table.get? declaration.1 = none := by
  induction declarations generalizing table with
  | nil => simp [defineAll]
  | cons declaration rest ih =>
    obtain ⟨label, address⟩ := declaration
    cases taken : table.get? label with
    | some old =>
      rcases defined : table.define label address with ⟨error | _, next⟩
      · simp [defineAll, defined, taken]
      · have fresh := (define_eq_ok_iff.mp defined).1
        simp [taken] at fresh
    | none =>
      have defined := define_of_fresh taken address
      have others : ∀ other, SymbolTable.get? ⟨table.addresses.insert (key label) address⟩ other = none ↔
          key other ≠ key label ∧ table.get? other = none := by
        intro other
        rw [get?_of_define defined]
        split <;> simp_all
      simp only [defineAll, defined, ih, others, List.map_cons, List.nodup_cons, List.mem_map, List.forall_mem_cons,
        taken, true_and]
      constructor
      · rintro ⟨distinct, fresh⟩
        refine ⟨⟨?_, distinct⟩, fun other member => (fresh other member).2⟩
        rintro ⟨other, member, same⟩
        exact (fresh other member).1 same
      · rintro ⟨⟨new, distinct⟩, fresh⟩
        exact ⟨distinct, fun other member => ⟨fun same => new ⟨other, member, same⟩, fresh other member⟩⟩

/-- Nothing is lost or overwritten on the way. -/
theorem getElem?_of_defineAll {table next : SymbolTable} {declarations : List (Text × Nat)}
    (defined : table.defineAll declarations = .ok next) {name : Text} {address : Nat} :
    next.addresses[name]? = some address ↔
      table.addresses[name]? = some address ∨ ∃ label, (label, address) ∈ declarations ∧ key label = name := by
  induction declarations generalizing table with
  | nil =>
    cases defined
    simp
  | cons declaration rest ih =>
    obtain ⟨label, bound⟩ := declaration
    simp only [defineAll] at defined
    split at defined
    · rename_i middle first
      have free : table.addresses[key label]? = none := (define_eq_ok_iff.mp first).1
      have here : middle.addresses[name]? = some address ↔
          table.addresses[name]? = some address ∨ address = bound ∧ key label = name := by
        rw [getElem?_of_define first]
        split
        · rename_i same
          subst same
          simp [free, eq_comm]
        · rename_i differs
          simp [Ne.symm differs]
      have split : (∃ other, (other, address) ∈ (label, bound) :: rest ∧ key other = name) ↔
          (address = bound ∧ key label = name) ∨ ∃ other, (other, address) ∈ rest ∧ key other = name := by
        simp only [List.mem_cons, Prod.mk.injEq, or_and_right, exists_or, and_assoc, exists_eq_left]
      rw [ih defined, here, split, or_assoc]
    · simp at defined

theorem defineAll_append (table : SymbolTable) (first second : List (Text × Nat)) :
    table.defineAll (first ++ second) = (table.defineAll first).bind fun next => next.defineAll second := by
  induction first generalizing table with
  | nil => rfl
  | cons declaration rest ih =>
    obtain ⟨label, address⟩ := declaration
    simp only [List.cons_append, defineAll]
    rcases table.define label address with ⟨error | _, next⟩
    · rfl
    · exact ih next

/-- Binding fails at the first label whose name is taken by then. -/
theorem defineAll_eq_error_iff {table : SymbolTable} {declarations : List (Text × Nat)} {error : DuplicateLabel} :
    table.defineAll declarations = .error error ↔
      ∃ before label address after next, declarations = before ++ (label, address) :: after ∧
        table.defineAll before = .ok next ∧ next.define label address = (.error error, next) := by
  constructor
  · intro failed
    induction declarations generalizing table with
    | nil => simp [defineAll] at failed
    | cons declaration rest ih =>
      obtain ⟨label, address⟩ := declaration
      rcases defined : table.define label address with ⟨refusal | _, middle⟩
      · simp only [defineAll, defined, Except.error.injEq] at failed
        obtain ⟨_, _, rfl⟩ := define_eq_error_iff.mp defined
        exact ⟨[], label, address, rest, _, rfl, rfl, failed ▸ defined⟩
      · simp only [defineAll, defined] at failed
        obtain ⟨before, label', address', after, next, rfl, bound, refused⟩ := ih failed
        refine ⟨(label, address) :: before, label', address', after, next, rfl, ?_, refused⟩
        simp only [defineAll, defined, bound]
  · rintro ⟨before, label, address, after, next, rfl, bound, refused⟩
    simp only [defineAll_append, bound, Except.bind, defineAll, refused]

end SymbolTable

namespace Placement

/-- The labels that lines declare from `address` on, each with the address it gets. -/
def declarationsFrom (address : Nat) : List Text → List (Text × Nat)
  | [] => []
  | line :: rest =>
    match labelName? line with
    | some name => (name, address) :: declarationsFrom address rest
    | none => declarationsFrom (address + 1) rest

def instructionLines (lines : List Text) : List Text := lines.filter fun line => (labelName? line).isNone

theorem instructionLines_of_label {line name : Text} (label : labelName? line = some name) (rest : List Text) :
    instructionLines (line :: rest) = instructionLines rest := by
  simp [instructionLines, label]

theorem instructionLines_of_instruction {line : Text} (instruction : labelName? line = none) (rest : List Text) :
    instructionLines (line :: rest) = line :: instructionLines rest := by
  simp [instructionLines, instruction]

theorem instructionLines_append (first second : List Text) :
    instructionLines (first ++ second) = instructionLines first ++ instructionLines second :=
  List.filter_append ..

/-- The lines behind others are placed from the first address that these leave free. -/
theorem declarationsFrom_append (address : Nat) (first second : List Text) :
    declarationsFrom address (first ++ second) =
      declarationsFrom address first ++ declarationsFrom (address + (instructionLines first).length) second := by
  induction first generalizing address with
  | nil => rfl
  | cons line rest ih =>
    cases label : labelName? line with
    | some name =>
      simp only [List.cons_append, declarationsFrom, label, ih, instructionLines_of_label label]
    | none =>
      have onward : address + 1 + (instructionLines rest).length = address + ((instructionLines rest).length + 1) := by
        omega
      simp only [List.cons_append, declarationsFrom, label, ih, instructionLines_of_instruction label,
        List.length_cons, onward]

/-- The pass binds the declarations in order and keeps the other lines; neither half depends on the other. -/
theorem ofLinesFrom_eq (address : Nat) (symbols : SymbolTable) (lines : List Text) :
    ofLinesFrom address symbols lines =
      (symbols.defineAll (declarationsFrom address lines)).map fun symbols => ⟨symbols, instructionLines lines⟩ := by
  induction lines generalizing address symbols with
  | nil => rfl
  | cons line rest ih =>
    cases label : labelName? line with
    | some name =>
      simp only [ofLinesFrom, declarationsFrom, label, SymbolTable.defineAll, instructionLines_of_label label]
      rcases symbols.define name address with ⟨error | _, next⟩
      · rfl
      · exact ih address next
    | none =>
      simp only [ofLinesFrom, declarationsFrom, label, ih, instructionLines_of_instruction label]
      cases symbols.defineAll (declarationsFrom (address + 1) rest) <;> rfl

/-- A label stands at most one past the last instruction. -/
theorem mem_declarationsFrom {address bound : Nat} {label : Text} {lines : List Text}
    (member : (label, bound) ∈ declarationsFrom address lines) :
    address ≤ bound ∧ bound ≤ address + (instructionLines lines).length := by
  induction lines generalizing address with
  | nil => simp [declarationsFrom] at member
  | cons line rest ih =>
    cases isLabel : labelName? line with
    | some name =>
      simp only [declarationsFrom, isLabel, List.mem_cons, Prod.mk.injEq] at member
      rw [instructionLines_of_label isLabel]
      rcases member with ⟨_, rfl⟩ | later
      · omega
      · exact ih later
    | none =>
      simp only [declarationsFrom, isLabel] at member
      have bounds := ih member
      rw [instructionLines_of_instruction isLabel, List.length_cons]
      omega

theorem exists_ofLines_iff {lines : List Text} :
    (∃ placement, ofLines lines = .ok placement) ↔
      ((declarationsFrom 0 lines).map fun declaration => SymbolTable.key declaration.1).Nodup := by
  have fresh : ∀ label, SymbolTable.empty.get? label = none := by
    intro label
    simp [SymbolTable.get?, SymbolTable.empty]
  have defines : (∃ next, SymbolTable.empty.defineAll (declarationsFrom 0 lines) = .ok next) ↔ _ :=
    SymbolTable.exists_defineAll_iff
  simp only [fresh, implies_true, and_true] at defines
  rw [← defines, ofLines, ofLinesFrom_eq]
  cases SymbolTable.empty.defineAll (declarationsFrom 0 lines) <;> simp [Except.map]

theorem of_ofLines {lines : List Text} {placement : Placement} (placed : ofLines lines = .ok placement) :
    placement.instructions = instructionLines lines ∧
      ∀ name address, placement.symbols.addresses[name]? = some address ↔
        ∃ label, (label, address) ∈ declarationsFrom 0 lines ∧ SymbolTable.key label = name := by
  rw [ofLines, ofLinesFrom_eq] at placed
  cases defined : SymbolTable.empty.defineAll (declarationsFrom 0 lines) with
  | ok symbols =>
    rw [defined] at placed
    cases placed
    refine ⟨rfl, ?_⟩
    intro name address
    rw [SymbolTable.getElem?_of_defineAll defined]
    simp [SymbolTable.empty]
  | error error =>
    rw [defined] at placed
    cases placed

theorem address_le_count {lines : List Text} {placement : Placement} (placed : ofLines lines = .ok placement)
    {label : Text} {address : Nat} (found : placement.symbols.get? label = some address) :
    address ≤ placement.count := by
  obtain ⟨instructions, symbols⟩ := of_ofLines placed
  obtain ⟨declared, member, _⟩ := (symbols _ _).mp found
  have bounds := mem_declarationsFrom member
  rw [count, instructions]
  omega

end Placement

theorem map_outcome_entriesFrom (address : Nat) (symbols : SymbolTable) (lines : List Text) :
    (entriesFrom address symbols lines).map Entry.outcome = lines.map (encodeLine symbols) := by
  induction lines generalizing address with
  | nil => rfl
  | cons line rest ih => simp only [entriesFrom, List.map_cons, ih]

theorem map_address_entriesFrom (address : Nat) (symbols : SymbolTable) (lines : List Text) :
    (entriesFrom address symbols lines).map Entry.address = List.range' address lines.length := by
  induction lines generalizing address with
  | nil => rfl
  | cons line rest ih => simp only [entriesFrom, List.map_cons, ih, List.length_cons, List.range'_succ]

theorem outcome_of_mem_entriesFrom {address : Nat} {symbols : SymbolTable} {lines : List Text} {entry : Entry}
    (member : entry ∈ entriesFrom address symbols lines) : entry.outcome = encodeLine symbols entry.text := by
  induction lines generalizing address with
  | nil => simp [entriesFrom] at member
  | cons line rest ih =>
    rcases List.mem_cons.mp member with rfl | later
    · rfl
    · exact ih later

/-- Entries that all have words have no diagnostic, and give their words in order. -/
theorem filterMap_of_outcomes {entries : List Entry} {words : List Word}
    (outcomes : entries.map Entry.outcome = words.map .ok) :
    entries.filterMap Entry.diagnostic? = [] ∧ entries.filterMap Entry.word? = words := by
  induction entries generalizing words with
  | nil =>
    cases words with
    | nil => exact ⟨rfl, rfl⟩
    | cons => simp at outcomes
  | cons entry rest ih =>
    cases words with
    | nil => simp at outcomes
    | cons word words =>
      simp only [List.map_cons, List.cons.injEq] at outcomes
      obtain ⟨here, later⟩ := outcomes
      obtain ⟨noDiagnostic, sameWords⟩ := ih later
      have isWord : entry.word? = some word := by simp [Entry.word?, here, Except.toOption]
      have isFine : entry.diagnostic? = none := by simp [Entry.diagnostic?, here]
      rw [List.filterMap_cons_none isFine, List.filterMap_cons_some isWord, noDiagnostic, sameWords]
      exact ⟨rfl, rfl⟩

theorem exists_outcomes_of_diagnostics {entries : List Entry} (none : entries.filterMap Entry.diagnostic? = []) :
    ∃ words : List Word, entries.map Entry.outcome = words.map .ok := by
  induction entries with
  | nil => exact ⟨[], rfl⟩
  | cons entry rest ih =>
    simp only [List.filterMap_eq_nil_iff, List.forall_mem_cons] at none ih
    obtain ⟨words, later⟩ := ih none.2
    cases outcome : entry.outcome with
    | ok word => exact ⟨word :: words, by simp [outcome, later]⟩
    | error error => simp [Entry.diagnostic?, outcome] at none

namespace Program

/-- A program has words just when each of its instructions assembles, and then these are its words. -/
theorem words_eq_ok_iff {placement : Placement} {words : List Word} :
    (ofPlacement placement).words = .ok words ↔
      placement.instructions.map (encodeLine placement.symbols) = words.map .ok := by
  have outcomes := map_outcome_entriesFrom 0 placement.symbols placement.instructions
  rw [← outcomes]
  constructor
  · intro found
    simp only [Program.words] at found
    split at found
    · rename_i noDiagnostic
      obtain ⟨others, all⟩ := exists_outcomes_of_diagnostics (List.isEmpty_iff.mp noDiagnostic)
      cases found
      exact all.trans (congrArg _ (filterMap_of_outcomes all).2.symm)
    · simp at found
  · intro all
    obtain ⟨noDiagnostic, sameWords⟩ := filterMap_of_outcomes all
    simp only [Program.words, diagnostics, ofPlacement, noDiagnostic, List.isEmpty_nil, if_true, sameWords]

theorem diagnostics_eq_nil_iff {program : Program} :
    program.diagnostics = [] ↔ ∃ words, program.words = .ok words := by
  unfold words
  split <;> rename_i isEmpty
  · simpa using isEmpty
  · simpa using isEmpty

end Program

theorem assemble_eq (source : Text) :
    assemble source = (Placement.ofLines (Source.statements source)).map Program.ofPlacement := by
  rw [assemble]
  cases Placement.ofLines (Source.statements source) <;> rfl

theorem assemble_eq_ok_iff {source : Text} {program : Program} :
    assemble source = .ok program ↔
      ∃ placement, Placement.ofLines (Source.statements source) = .ok placement ∧
        Program.ofPlacement placement = program := by
  rw [assemble_eq]
  cases Placement.ofLines (Source.statements source) <;> simp [Except.map]

end SimtAsm
