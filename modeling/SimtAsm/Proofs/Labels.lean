import SimtAsm.Proofs.Passes

namespace SimtAsm

open Std

/-- The name that a label line declares, in the form in which it is kept: what stands before the final colon,
trimmed and in upper case. -/
def labelKey? (line : Text) : Option Text :=
  if line.getLast? = some ':' then some (Text.trim line.dropLast).upper else none

/-- The names that lines declare, in the order of the lines. -/
def labelKeys (lines : List Text) : List Text := lines.filterMap labelKey?

theorem labelName?_eq_some_iff {line name : Text} : labelName? line = some name ↔ line = name ++ [':'] := by
  unfold labelName?
  constructor
  · intro found
    split at found
    · rename_i colon
      obtain ⟨front, rfl⟩ := List.getLast?_eq_some_iff.mp colon
      rw [List.dropLast_concat, Option.some.injEq] at found
      rw [found]
    · simp at found
  · rintro rfl
    simp

theorem labelKey?_eq (line : Text) : labelKey? line = (labelName? line).map SymbolTable.key := by
  unfold labelKey? labelName?
  split <;> rfl

namespace Placement

theorem labelKeys_eq (address : Nat) (lines : List Text) :
    labelKeys lines = (declarationsFrom address lines).map fun declaration => SymbolTable.key declaration.1 := by
  induction lines generalizing address with
  | nil => rfl
  | cons line rest ih =>
    cases label : labelName? line with
    | some name =>
      have here : labelKey? line = some (SymbolTable.key name) := by rw [labelKey?_eq, label, Option.map_some]
      rw [labelKeys, List.filterMap_cons_some here, ← labelKeys, ih address]
      simp only [declarationsFrom, label, List.map_cons]
    | none =>
      have here : labelKey? line = none := by rw [labelKey?_eq, label, Option.map_none]
      rw [labelKeys, List.filterMap_cons_none here, ← labelKeys, ih (address + 1)]
      simp only [declarationsFrom, label]

/-- Each declaration comes from a label line, and its address counts the instructions before that line. -/
theorem declarationsFrom_eq_append_cons {address bound : Nat} {lines : List Text} {name : Text}
    {before after : List (Text × Nat)} (split : declarationsFrom address lines = before ++ (name, bound) :: after) :
    ∃ above below, lines = above ++ (name ++ [':']) :: below ∧ declarationsFrom address above = before ∧
      bound = address + (instructionLines above).length := by
  induction lines generalizing address before with
  | nil => simp [declarationsFrom] at split
  | cons line rest ih =>
    cases label : labelName? line with
    | some other =>
      simp only [declarationsFrom, label] at split
      cases before with
      | nil =>
        simp only [List.nil_append, List.cons.injEq, Prod.mk.injEq] at split
        obtain ⟨⟨rfl, rfl⟩, _⟩ := split
        exact ⟨[], rest, by rw [List.nil_append, labelName?_eq_some_iff.mp label], rfl, rfl⟩
      | cons first before =>
        simp only [List.cons_append, List.cons.injEq] at split
        obtain ⟨rfl, later⟩ := split
        obtain ⟨above, below, rfl, declared, counted⟩ := ih later
        refine ⟨line :: above, below, rfl, ?_, ?_⟩
        · simp only [declarationsFrom, label, declared]
        · rw [instructionLines_of_label label, counted]
    | none =>
      simp only [declarationsFrom, label] at split
      obtain ⟨above, below, rfl, declared, counted⟩ := ih split
      refine ⟨line :: above, below, rfl, ?_, ?_⟩
      · simp only [declarationsFrom, label, declared]
      · rw [instructionLines_of_instruction label, List.length_cons]
        omega

theorem declarationsFrom_append_label (address : Nat) (above below : List Text) (name : Text) :
    declarationsFrom address (above ++ (name ++ [':']) :: below) =
      declarationsFrom address above ++ (name, address + (instructionLines above).length) ::
        declarationsFrom (address + (instructionLines above).length) below := by
  have label : labelName? (name ++ [':']) = some name := labelName?_eq_some_iff.mpr rfl
  simp only [declarationsFrom_append, declarationsFrom, label]

theorem mem_declarationsFrom_iff {address bound : Nat} {lines : List Text} {name : Text} :
    (name, bound) ∈ declarationsFrom address lines ↔
      ∃ above below, lines = above ++ (name ++ [':']) :: below ∧
        bound = address + (instructionLines above).length := by
  constructor
  · intro member
    obtain ⟨before, after, split⟩ := List.append_of_mem member
    obtain ⟨above, below, same, _, counted⟩ := declarationsFrom_eq_append_cons split
    exact ⟨above, below, same, counted⟩
  · rintro ⟨above, below, rfl, rfl⟩
    rw [declarationsFrom_append_label]
    simp

/-- Labels never go back to an earlier address. -/
theorem pairwise_declarationsFrom (address : Nat) (lines : List Text) :
    (declarationsFrom address lines).Pairwise fun earlier later => earlier.2 ≤ later.2 := by
  induction lines generalizing address with
  | nil => exact .nil
  | cons line rest ih =>
    cases label : labelName? line with
    | some name =>
      simp only [declarationsFrom, label]
      refine .cons ?_ (ih address)
      rintro ⟨other, bound⟩ member
      exact (mem_declarationsFrom member).1
    | none =>
      simp only [declarationsFrom, label]
      exact ih (address + 1)

theorem getElem?_empty (name : Text) : SymbolTable.empty.addresses[name]? = none := by
  simp [SymbolTable.empty]

/-- The table of the lines above holds the names that these lines declare. -/
theorem mem_addresses_of_defineAll {address : Nat} {lines : List Text} {table : SymbolTable}
    (defined : SymbolTable.empty.defineAll (declarationsFrom address lines) = .ok table) {name : Text} :
    name ∈ table.addresses ↔ name ∈ labelKeys lines := by
  rw [ExtTreeMap.mem_iff_isSome_getElem?, Option.isSome_iff_exists, labelKeys_eq address]
  simp only [SymbolTable.getElem?_of_defineAll defined, getElem?_empty, reduceCtorEq, false_or, List.mem_map,
    Prod.exists]
  exact exists_comm

/-- The pass stops at the first line that declares a name for the second time. -/
theorem ofLines_eq_error_iff {lines : List Text} {error : DuplicateLabel} :
    ofLines lines = .error error ↔
      ∃ (above : List Text) (name : Text) (below : List Text), lines = above ++ (name ++ [':']) :: below ∧
        (labelKeys above).Nodup ∧ name.trim.upper ∈ labelKeys above ∧ error = ⟨name.trim⟩ := by
  have whole : ofLines lines = .error error ↔
      SymbolTable.empty.defineAll (declarationsFrom 0 lines) = .error error := by
    rw [ofLines, ofLinesFrom_eq]
    cases SymbolTable.empty.defineAll (declarationsFrom 0 lines) <;> simp [Except.map]
  rw [whole, SymbolTable.defineAll_eq_error_iff]
  constructor
  · rintro ⟨before, name, address, after, table, split, defined, refused⟩
    obtain ⟨above, below, rfl, rfl, _⟩ := declarationsFrom_eq_append_cons split
    obtain ⟨repeated, rfl, _⟩ := SymbolTable.define_eq_error_iff.mp refused
    have distinct := (SymbolTable.exists_defineAll_iff.mp ⟨table, defined⟩).1
    rw [← labelKeys_eq 0] at distinct
    exact ⟨above, name, below, rfl, distinct, (mem_addresses_of_defineAll defined).mp repeated, rfl⟩
  · rintro ⟨above, name, below, rfl, distinct, repeated, rfl⟩
    have free : ∀ declaration ∈ declarationsFrom 0 above, SymbolTable.empty.get? declaration.1 = none :=
      fun _ _ => getElem?_empty _
    rw [labelKeys_eq 0] at distinct
    obtain ⟨table, defined⟩ := SymbolTable.exists_defineAll_iff.mpr ⟨distinct, free⟩
    refine ⟨_, name, _, _, table, declarationsFrom_append_label 0 above below name, defined, ?_⟩
    exact SymbolTable.define_eq_error_iff.mpr ⟨(mem_addresses_of_defineAll defined).mpr repeated, rfl, rfl⟩

theorem instructionLines_eq_filter (lines : List Text) :
    instructionLines lines = lines.filter fun line => line.getLast? != some ':' := by
  apply List.filter_congr
  intro line _
  unfold labelName?
  split <;> rename_i colon <;> simp [colon]

theorem succeeds_iff {lines : List Text} : (∃ placement, ofLines lines = .ok placement) ↔ (labelKeys lines).Nodup := by
  rw [exists_ofLines_iff, labelKeys_eq 0]

section Placed

variable {lines : List Text} {placement : Placement} (placed : ofLines lines = .ok placement)
include placed

theorem mem_addresses_iff {name : Text} : name ∈ placement.symbols.addresses ↔ name ∈ labelKeys lines := by
  rw [ofLines, ofLinesFrom_eq] at placed
  cases defined : SymbolTable.empty.defineAll (declarationsFrom 0 lines) with
  | ok symbols =>
    rw [defined] at placed
    cases placed
    exact mem_addresses_of_defineAll defined
  | error error =>
    rw [defined] at placed
    cases placed

theorem mem_symbols_iff {name : Text} {address : Nat} :
    (name, address) ∈ placement.symbols.toList ↔
      ∃ label, (label, address) ∈ declarationsFrom 0 lines ∧ SymbolTable.key label = name := by
  rw [SymbolTable.mem_toList, (of_ofLines placed).2]

/-- Names that are declared later have no lower address. -/
theorem pairwise_addresses :
    (labelKeys lines).Pairwise fun earlier later => ∀ address address', (earlier, address) ∈ placement.symbols.toList →
      (later, address') ∈ placement.symbols.toList → address ≤ address' := by
  have bound : ∀ declaration ∈ declarationsFrom 0 lines, ∀ address,
      (SymbolTable.key declaration.1, address) ∈ placement.symbols.toList → address = declaration.2 := by
    intro declaration member address found
    have own := (mem_symbols_iff placed).mpr ⟨declaration.1, member, rfl⟩
    rw [SymbolTable.mem_toList] at own found
    exact Option.some.inj (found.symm.trans own)
  rw [labelKeys_eq 0, List.pairwise_map]
  refine (pairwise_declarationsFrom 0 lines).imp_of_mem ?_
  intro earlier later inEarlier inLater order address address' found found'
  rw [bound earlier inEarlier address found, bound later inLater address' found']
  exact order

end Placed

/-- The first pass in terms of the lines. It succeeds just when no name is declared twice. It keeps the lines
without a final colon as they are, and binds each name to the number of such lines above its label line. When it
fails, it reports the first label line whose name stands on an earlier one. -/
theorem ofLines_exact (lines : List Text) :
    ((∃ placement, ofLines lines = .ok placement) ↔ (labelKeys lines).Nodup) ∧
      (∀ placement, ofLines lines = .ok placement →
        placement.instructions = lines.filter (fun line => line.getLast? != some ':') ∧
        (∀ key address, (key, address) ∈ placement.symbols.toList ↔
          ∃ (above : List Text) (name : Text) (below : List Text), lines = above ++ (name ++ [':']) :: below ∧
            key = name.trim.upper ∧ address = (above.filter fun line => line.getLast? != some ':').length) ∧
        (∀ key address, (key, address) ∈ placement.symbols.toList → address ≤ placement.count) ∧
        (labelKeys lines).Pairwise fun earlier later => ∀ address address',
          (earlier, address) ∈ placement.symbols.toList → (later, address') ∈ placement.symbols.toList →
            address ≤ address') ∧
      ∀ error, ofLines lines = .error error ↔
        ∃ (above : List Text) (name : Text) (below : List Text), lines = above ++ (name ++ [':']) :: below ∧
          (labelKeys above).Nodup ∧ name.trim.upper ∈ labelKeys above ∧ error = ⟨name.trim⟩ := by
  refine ⟨succeeds_iff, ?_, fun error => ofLines_eq_error_iff⟩
  intro placement placed
  have instructions := (of_ofLines placed).1
  refine ⟨by rw [instructions, instructionLines_eq_filter], ?_, ?_, pairwise_addresses placed⟩
  · intro key address
    simp only [mem_symbols_iff placed, mem_declarationsFrom_iff, instructionLines_eq_filter, Nat.zero_add]
    constructor
    · rintro ⟨name, ⟨above, below, split, counted⟩, rfl⟩
      exact ⟨above, name, below, split, rfl, counted⟩
    · rintro ⟨above, name, below, split, rfl, counted⟩
      exact ⟨name, ⟨above, below, split, counted⟩, rfl⟩
  · intro key address found
    obtain ⟨label, declared, _⟩ := (mem_symbols_iff placed).mp found
    have bounds := mem_declarationsFrom declared
    rw [count, instructions]
    omega

end Placement

end SimtAsm
