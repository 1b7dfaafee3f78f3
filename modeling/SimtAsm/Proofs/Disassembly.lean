import Mathlib.Data.List.Forall2
import SimtAsm.Disassembly.Source
import SimtAsm.Proofs.Passes
import SimtAsm.Proofs.Printing

namespace SimtAsm

open Std Numeral Source

namespace Disassembly

/-- The branch targets of the words, in order and with repetitions. -/
def targets (words : List Word) : List Nat := words.filterMap branchTarget?

theorem mem_targets {words : List Word} {target : Nat} :
    target ∈ targets words ↔ ∃ word ∈ words, ∃ d, decode word = .ok d ∧ d.op = .br ∧ d.target = target := by
  simp only [targets, List.mem_filterMap]
  refine exists_congr fun word => and_congr_right fun _ => ?_
  unfold branchTarget?
  split
  · rename_i d decoded
    simp [decoded]
  · rename_i error decoded
    simp [decoded]

theorem labelName_isPlainToken (target : Nat) : IsPlainToken (labelName target) :=
  (decimal_isPlainToken target).cons (by decide)

theorem labelName_injective {a b : Nat} (same : labelName a = labelName b) : a = b :=
  decimal_injective (List.cons.inj same).2

theorem getElem?_foldl_insert (targets : List Nat) (table : ExtTreeMap Nat Text) (target : Nat) :
    (targets.foldl (fun labels target => labels.insert target (labelName target)) table)[target]? =
      if target ∈ targets then some (labelName target) else table[target]? := by
  induction targets generalizing table with
  | nil => simp
  | cons first rest ih =>
    simp only [List.foldl_cons, ih, ExtTreeMap.getElem?_insert, LawfulEqCmp.compare_eq_iff_eq, List.mem_cons]
    by_cases later : target ∈ rest
    · simp [later]
    · by_cases here : first = target
      · simp [here]
      · simp [later, here, Ne.symm here]

theorem getElem?_labels (words : List Word) (target : Nat) :
    (labels words)[target]? = if target ∈ targets words then some (labelName target) else none := by
  rw [labels, getElem?_foldl_insert, targets]
  simp

/-- One line for each word, and padding up to the furthest branch target. -/
theorem extent_eq (words : List Word) : extent words = max words.length ((targets words).max?.getD 0) := by
  rw [extent, List.foldl_max, ← targets]
  cases (targets words).max? <;> simp

theorem le_extent {words : List Word} {target : Nat} (member : target ∈ targets words) : target ≤ extent words := by
  obtain ⟨furthest, atFurthest⟩ := Option.isSome_iff_exists.mp (List.isSome_max?_of_mem member)
  have bound := (List.max?_eq_some_iff.mp atFurthest).2 target member
  rw [extent_eq, atFurthest, Option.getD_some]
  omega

theorem extent_eq_length {words : List Word} (within : ∀ target ∈ targets words, target ≤ words.length) :
    extent words = words.length := by
  rw [extent_eq]
  cases furthest : (targets words).max? with
  | none => simp
  | some target =>
    have bound := within target (List.max?_mem furthest)
    rw [Option.getD_some]
    omega

theorem length_slots (words : List Word) : (slots words).length = extent words := by
  have bound : words.length ≤ extent words := by
    rw [extent_eq]
    exact Nat.le_max_left _ _
  rw [slots, List.length_append, List.length_map, List.length_replicate]
  omega

/-- What cleaning leaves of an instruction line. -/
def statement (labels : ExtTreeMap Nat Text) : Option Word → Text
  | some word =>
    match decode word with
    | .ok d => d.text (labels[·]?)
    | .error _ => "NOP"
  | none => "NOP"

/-- What cleaning leaves of the lines of `slots`. -/
def statementsFrom (labels : ExtTreeMap Nat Text) (address : Nat) : List (Option Word) → List Text
  | [] => labelLine labels address
  | slot :: rest => labelLine labels address ++ statement labels slot :: statementsFrom labels (address + 1) rest

/-- A line without a newline that `statement` is left of. -/
structure CleansTo (line statement : Text) : Prop where
  free : '\n' ∉ line
  clean : (withoutComment line).trim = statement
  ne_nil : statement ≠ []

theorem nop_isStatement : IsStatement "NOP" :=
  ⟨⟨'N', rfl, by decide⟩, ⟨'P', rfl, by decide⟩, List.all_iff_forall_prop.mp (by decide)⟩

theorem blank_of_mem_indent : ∀ c ∈ ("    " : Text), Text.isBlank c = true := List.all_eq_true.mp (by decide)

theorem nop_cleansTo {comment : Text} (free : '\n' ∉ comment) : CleansTo ("    NOP ; " ++ comment) "NOP" := by
  have blank : ∀ c ∈ (" " : Text), Text.isBlank c = true := List.all_eq_true.mp (by decide)
  have split : ("    NOP ; " : Text) ++ comment = "    " ++ "NOP" ++ " " ++ ';' :: ' ' :: comment := by simp
  refine ⟨?_, ?_, by decide⟩
  · intro member
    rcases List.mem_append.mp member with member | member
    · exact absurd member (by decide)
    · exact free member
  · rw [split]
    exact clean_commented blank_of_mem_indent blank nop_isStatement (' ' :: comment)

theorem newline_notMem_message (error : UnknownOpcode) : '\n' ∉ error.message := by
  have shape : error.message = "unknown opcode 0b" ++ padded 2 4 error.opcode ++ " in word 0x" ++ error.word.hex := rfl
  have opcode := padded_isPlainToken (by decide : 1 < 2) (by decide) 4 error.opcode
  have word := padded_isPlainToken (by decide : 1 < 16) (by decide) 4 error.word.toNat
  rw [shape, Word.hex]
  intro member
  simp only [List.mem_append] at member
  rcases member with ((member | member) | member) | member
  · exact absurd member (by decide)
  · exact opcode.isStatement.newline_notMem member
  · exact absurd member (by decide)
  · exact word.isStatement.newline_notMem member

theorem instructionLine_of_ok {labels : ExtTreeMap Nat Text} {word : Word} {d : Decoded} (decoded : decode word = .ok d) :
    instructionLine labels (some word) = "    " ++ d.text (labels[·]?) := by
  delta instructionLine
  simp only [decoded]

theorem instructionLine_of_error {labels : ExtTreeMap Nat Text} {word : Word} {error : UnknownOpcode}
    (decoded : decode word = .error error) :
    instructionLine labels (some word) = "    NOP ; " ++ error.message := by
  delta instructionLine
  simp only [decoded]

theorem labelName?_append_colon (name : Text) : labelName? (name ++ ":") = some name := by
  simp [labelName?]

theorem instructionLines_labelLine (labels : ExtTreeMap Nat Text) (address : Nat) (rest : List Text) :
    Placement.instructionLines (labelLine labels address ++ rest) = Placement.instructionLines rest := by
  unfold labelLine
  split
  · exact Placement.instructionLines_of_label (labelName?_append_colon _) rest
  · rfl

section Named

variable {labels : ExtTreeMap Nat Text} (named : ∀ address name, labels[address]? = some name → name = labelName address)
include named

theorem targetName_isPlainToken (address : Nat) : IsPlainToken (labels[address]?.getD (decimal address)) := by
  cases found : labels[address]? with
  | some name =>
    rw [named address name found]
    exact labelName_isPlainToken address
  | none => exact decimal_isPlainToken address

theorem statement_isStatement (slot : Option Word) :
    IsStatement (statement labels slot) ∧ (statement labels slot).getLast? ≠ some ':' := by
  have nop : IsStatement "NOP" ∧ ("NOP" : Text).getLast? ≠ some ':' := ⟨nop_isStatement, by decide⟩
  cases slot with
  | none => exact nop
  | some word =>
    simp only [statement]
    split
    · rename_i d _
      exact Decoded.text_isStatement fun _ => targetName_isPlainToken named d.target
    · exact nop

theorem labelLine_cleansTo (address : Nat) : ∀ line ∈ labelLine labels address, CleansTo line line := by
  intro line member
  unfold labelLine at member
  split at member
  · rename_i name found
    rw [List.mem_singleton] at member
    subst member
    have plain := labelName_isPlainToken address
    rw [← named address name found] at plain
    have colon : IsStatement [':'] :=
      ⟨⟨':', rfl, by decide⟩, ⟨':', rfl, by decide⟩, List.all_iff_forall_prop.mp (by decide)⟩
    have line : IsStatement (name ++ [] ++ [':']) := plain.isStatement.append colon (List.forall_mem_nil _)
    rw [List.append_nil] at line
    exact ⟨line.newline_notMem, clean_indented (List.forall_mem_nil _) line, line.ne_nil⟩
  · simp at member

theorem instructionLine_cleansTo (slot : Option Word) :
    CleansTo (instructionLine labels slot) (statement labels slot) := by
  have valid := (statement_isStatement named slot).1
  cases slot with
  | none =>
    have padding : instructionLine labels none = "    NOP ; " ++ "padding" := rfl
    rw [padding]
    exact nop_cleansTo (by decide)
  | some word =>
    cases decoded : decode word with
    | ok d =>
      simp only [statement, decoded] at valid
      simp only [instructionLine_of_ok decoded, statement, decoded]
      refine ⟨?_, clean_indented blank_of_mem_indent valid, valid.ne_nil⟩
      intro member
      rcases List.mem_append.mp member with member | member
      · exact absurd member (by decide)
      · exact valid.newline_notMem member
    | error error =>
      simp only [instructionLine_of_error decoded, statement, decoded]
      exact nop_cleansTo (newline_notMem_message error)

/-- The disassembled lines are cleaned one by one. -/
theorem linesFrom_cleansTo (address : Nat) (slots : List (Option Word)) :
    List.Forall₂ CleansTo (linesFrom labels address slots) (statementsFrom labels address slots) := by
  have labelLines : ∀ address, List.Forall₂ CleansTo (labelLine labels address) (labelLine labels address) := by
    intro address
    exact List.forall₂_same.mpr (labelLine_cleansTo named address)
  induction slots generalizing address with
  | nil => exact labelLines address
  | cons slot rest ih =>
    exact List.rel_append (labelLines address) (.cons (instructionLine_cleansTo named slot) (ih (address + 1)))

theorem labelName?_statement (slot : Option Word) : labelName? (statement labels slot) = none := by
  simp [labelName?, (statement_isStatement named slot).2]

theorem declarationsFrom_labelLine (address : Nat) (rest : List Text) :
    Placement.declarationsFrom address (labelLine labels address ++ rest) =
      (if labels[address]?.isSome then [(labelName address, address)] else []) ++
        Placement.declarationsFrom address rest := by
  unfold labelLine
  split
  · rename_i name found
    simp only [List.singleton_append, Placement.declarationsFrom, labelName?_append_colon, found,
      named address name found, Option.isSome_some, if_true]
  · rename_i found
    simp [found]

/-- Each labelled address up to the end is declared, once and in order. -/
theorem declarationsFrom_statementsFrom (address : Nat) (slots : List (Option Word)) :
    Placement.declarationsFrom address (statementsFrom labels address slots) =
      ((List.range' address (slots.length + 1)).filter fun target => labels[target]?.isSome).map
        fun target => (labelName target, target) := by
  have declared := declarationsFrom_labelLine named
  induction slots generalizing address with
  | nil =>
    have last := declared address []
    rw [List.append_nil] at last
    simp only [statementsFrom, last, Placement.declarationsFrom, List.length_nil, List.range'_succ, List.range'_zero,
      List.filter_cons, List.filter_nil, List.append_nil]
    split <;> rfl
  | cons slot rest ih =>
    have addresses : List.range' address (rest.length + 1 + 1) = address :: List.range' (address + 1) (rest.length + 1) :=
      List.range'_succ
    simp only [statementsFrom, declared, Placement.declarationsFrom, labelName?_statement named, ih, List.length_cons,
      addresses, List.filter_cons]
    split <;> rfl

theorem instructionLines_statementsFrom (address : Nat) (slots : List (Option Word)) :
    Placement.instructionLines (statementsFrom labels address slots) = slots.map (statement labels) := by
  induction slots generalizing address with
  | nil =>
    have last := instructionLines_labelLine labels address []
    rw [List.append_nil] at last
    exact last
  | cons slot rest ih =>
    have instruction := labelName?_statement named slot
    rw [statementsFrom, instructionLines_labelLine, Placement.instructionLines_of_instruction instruction, ih,
      List.map_cons]

end Named

theorem named_labels (words : List Word) (address : Nat) (name : Text) (found : (labels words)[address]? = some name) :
    name = labelName address := by
  rw [getElem?_labels] at found
  split at found
  · exact (Option.some.inj found).symm
  · simp at found

theorem statements_of_cleansTo {lines statements : List Text} (each : List.Forall₂ CleansTo lines statements) :
    Source.statements (Text.ofLines lines) = statements := by
  have facts : (∀ line ∈ lines, '\n' ∉ line) ∧ (∀ line ∈ lines, (withoutComment line).trim ≠ []) ∧
      lines.map (fun line => (withoutComment line).trim) = statements := by
    induction each with
    | nil => simp
    | cons here _ ih =>
      obtain ⟨free, kept, same⟩ := ih
      simp only [List.forall_mem_cons, List.map_cons, here.clean, same]
      exact ⟨⟨here.free, free⟩, ⟨here.ne_nil, kept⟩, trivial⟩
  obtain ⟨free, kept, same⟩ := facts
  rw [statements_ofLines free kept, same]

theorem statements_disassemble (words : List Word) :
    Source.statements (disassemble words) = statementsFrom (labels words) 0 (slots words) :=
  statements_of_cleansTo (linesFrom_cleansTo (named_labels words) 0 (slots words))

end Disassembly

end SimtAsm
