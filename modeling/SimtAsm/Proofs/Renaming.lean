import Mathlib.Data.List.Nodup
import SimtAsm.Proofs.Labels
import SimtAsm.Proofs.Layout
import SimtAsm.Proofs.Linking
import SimtAsm.Proofs.Respelling
import SimtAsm.Proofs.Rewriting

namespace SimtAsm

open Std Source

/-- A name that is one token, and that neither starts a comment nor turns a branch into a declaration. -/
structure IsName (name : Text) : Prop where
  ne_nil : name ≠ []
  free : ∀ c ∈ name, isSeparator c = false ∧ c ≠ ';' ∧ c ≠ ':'

/-- Names become names, and they stay as equal or different as they were when case is ignored. -/
structure IsRenaming (rename : Text → Text) : Prop where
  isName {name : Text} : IsName name → IsName (rename name)
  upper_eq_iff {a b : Text} : IsName a → IsName b → ((rename a).upper = (rename b).upper ↔ a.upper = b.upper)

/-- Whether the mnemonic is that of a branch, with or without a condition. -/
def isBranch (statement : Text) : Bool := ((tokens statement).headD []).upper.take 2 == ['B', 'R']

/-- A label line declares a name, and a branch has names for operands. -/
structure HasNames (statement : Text) : Prop where
  label {name : Text} : labelName? statement = some name → IsName name.trim
  operands : labelName? statement = none → isBranch statement = true →
    ∀ operand ∈ (tokens statement).tail, IsName operand

/-- Renames what a label line declares, and each operand of a branch. -/
def renameStatement (rename : Text → Text) (statement : Text) : Text :=
  match labelName? statement with
  | some name => mapTokens rename name ++ [':']
  | none => if isBranch statement then mapOperands rename statement else statement

/-- Renames the statement on a line. Blanks and the comment around it stay. -/
def renameLine (rename : Text → Text) (line : Text) : Text :=
  let code := (withoutComment line).trimEnd
  renameStatement rename code ++ line.drop code.length

def renameLabels (rename : Text → Text) (source : Text) : Text :=
  Text.join ['\n'] (source.lines.map (renameLine rename))

def EncodeError.rename (rename : Text → Text) : EncodeError → EncodeError
  | undefinedLabel label => undefinedLabel (rename label).upper
  | error => error

namespace IsName

variable {name : Text} (isName : IsName name)
include isName

theorem isToken : IsToken name := ⟨isName.ne_nil, fun c member => (isName.free c member).1⟩

theorem solid : ∀ c ∈ name, Text.isBlank c = false :=
  fun c member => (Bool.or_eq_false_iff.mp (isName.free c member).1).1

theorem inside : ∀ c ∈ name, c ≠ ';' ∧ c ≠ '\n' := by
  intro c member
  refine ⟨(isName.free c member).2.1, ?_⟩
  rintro rfl
  exact absurd (isName.solid _ member) (by decide)

theorem upper : IsName name.upper := by
  refine ⟨by simpa [Text.upper] using isName.ne_nil, ?_⟩
  intro c member
  obtain ⟨x, inName, rfl⟩ := List.mem_map.mp member
  obtain ⟨apart, semicolon, colon⟩ := isName.free x inName
  rw [isSeparator_toUpper]
  exact ⟨apart, mt (Text.toUpper_eq_low_iff (by decide)).mp semicolon, mt (Text.toUpper_eq_low_iff (by decide)).mp colon⟩

theorem key_eq : SymbolTable.key name = name.upper := by
  rw [SymbolTable.key, isName.isToken.trim_eq]

end IsName

theorem isSeparator_of_isBlank {c : Char} (blank : Text.isBlank c = true) : isSeparator c = true := by
  rw [isSeparator, blank, Bool.true_or]

theorem isBranch_iff {statement : Text} :
    isBranch statement = true ↔
      ∃ mnemonic operands letters, tokens statement = mnemonic :: operands ∧ mnemonic.upper = 'B' :: 'R' :: letters := by
  rw [isBranch, beq_iff_eq]
  constructor
  · intro starts
    cases parts : tokens statement with
    | nil => simp [parts, Text.upper] at starts
    | cons mnemonic operands =>
      rw [parts, List.headD_cons] at starts
      refine ⟨mnemonic, operands, mnemonic.upper.drop 2, rfl, ?_⟩
      rw [← List.take_append_drop 2 mnemonic.upper, starts]
      rfl
  · rintro ⟨mnemonic, operands, letters, parts, same⟩
    rw [parts, List.headD_cons, same]
    rfl

theorem mapTokens_name {name : Text} (isName : IsName name.trim) (rename : Text → Text) :
    ∃ before after, name = before ++ name.trim ++ after ∧ (∀ c ∈ before, Text.isBlank c = true) ∧
      (∀ c ∈ after, Text.isBlank c = true) ∧ mapTokens rename name = before ++ rename name.trim ++ after := by
  obtain ⟨before, after, split, blankBefore, blankAfter, _, _⟩ := Text.exists_trim name
  refine ⟨before, after, split, blankBefore, blankAfter, ?_⟩
  have single := @mapTokens_single rename before name.trim after
    (fun c member => isSeparator_of_isBlank (blankBefore c member)) isName.isToken
    (fun c member => isSeparator_of_isBlank (blankAfter c member))
  rwa [← split] at single

section Statements

variable {rename : Text → Text} (isRenaming : IsRenaming rename) {statement : Text} (named : HasNames statement)
include isRenaming named

theorem isStatement_of_label (isStatement : IsStatement statement) {name : Text}
    (label : labelName? statement = some name) : IsStatement (mapTokens rename name ++ [':']) := by
  have new := isRenaming.isName (named.label label)
  have whole := labelName?_eq_some_iff.mp label
  have old : ∀ c ∈ name, c ≠ ';' ∧ c ≠ '\n' := fun c member => isStatement.inside c (by simp [whole, member])
  obtain ⟨before, after, split, blankBefore, _, mapped⟩ := mapTokens_name (named.label label) rename
  -- A statement does not start with a blank, so that nothing stands before the name.
  obtain rfl : before = [] := by
    cases before with
    | nil => rfl
    | cons c rest =>
      obtain ⟨x, atHead, solid⟩ := isStatement.first
      rw [whole, split] at atHead
      cases atHead
      rw [blankBefore c (List.mem_cons_self ..)] at solid
      cases solid
  rw [mapped]
  refine ⟨?_, ⟨':', by simp, by decide⟩, ?_⟩
  · obtain ⟨c, rest, same⟩ := List.exists_cons_of_ne_nil new.ne_nil
    exact ⟨c, by simp [same], new.solid c (by simp [same])⟩
  · intro c member
    simp only [List.nil_append, List.mem_append, List.mem_singleton] at member
    rcases member with (inName | inAfter) | rfl
    · exact new.inside c inName
    · exact old c (split ▸ List.mem_append_right _ inAfter)
    · decide

section Branch

variable (instruction : labelName? statement = none) (branch : isBranch statement = true)
include instruction branch

theorem exists_names :
    ∃ mnemonic operands letters, tokens statement = mnemonic :: operands ∧ mnemonic.upper = 'B' :: 'R' :: letters ∧
      ∀ operand ∈ operands, IsName operand ∧ IsName (rename operand) := by
  have names := named.operands instruction branch
  obtain ⟨mnemonic, operands, letters, parts, same⟩ := isBranch_iff.mp branch
  rw [parts, List.tail_cons] at names
  exact ⟨mnemonic, operands, letters, parts, same, fun x member => ⟨names x member, isRenaming.isName (names x member)⟩⟩

/-- A branch ends as before or in a character of a name. -/
theorem getLast?_of_branch {c : Char} (atLast : (mapOperands rename statement).getLast? = some c) :
    statement.getLast? = some c ∨ Text.isBlank c = false ∧ c ≠ ':' := by
  obtain ⟨mnemonic, operands, _, parts, _, names⟩ := exists_names isRenaming named instruction branch
  have nonempty : ∀ operand ∈ operands, rename operand ≠ [] := fun x member => (names x member).2.ne_nil
  rcases getLast?_mapOperands parts nonempty atLast with old | ⟨operand, member, inName⟩
  · exact Or.inl old
  · have new := (names operand member).2
    exact Or.inr ⟨new.solid c inName, (new.free c inName).2.2⟩

theorem isStatement_of_branch (isStatement : IsStatement statement) : IsStatement (mapOperands rename statement) := by
  obtain ⟨mnemonic, operands, _, parts, _, names⟩ := exists_names isRenaming named instruction branch
  have first : (mapOperands rename statement).head? = statement.head? := head?_mapOperands parts
  have nonempty : mapOperands rename statement ≠ [] := by
    intro empty
    rw [empty, eq_comm, List.head?_nil, List.head?_eq_none_iff] at first
    exact isStatement.ne_nil first
  refine ⟨first ▸ isStatement.first, ?_, ?_⟩
  · have atLast := List.getLast?_eq_some_getLast nonempty
    refine ⟨_, atLast, ?_⟩
    rcases getLast?_of_branch isRenaming named instruction branch atLast with old | new
    · obtain ⟨x, atLast', solid⟩ := isStatement.last
      rwa [Option.some.inj (old.symm.trans atLast')]
    · exact new.1
  · intro c member
    rcases mem_mapOperands parts member with old | ⟨operand, inOperands, inName⟩
    · exact isStatement.inside c old
    · exact (names operand inOperands).2.inside c inName

end Branch

theorem isStatement_renameStatement (isStatement : IsStatement statement) :
    IsStatement (renameStatement rename statement) := by
  unfold renameStatement
  split
  · rename_i label
    exact isStatement_of_label isRenaming named isStatement label
  · rename_i instruction
    split
    · rename_i branch
      exact isStatement_of_branch isRenaming named instruction branch isStatement
    · exact isStatement

/-- Label lines stay label lines, and instructions stay instructions. -/
theorem labelName?_renameStatement :
    labelName? (renameStatement rename statement) = (labelName? statement).map (mapTokens rename) := by
  unfold renameStatement
  split
  · rename_i name label
    rw [label, Option.map_some]
    exact labelName?_eq_some_iff.mpr rfl
  · rename_i instruction
    rw [instruction, Option.map_none]
    split
    · rename_i branch
      have noColon : statement.getLast? ≠ some ':' := by
        intro colon
        rw [labelName?, if_pos colon] at instruction
        cases instruction
      apply if_neg
      intro colon
      rcases getLast?_of_branch isRenaming named instruction branch colon with old | new
      · exact noColon old
      · exact new.2 rfl
    · exact instruction

end Statements

/-- Blanks in front of a statement stay there. -/
theorem renameStatement_append_of_blank {before statement : Text} (blank : ∀ c ∈ before, Text.isBlank c = true)
    (nonempty : statement ≠ []) (rename : Text → Text) :
    renameStatement rename (before ++ statement) = before ++ renameStatement rename statement := by
  have separates : ∀ c ∈ before, isSeparator c = true := fun c member => isSeparator_of_isBlank (blank c member)
  have label : labelName? (before ++ statement) = (labelName? statement).map (before ++ ·) := by
    rw [labelName?, List.getLast?_append_of_ne_nil _ nonempty, List.dropLast_append_of_ne_nil nonempty, labelName?]
    split <;> rfl
  have branch : isBranch (before ++ statement) = isBranch statement := by
    rw [isBranch, tokens_append_of_separators separates, isBranch]
  rw [renameStatement, label, branch, renameStatement]
  cases labelName? statement with
  | some name =>
    simp only [Option.map_some, mapTokens_append_of_separators separates, List.append_assoc]
  | none =>
    simp only [Option.map_none, mapOperands_append_of_separators separates]
    split <;> rfl

/-- A line without a statement stays. -/
theorem renameLine_of_blank {line : Text} (blank : ∀ c ∈ withoutComment line, Text.isBlank c = true)
    (rename : Text → Text) : renameLine rename line = line := by
  have nothing : (withoutComment line).trimEnd = [] := by
    rw [Text.trimEnd, List.reverse_eq_nil_iff, List.dropWhile_eq_nil_iff]
    exact fun c member => blank c (List.mem_reverse.mp member)
  rw [renameLine, nothing]
  rfl

/-- All that stands around a statement stays. -/
theorem renameLine_eq {before statement after comment : Text} (padBefore : IsPadding before)
    (padAfter : IsPadding after) (isStatement : IsStatement statement)
    (code : withoutComment (before ++ statement ++ after ++ comment) = before ++ statement ++ after)
    (rename : Text → Text) :
    renameLine rename (before ++ statement ++ after ++ comment) =
      before ++ renameStatement rename statement ++ after ++ comment := by
  obtain ⟨c, atLast, solid⟩ := isStatement.last
  have last : ∃ c ∈ (before ++ statement).getLast?, Text.isBlank c = false := by
    refine ⟨c, ?_, solid⟩
    rw [List.getLast?_append, Option.mem_def.mp atLast]
    rfl
  have behind : (before ++ statement ++ after ++ comment).drop (before ++ statement).length = after ++ comment := by
    rw [List.append_assoc (before ++ statement)]
    exact List.drop_left
  rw [renameLine, code, Text.trimEnd_append padAfter.blank last, behind,
    renameStatement_append_of_blank padBefore.blank isStatement.ne_nil, List.append_assoc _ after]

section Lines

variable {rename : Text → Text} (isRenaming : IsRenaming rename)
include isRenaming

theorem statements_renameLine {line : Text} (free : '\n' ∉ line)
    (named : ∀ statement ∈ statements line, HasNames statement) :
    statements (renameLine rename line) = (statements line).map (renameStatement rename) := by
  obtain ⟨before, after, comment, whole, code, padBefore, padAfter, isComment⟩ := exists_line free
  by_cases empty : (withoutComment line).trim = []
  · have blank : ∀ c ∈ withoutComment line, Text.isBlank c = true := by
      rw [code, empty, List.append_nil]
      exact List.forall_mem_append.mpr ⟨padBefore.blank, padAfter.blank⟩
    rw [renameLine_of_blank blank, statements_of_line free, empty]
    rfl
  · have member : (withoutComment line).trim ∈ statements line := by
      rw [statements_of_line free]
      simp [empty]
    have isStatement := isStatement_of_mem_statements member
    have isStatement' := isStatement_renameStatement isRenaming (named _ member) isStatement
    generalize (withoutComment line).trim = statement at *
    subst whole
    rw [renameLine_eq padBefore padAfter isStatement code,
      statements_surround padBefore padAfter isComment isStatement'.newline_notMem, isStatement'.statements_eq,
      statements_surround padBefore padAfter isComment isStatement.newline_notMem, isStatement.statements_eq]
    rfl

/-- Renaming the source is renaming its statements. -/
theorem statements_renameLabels {source : Text} (named : ∀ statement ∈ statements source, HasNames statement) :
    statements (renameLabels rename source) = (statements source).map (renameStatement rename) := by
  have split : statements source = source.lines.flatMap statements := by
    rw [← statements_join, Text.join_lines]
  have each : ∀ line ∈ source.lines,
      statements (renameLine rename line) = (statements line).map (renameStatement rename) := by
    intro line inLines
    refine statements_renameLine isRenaming ?_ ?_
    · intro newline
      simpa using Text.free_of_mem_pieces inLines _ newline
    · intro statement member
      exact named statement (split ▸ List.mem_flatMap.mpr ⟨line, inLines, member⟩)
  rw [renameLabels, statements_join, List.flatMap_map, List.flatMap_congr each, split, List.map_flatMap]

end Lines

theorem IsRenaming.upper_rename_upper {rename : Text → Text} (isRenaming : IsRenaming rename) {name : Text}
    (isName : IsName name) : (rename name.upper).upper = (rename name).upper :=
  (isRenaming.upper_eq_iff isName.upper isName).mpr (Text.upper_upper name)

theorem key_mapTokens {rename : Text → Text} (isRenaming : IsRenaming rename) {name : Text} (isName : IsName name.trim) :
    SymbolTable.key (mapTokens rename name) = (rename (SymbolTable.key name)).upper := by
  obtain ⟨before, after, _, blankBefore, blankAfter, mapped⟩ := mapTokens_name isName rename
  rw [mapped, SymbolTable.key, Text.trim_surround blankBefore blankAfter, (isRenaming.isName isName).isToken.trim_eq,
    SymbolTable.key, isRenaming.upper_rename_upper isName]

section Placed

open Placement

variable {lines : List Text} (named : ∀ line ∈ lines, HasNames line)
include named

theorem isName_of_declared {label : Text} {address : Nat} (declared : (label, address) ∈ declarationsFrom 0 lines) :
    IsName label.trim := by
  obtain ⟨above, below, rfl, _⟩ := mem_declarationsFrom_iff.mp declared
  exact (named (label ++ [':']) (by simp)).label (labelName?_eq_some_iff.mpr rfl)

theorem isName_of_mem_labelKeys {key : Text} (member : key ∈ labelKeys lines) : IsName key ∧ key.upper = key := by
  rw [labelKeys_eq 0] at member
  obtain ⟨⟨label, address⟩, declared, rfl⟩ := List.mem_map.mp member
  exact ⟨(isName_of_declared named declared).upper, Text.upper_upper _⟩

variable {rename : Text → Text} (isRenaming : IsRenaming rename)
include isRenaming

theorem declarationsFrom_rename :
    declarationsFrom 0 (lines.map (renameStatement rename)) =
      (declarationsFrom 0 lines).map fun declaration => (mapTokens rename declaration.1, declaration.2) :=
  declarationsFrom_map (fun line member => labelName?_renameStatement isRenaming (named line member)) 0

theorem labelKeys_rename :
    labelKeys (lines.map (renameStatement rename)) = (labelKeys lines).map fun key => (rename key).upper := by
  rw [labelKeys_eq 0, labelKeys_eq 0, declarationsFrom_rename named isRenaming, List.map_map, List.map_map]
  apply List.map_congr_left
  rintro ⟨label, address⟩ declared
  exact key_mapTokens isRenaming (isName_of_declared named declared)

theorem nodup_labelKeys_rename :
    (labelKeys (lines.map (renameStatement rename))).Nodup ↔ (labelKeys lines).Nodup := by
  rw [labelKeys_rename named isRenaming]
  constructor
  · exact List.Nodup.of_map _
  · refine List.Nodup.map_on ?_
    intro a inA b inB same
    obtain ⟨nameA, foldedA⟩ := isName_of_mem_labelKeys named inA
    obtain ⟨nameB, foldedB⟩ := isName_of_mem_labelKeys named inB
    rw [← foldedA, ← foldedB]
    exact (isRenaming.upper_eq_iff nameA nameB).mp same

variable {placement placement' : Placement} (placed : ofLines lines = .ok placement)
  (placed' : ofLines (lines.map (renameStatement rename)) = .ok placement')
include placed placed'

theorem mem_symbols_rename {name : Text} {address : Nat} :
    (name, address) ∈ placement'.symbols.toList ↔
      ∃ old, (old, address) ∈ placement.symbols.toList ∧ name = (rename old).upper := by
  simp only [mem_symbols_iff placed, mem_symbols_iff placed', declarationsFrom_rename named isRenaming, List.mem_map]
  constructor
  · rintro ⟨_, ⟨⟨label, _⟩, declared, ⟨⟩⟩, rfl⟩
    have isName := isName_of_declared named declared
    exact ⟨_, ⟨label, declared, rfl⟩, key_mapTokens isRenaming isName⟩
  · rintro ⟨_, ⟨label, declared, rfl⟩, rfl⟩
    have isName := isName_of_declared named declared
    exact ⟨_, ⟨_, declared, rfl⟩, key_mapTokens isRenaming isName⟩

/-- The new table has at the new name what the old one has at the old name. -/
theorem get?_rename {name : Text} (isName : IsName name) :
    placement'.symbols.get? (rename name) = placement.symbols.get? name := by
  ext address
  rw [SymbolTable.get?, SymbolTable.get?, ← SymbolTable.mem_toList, ← SymbolTable.mem_toList,
    mem_symbols_rename named isRenaming placed placed', isName.key_eq, (isRenaming.isName isName).key_eq]
  constructor
  · rintro ⟨old, bound, same⟩
    obtain ⟨label, declared, rfl⟩ := (mem_symbols_iff placed).mp bound
    have oldName := (isName_of_declared named declared).upper
    have folded := (isRenaming.upper_eq_iff isName oldName).mp same
    rwa [folded, Text.upper_upper]
  · intro bound
    exact ⟨name.upper, bound, (isRenaming.upper_rename_upper isName).symm⟩

end Placed

theorem Instr.ofTokens_of_branch_count {mnemonic letters : Text} (same : mnemonic.upper = 'B' :: 'R' :: letters)
    {operands : List Text} (count : operands.length ≠ 1) :
    ofTokens (mnemonic :: operands) = .error (.operandCount mnemonic.upper 1 operands.length) := by
  rw [ofTokens, readMnemonic_of_branch same]
  cases operands with
  | nil => rfl
  | cons first rest =>
    cases rest with
    | nil => exact absurd rfl count
    | cons => rfl

theorem isBranch_of_ofTokens {statement label : Text} {cond : Cond}
    (read : Instr.ofTokens (tokens statement) = .ok ⟨.br, .branch cond label⟩) : isBranch statement = true := by
  cases parts : tokens statement with
  | nil =>
    rw [parts] at read
    cases read
  | cons mnemonic operands =>
    rw [parts] at read
    obtain ⟨_, readOp, layout, _⟩ := Instr.ofTokens_cons_eq_ok_iff.mp read
    obtain ⟨_, letters, same, _⟩ := upper_of_readMnemonic_branch readOp layout.symm
    exact isBranch_iff.mpr ⟨mnemonic, operands, letters, parts, same⟩

/-- A renamed instruction gives the same word or the same error, in which a missing label has its new name. -/
theorem encodeLine_renameStatement {rename : Text → Text} (isRenaming : IsRenaming rename) {symbols symbols' : SymbolTable}
    (renamed : ∀ {name}, IsName name → symbols'.get? (rename name) = symbols.get? name) {statement : Text}
    (named : HasNames statement) (instruction : labelName? statement = none) :
    encodeLine symbols' (renameStatement rename statement) =
      (encodeLine symbols statement).mapError (EncodeError.rename rename) := by
  by_cases branch : isBranch statement = true
  · have shown : renameStatement rename statement = mapOperands rename statement := by
      simp only [renameStatement, instruction, branch, if_true]
    obtain ⟨mnemonic, operands, letters, parts, same, names⟩ := exists_names isRenaming named instruction branch
    have parts' := tokens_mapOperands parts fun operand member => (names operand member).2.isToken
    rw [shown, encodeLine, encodeLine, parts, parts']
    by_cases count : operands.length = 1
    · obtain ⟨label, rfl⟩ := List.length_eq_one_iff.mp count
      have isName := (names label (List.mem_cons_self ..)).1
      rw [List.map_singleton, Instr.ofTokens_of_branch same, Instr.ofTokens_of_branch same]
      change Instr.encode symbols' ⟨.br, .branch _ (rename label).upper⟩ =
        (Instr.encode symbols ⟨.br, .branch _ label.upper⟩).mapError _
      have sameLabel : symbols'.get? (rename label).upper = symbols.get? label.upper := by
        rw [SymbolTable.get?_upper, SymbolTable.get?_upper, renamed isName]
      cases found : symbols.get? label.upper with
      | some address =>
        rw [Instr.encode_branch found, Instr.encode_branch (sameLabel.trans found)]
        rfl
      | none =>
        have newName := isRenaming.upper_rename_upper isName
        rw [Instr.encode_branch_of_missing found, Instr.encode_branch_of_missing (sameLabel.trans found)]
        simp only [Except.mapError, EncodeError.rename, newName]
    · have count' : (operands.map rename).length ≠ 1 := by rwa [List.length_map]
      rw [Instr.ofTokens_of_branch_count same count, Instr.ofTokens_of_branch_count same count', List.length_map]
      rfl
  · have shown : renameStatement rename statement = statement := by
      simp only [renameStatement, instruction, branch, Bool.false_eq_true, if_false]
    rcases encodeLine_cases statement with ⟨label, read, _⟩ | ⟨outcome, fixed, resolved, _⟩
    · exact absurd (isBranch_of_ofTokens read) branch
    · rw [shown, fixed, fixed]
      cases outcome with
      | ok word => rfl
      | error error =>
        cases error with
        | undefinedLabel label => exact absurd rfl (resolved label)
        | _ => rfl

/-- Label names do not matter. A source whose labels are renamed one to one, case aside, assembles just when the source
does. It has the same word at each address that had one, and the same error at each other address, but that a missing
label is reported under its new name. Its labels are the old ones under their new names. -/
theorem label_names_immaterial {rename : Text → Text} (isRenaming : IsRenaming rename) {source : Text}
    (named : ∀ statement ∈ statements source, HasNames statement) :
    ((∃ program, assemble (renameLabels rename source) = .ok program) ↔ ∃ program, assemble source = .ok program) ∧
      ∀ program program', assemble source = .ok program → assemble (renameLabels rename source) = .ok program' →
        program'.entries = program.entries.map
          (Entry.rewrite (renameStatement rename) (Except.mapError (EncodeError.rename rename))) ∧
        ∀ name address, (name, address) ∈ program'.symbols.toList ↔
          ∃ old, (old, address) ∈ program.symbols.toList ∧ name = (rename old).upper := by
  have lines := statements_renameLabels isRenaming named
  have distinct := nodup_labelKeys_rename named isRenaming
  rw [← lines] at distinct
  refine ⟨⟨?_, ?_⟩, ?_⟩
  · rintro ⟨program, assembled⟩
    exact exists_assemble_of_nodup (distinct.mp (nodup_of_assemble assembled))
  · rintro ⟨program, assembled⟩
    exact exists_assemble_of_nodup (distinct.mpr (nodup_of_assemble assembled))
  · intro program program' assembled assembled'
    obtain ⟨placement, placed, rfl⟩ := assemble_eq_ok_iff.mp assembled
    obtain ⟨placement', placed', rfl⟩ := assemble_eq_ok_iff.mp assembled'
    rw [lines] at placed'
    refine ⟨?_, fun name address => mem_symbols_rename named isRenaming placed placed'⟩
    have instructions := (Placement.of_ofLines placed).1
    have instructions' := (Placement.of_ofLines placed').1
    rw [Placement.instructionLines_map fun line member => labelName?_renameStatement isRenaming (named line member),
      ← instructions] at instructions'
    rw [Program.ofPlacement, instructions']
    apply entriesFrom_map
    intro line member
    rw [instructions] at member
    obtain ⟨inLines, isInstruction⟩ := List.mem_filter.mp member
    exact encodeLine_renameStatement isRenaming (get?_rename named isRenaming placed placed') (named line inLines)
      (by simpa using isInstruction)

/-- A label that looks like a number gets a name that looks like a register, and so does one that is missing. -/
theorem label_names_immaterial_register :
    ∃ program program', assemble "1: ;1\nBR 1\nBR B" = .ok program ∧ assemble "R1: ;1\nBR R1\nBR RB" = .ok program' ∧
      program'.entries = program.entries.map
        (Entry.rewrite (renameStatement ('R' :: ·)) (Except.mapError (EncodeError.rename ('R' :: ·)))) := by
  have isRenaming : IsRenaming ('R' :: ·) := by
    refine ⟨fun isName => ⟨List.cons_ne_nil _ _, List.forall_mem_cons.mpr ⟨by decide, isName.free⟩⟩, ?_⟩
    intro a b _ _
    simp [Text.upper]
  have one : IsName "1" := ⟨List.cons_ne_nil _ _, List.forall_mem_singleton.mpr (by decide)⟩
  have letter : IsName "B" := ⟨List.cons_ne_nil _ _, List.forall_mem_singleton.mpr (by decide)⟩
  have declared : HasNames "1:" := by
    refine ⟨?_, fun instruction => (by cases instruction)⟩
    rintro name ⟨⟩
    exact one
  have bound : HasNames "BR 1" := ⟨fun label => (by cases label), fun _ _ => List.forall_mem_singleton.mpr one⟩
  have missing : HasNames "BR B" := ⟨fun label => (by cases label), fun _ _ => List.forall_mem_singleton.mpr letter⟩
  have named : ∀ statement ∈ statements "1: ;1\nBR 1\nBR B", HasNames statement :=
    List.forall_mem_cons.mpr ⟨declared, List.forall_mem_cons.mpr ⟨bound, List.forall_mem_singleton.mpr missing⟩⟩
  have first : assemble "1: ;1\nBR 1\nBR B" = .ok (.ofPlacement
      ⟨⟨(∅ : ExtTreeMap Text Nat).insert "1" 0⟩, ["BR 1", "BR B"]⟩) := rfl
  have second : assemble "R1: ;1\nBR R1\nBR RB" = .ok (.ofPlacement
      ⟨⟨(∅ : ExtTreeMap Text Nat).insert "R1" 0⟩, ["BR R1", "BR RB"]⟩) := rfl
  have renamed : renameLabels ('R' :: ·) "1: ;1\nBR 1\nBR B" = "R1: ;1\nBR R1\nBR RB" := rfl
  have alike := (label_names_immaterial isRenaming named).2 _ _ first (renamed ▸ second)
  exact ⟨_, _, first, second, alike.1⟩

end SimtAsm
