import Mathlib.Data.List.Basic
import Mathlib.Logic.Relation
import SimtAsm.Proofs.Lines
import SimtAsm.Proofs.Passes

namespace SimtAsm

namespace Source

/-- What can stand above a line: nothing, or a text that ends in a newline. -/
inductive Above : Text → Prop
  | start : Above []
  | newline (text : Text) : Above (text ++ ['\n'])

/-- What can stand below a line: nothing, or a newline and a text. -/
inductive Below : Text → Prop
  | finish : Below []
  | newline (text : Text) : Below ('\n' :: text)

/-- Blanks that stay on one line. -/
def IsPadding (text : Text) : Prop := ∀ c ∈ text, Text.isBlank c = true ∧ c ≠ '\n'

/-- Nothing, or a semicolon and any text up to the end of the line. -/
inductive IsComment : Text → Prop
  | none : IsComment []
  | some {text : Text} : '\n' ∉ text → IsComment (';' :: text)

/-- What a layout edit can do to a single line. -/
inductive LineEdit (line : Text) : Text → Prop
  | indent {blanks : Text} : IsPadding blanks → LineEdit line (blanks ++ line)
  | trail {blanks : Text} : IsPadding blanks → LineEdit line (line ++ blanks)
  | comment {text : Text} : '\n' ∉ text → LineEdit line (line ++ ';' :: text)

/-- One layout edit of a source: a new line without a statement, an edit of one line, a carriage return before a
newline, or a final newline more or less. A line can be inserted at the end of a source once that ends in a newline. -/
inductive LayoutEdit : Text → Text → Prop
  | insertLine {above blanks comment : Text} (below : Text) : Above above → IsPadding blanks → IsComment comment →
      LayoutEdit (above ++ below) (above ++ (blanks ++ comment ++ '\n' :: below))
  | editLine {above line edited below : Text} : Above above → '\n' ∉ line → Below below → LineEdit line edited →
      LayoutEdit (above ++ line ++ below) (above ++ edited ++ below)
  | carriageReturn (above below : Text) : LayoutEdit (above ++ '\n' :: below) (above ++ '\r' :: '\n' :: below)
  | addNewline (source : Text) : LayoutEdit source (source ++ ['\n'])
  | dropNewline (source : Text) : LayoutEdit (source ++ ['\n']) source

theorem statements_concat_newline (source : Text) : statements (source ++ ['\n']) = statements source := by
  rw [statements_append]
  exact List.append_nil _

theorem Above.statements_append {above : Text} (isAbove : Above above) (rest : Text) :
    statements (above ++ rest) = statements above ++ statements rest := by
  cases isAbove with
  | start => rfl
  | newline text =>
    rw [statements_concat_newline, List.append_assoc, List.singleton_append, Source.statements_append]

theorem Below.statements_append {below : Text} (isBelow : Below below) (line : Text) :
    statements (line ++ below) = statements line ++ statements below := by
  cases isBelow with
  | finish => rw [List.append_nil, show statements [] = [] from rfl, List.append_nil]
  | newline text =>
    have first : statements ('\n' :: text) = statements text := Source.statements_append [] text
    rw [Source.statements_append, first]

/-- The last line of a text, and what stands above it. -/
theorem exists_last_line (text : Text) : ∃ above line, text = above ++ line ∧ Above above ∧ '\n' ∉ line := by
  induction text with
  | nil => exact ⟨[], [], rfl, .start, by simp⟩
  | cons c rest ih =>
    obtain ⟨above, line, rfl, isAbove, free⟩ := ih
    cases isAbove with
    | newline text => exact ⟨c :: text ++ ['\n'], line, by simp, .newline (c :: text), free⟩
    | start =>
      by_cases newline : c = '\n'
      · exact ⟨['\n'], line, by simp [newline], .newline [], free⟩
      · exact ⟨[], c :: line, rfl, .start, by simp [free, Ne.symm newline]⟩

theorem statements_of_line {line : Text} (free : '\n' ∉ line) :
    statements line = [(withoutComment line).trim].filter fun statement => !statement.isEmpty := by
  have single : Text.lines line = [line] := by
    apply Text.pieces_of_free
    intro c member
    rw [beq_eq_false_iff_ne]
    rintro rfl
    exact free member
  rw [statements, single, List.map_singleton]

/-- A comment hides whatever is put behind it. -/
theorem withoutComment_append_eq (line more : Text) :
    withoutComment (line ++ more) = if ';' ∈ line then withoutComment line else line ++ withoutComment more := by
  split
  · rename_i commented
    obtain ⟨code, comment, rfl, free⟩ := List.eq_append_cons_of_mem commented
    have noComment : ∀ c ∈ code, c ≠ ';' := fun c member same => free (same ▸ member)
    rw [List.append_assoc, List.cons_append, withoutComment_append noComment, withoutComment_append noComment]
  · rename_i free
    have kept : ∀ c ∈ line, (c != ';') = true := fun c member => bne_iff_ne.mpr fun same => free (same ▸ member)
    exact List.takeWhile_append_of_pos kept

theorem IsPadding.blank {blanks : Text} (padding : IsPadding blanks) : ∀ c ∈ blanks, Text.isBlank c = true :=
  fun c member => (padding c member).1

theorem IsPadding.newline_notMem {blanks : Text} (padding : IsPadding blanks) : '\n' ∉ blanks :=
  fun member => (padding _ member).2 rfl

theorem IsPadding.semicolon_notMem {blanks : Text} (padding : IsPadding blanks) : ';' ∉ blanks :=
  fun member => not_semicolon_of_blank (padding.blank _ member) rfl

theorem IsComment.newline_notMem {comment : Text} (isComment : IsComment comment) : '\n' ∉ comment := by
  cases isComment with
  | none => simp
  | some free => simp [free]

theorem IsComment.withoutComment_eq {comment : Text} (isComment : IsComment comment) : withoutComment comment = [] := by
  cases isComment <;> rfl

/-- A line of blanks, with or without a comment, has no statement. -/
theorem statements_of_padding {blanks comment : Text} (padding : IsPadding blanks) (isComment : IsComment comment) :
    statements (blanks ++ comment) = [] := by
  have free : '\n' ∉ blanks ++ comment := by simp [padding.newline_notMem, isComment.newline_notMem]
  rw [statements_of_line free, withoutComment_append_eq, if_neg padding.semicolon_notMem, isComment.withoutComment_eq,
    List.append_nil, Text.trim_of_blank padding.blank]
  rfl

namespace LineEdit

variable {line edited : Text}

theorem newline_notMem (edit : LineEdit line edited) (free : '\n' ∉ line) : '\n' ∉ edited := by
  cases edit with
  | indent padding | trail padding => simp [free, padding.newline_notMem]
  | comment inside => simp [free, inside]

theorem clean_eq (edit : LineEdit line edited) : (withoutComment edited).trim = (withoutComment line).trim := by
  cases edit with
  | @indent blanks padding =>
    have trimmed := Text.trim_surround padding.blank (List.forall_mem_nil _) (withoutComment line)
    rw [List.append_nil] at trimmed
    rw [withoutComment_append_eq, if_neg padding.semicolon_notMem, trimmed]
  | @trail blanks padding =>
    rw [withoutComment_append_eq]
    split
    · rfl
    · rename_i free
      have whole := withoutComment_of_free fun c member same => free (same ▸ member)
      have wholeBlanks := withoutComment_of_free fun c member => not_semicolon_of_blank (padding.blank c member)
      have trimmed := Text.trim_surround (List.forall_mem_nil _) padding.blank line
      rw [whole, wholeBlanks]
      exact trimmed
  | @comment text inside =>
    rw [withoutComment_append_eq]
    split
    · rfl
    · rename_i free
      have whole := withoutComment_of_free fun c member same => free (same ▸ member)
      rw [whole, (IsComment.some inside).withoutComment_eq, List.append_nil]

theorem statements_eq (edit : LineEdit line edited) (free : '\n' ∉ line) : statements edited = statements line := by
  rw [statements_of_line (edit.newline_notMem free), statements_of_line free, edit.clean_eq]

end LineEdit

theorem statements_editLine {above line edited below : Text} (isAbove : Above above) (free : '\n' ∉ line)
    (isBelow : Below below) (edit : LineEdit line edited) :
    statements (above ++ edited ++ below) = statements (above ++ line ++ below) := by
  rw [isBelow.statements_append, isBelow.statements_append, isAbove.statements_append, isAbove.statements_append,
    edit.statements_eq free]

/-- No layout edit touches the statements. -/
theorem LayoutEdit.statements_eq {source edited : Text} (edit : LayoutEdit source edited) :
    statements edited = statements source := by
  cases edit with
  | insertLine below isAbove padding isComment =>
    rw [isAbove.statements_append, isAbove.statements_append, statements_append, statements_of_padding padding isComment,
      List.nil_append]
  | editLine isAbove free isBelow edit => exact statements_editLine isAbove free isBelow edit
  | carriageReturn above below =>
    -- The carriage return is a blank at the end of the line above.
    obtain ⟨above, line, rfl, isAbove, free⟩ := exists_last_line above
    have padding : IsPadding ['\r'] := by simp [IsPadding, Text.isBlank]
    have edited := statements_editLine isAbove free (.newline below) (.trail padding)
    simpa only [List.append_assoc, List.singleton_append] using edited
  | addNewline source => exact statements_concat_newline source
  | dropNewline source => exact (statements_concat_newline edited).symm

theorem statements_of_layoutEdits {source edited : Text} (edits : Relation.ReflTransGen LayoutEdit source edited) :
    statements edited = statements source := by
  induction edits with
  | refl => rfl
  | tail _ edit ih => exact edit.statements_eq.trans ih

/-- A line is its statement with blanks around it and a comment behind. -/
theorem exists_line {line : Text} (free : '\n' ∉ line) :
    ∃ before after comment, line = before ++ (withoutComment line).trim ++ after ++ comment ∧
      withoutComment line = before ++ (withoutComment line).trim ++ after ∧ IsPadding before ∧ IsPadding after ∧
      IsComment comment := by
  obtain ⟨before, after, split, blankBefore, blankAfter, _, _⟩ := Text.exists_trim (withoutComment line)
  have whole : withoutComment line ++ line.dropWhile (· != ';') = line := List.takeWhile_append_dropWhile
  have inCode : ∀ c ∈ withoutComment line, c ≠ '\n' := by
    rintro c member rfl
    exact free (whole ▸ List.mem_append_left _ member)
  refine ⟨before, after, line.dropWhile (· != ';'), by rw [← split, whole], split, ?_, ?_, ?_⟩
  · intro c member
    exact ⟨blankBefore c member, inCode c (by rw [split]; simp [member])⟩
  · intro c member
    exact ⟨blankAfter c member, inCode c (by rw [split]; simp [member])⟩
  · cases comment : line.dropWhile (· != ';') with
    | nil => exact .none
    | cons c rest =>
      have semicolon := Text.solid_of_head_dropWhile (congrArg List.head? comment)
      obtain rfl : c = ';' := by simpa using semicolon
      rw [comment] at whole
      refine .some fun member => free ?_
      rw [← whole]
      simp [member]

/-- Padding and a comment around a line do not matter to its statements. -/
theorem statements_surround {before line after comment : Text} (padBefore : IsPadding before)
    (padAfter : IsPadding after) (isComment : IsComment comment) (free : '\n' ∉ line) :
    statements (before ++ line ++ after ++ comment) = statements line := by
  have indented : '\n' ∉ before ++ line := by simp [free, padBefore.newline_notMem]
  have trailed : '\n' ∉ before ++ line ++ after := by simp [free, padBefore.newline_notMem, padAfter.newline_notMem]
  have plain : statements (before ++ line ++ after) = statements line :=
    ((LineEdit.trail padAfter).statements_eq indented).trans ((LineEdit.indent padBefore).statements_eq free)
  cases isComment with
  | none => rwa [List.append_nil]
  | some inside => exact ((LineEdit.comment inside).statements_eq trailed).trans plain

theorem isStatement_of_mem_statements {source statement : Text} (member : statement ∈ statements source) :
    IsStatement statement := by
  obtain ⟨cleaned, kept⟩ := List.mem_filter.mp member
  obtain ⟨line, inLines, rfl⟩ := List.mem_map.mp cleaned
  have nonempty : (withoutComment line).trim ≠ [] := by simpa using kept
  obtain ⟨before, after, split, _, _, first, last⟩ := Text.exists_trim (withoutComment line)
  refine ⟨?_, ?_, ?_⟩
  · exact ⟨_, List.head?_eq_some_head nonempty, first _ (List.head?_eq_some_head nonempty)⟩
  · exact ⟨_, List.getLast?_eq_some_getLast nonempty, last _ (List.getLast?_eq_some_getLast nonempty)⟩
  · intro c inside
    have inCode : c ∈ withoutComment line := by
      rw [split]
      simp [inside]
    have inLine : c ∈ line := (List.takeWhile_prefix _).subset inCode
    refine ⟨?_, ?_⟩
    · simpa using List.mem_takeWhile_imp inCode
    · simpa using Text.free_of_mem_pieces inLines c inLine

theorem IsStatement.statements_eq {statement : Text} (isStatement : IsStatement statement) :
    statements statement = [statement] := by
  have clean : (withoutComment statement).trim = statement := clean_indented (List.forall_mem_nil _) isStatement
  have kept : (!statement.isEmpty) = true := by simpa using isStatement.ne_nil
  rw [statements_of_line isStatement.newline_notMem, clean, List.filter_cons, if_pos kept, List.filter_nil]

/-- Parts that stand one below the other are cleaned one by one. -/
theorem statements_join (parts : List Text) : statements (Text.join ['\n'] parts) = parts.flatMap statements := by
  induction parts with
  | nil => rfl
  | cons part rest ih =>
    cases rest with
    | nil => simp [Text.join]
    | cons next rest =>
      rw [Text.join_cons_cons, List.append_assoc, List.singleton_append, statements_append, ih]
      rfl

theorem statements_join_statements (source : Text) :
    statements (Text.join ['\n'] (statements source)) = statements source := by
  have each : ∀ statement ∈ statements source, statements statement = [statement] :=
    fun _ member => (isStatement_of_mem_statements member).statements_eq
  rw [statements_join, List.flatMap_congr each]
  exact List.flatMap_singleton' _

end Source

open Source

/-- Layout does not matter: no number of layout edits changes what a source assembles to, be it a program or an error.
The statements of a source are what is left of all layout, so that they are the statements of the source in which they
stand one below the other. -/
theorem layout_immaterial (source : Text) :
    (∀ edited, Relation.ReflTransGen LayoutEdit source edited → assemble edited = assemble source) ∧
      statements (Text.join ['\n'] (statements source)) = statements source ∧
      ∀ statement ∈ statements source, statement ≠ [] ∧ ';' ∉ statement ∧ '\n' ∉ statement ∧
        (∀ c ∈ statement.head?, Text.isBlank c = false) ∧ ∀ c ∈ statement.getLast?, Text.isBlank c = false := by
  refine ⟨?_, statements_join_statements source, ?_⟩
  · intro edited edits
    rw [assemble_eq, assemble_eq, statements_of_layoutEdits edits]
  · intro statement member
    have isStatement := isStatement_of_mem_statements member
    obtain ⟨first, atHead, firstSolid⟩ := isStatement.first
    obtain ⟨last, atLast, lastSolid⟩ := isStatement.last
    have noComment : ';' ∉ statement := fun inside => (isStatement.inside _ inside).1 rfl
    refine ⟨isStatement.ne_nil, noComment, isStatement.newline_notMem, ?_, ?_⟩
    · intro c atHead'
      rwa [Option.mem_unique atHead' atHead]
    · intro c atLast'
      rwa [Option.mem_unique atLast' atLast]

/-- Another line ending, a line of its own for a comment, a comment behind a branch, and a final newline. -/
theorem layout_immaterial_loop : assemble " ;\nA:\r\nBR a;x\n" = assemble "A:\nBR a" := by
  have ended : LayoutEdit "A:\nBR a" "A:\r\nBR a" := .carriageReturn "A:" "BR a"
  have inserted : LayoutEdit "A:\r\nBR a" " ;\nA:\r\nBR a" :=
    .insertLine "A:\r\nBR a" .start (List.forall_mem_singleton.mpr (by decide)) (@IsComment.some [] (by decide))
  have commented : LayoutEdit " ;\nA:\r\nBR a" " ;\nA:\r\nBR a;x" :=
    @LayoutEdit.editLine " ;\nA:\r\n" "BR a" "BR a;x" [] (.newline " ;\nA:\r") (by decide) .finish
      (@LineEdit.comment "BR a" "x" (by decide))
  have finished : LayoutEdit " ;\nA:\r\nBR a;x" " ;\nA:\r\nBR a;x\n" := .addNewline " ;\nA:\r\nBR a;x"
  exact (layout_immaterial "A:\nBR a").1 _ (.tail (.tail (.tail (.single ended) inserted) commented) finished)

end SimtAsm
