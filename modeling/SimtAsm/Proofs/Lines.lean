import Mathlib.Data.Bool.AllAny
import Mathlib.Data.List.TakeWhile
import SimtAsm.Assembly.Source

namespace SimtAsm

namespace Text

section Pieces

variable {isSeparator : Char → Bool} {piece : Text}

theorem pieces_of_free (free : ∀ c ∈ piece, isSeparator c = false) : pieces isSeparator piece = [piece] := by
  induction piece with
  | nil => rfl
  | cons c rest ih =>
    have here := free c (List.mem_cons_self ..)
    have later := ih fun x member => free x (List.mem_cons_of_mem _ member)
    simp only [pieces, here, later, consFirst, Bool.false_eq_true, if_false]

theorem pieces_ne_nil (text : Text) : pieces isSeparator text ≠ [] := by
  cases text with
  | nil => simp [pieces]
  | cons c rest =>
    simp only [pieces]
    split
    · simp
    · cases pieces isSeparator rest <;> simp [consFirst]

theorem consFirst_append {first : List Text} (nonempty : first ≠ []) (c : Char) (second : List Text) :
    consFirst c (first ++ second) = consFirst c first ++ second := by
  obtain ⟨piece, rest, rfl⟩ := List.exists_cons_of_ne_nil nonempty
  rfl

/-- A separator cuts a text into two that are taken apart on their own. -/
theorem pieces_append {separator : Char} (separates : isSeparator separator = true) (first second : Text) :
    pieces isSeparator (first ++ separator :: second) = pieces isSeparator first ++ pieces isSeparator second := by
  induction first with
  | nil => simp only [List.nil_append, pieces, separates, if_true, List.singleton_append]
  | cons c rest ih =>
    simp only [List.cons_append, pieces, ih]
    split
    · rfl
    · exact consFirst_append (pieces_ne_nil rest) c _

theorem pieces_append_separator (free : ∀ c ∈ piece, isSeparator c = false) {separator : Char}
    (separates : isSeparator separator = true) (rest : Text) :
    pieces isSeparator (piece ++ separator :: rest) = piece :: pieces isSeparator rest := by
  rw [pieces_append separates, pieces_of_free free, List.singleton_append]

end Pieces

theorem free_of_mem_pieces {isSeparator : Char → Bool} {piece text : Text}
    (member : piece ∈ pieces isSeparator text) : ∀ c ∈ piece, isSeparator c = false := by
  induction text generalizing piece with
  | nil =>
    cases List.mem_singleton.mp member
    simp
  | cons c rest ih =>
    simp only [pieces] at member
    split at member
    · rcases List.mem_cons.mp member with rfl | later
      · simp
      · exact ih later
    · rename_i solid
      obtain ⟨first, others, same⟩ := List.exists_cons_of_ne_nil (@pieces_ne_nil isSeparator rest)
      rw [same] at member ih
      rcases List.mem_cons.mp member with rfl | later
      · exact List.forall_mem_cons.mpr ⟨by simpa using solid, ih (List.mem_cons_self ..)⟩
      · exact ih (List.mem_cons_of_mem _ later)

theorem separator_notMem_of_mem_pieces {separator : Char} {piece text : Text}
    (member : piece ∈ pieces (· == separator) text) : separator ∉ piece := by
  intro inside
  have solid := free_of_mem_pieces member separator inside
  simp at solid

theorem ofLines_cons (line : Text) (rest : List Text) : ofLines (line :: rest) = line ++ '\n' :: ofLines rest := by
  simp only [ofLines, List.flatMap_cons, List.append_assoc, List.singleton_append]

/-- Every line comes back, and one empty line behind the last newline. -/
theorem lines_ofLines {lines : List Text} (free : ∀ line ∈ lines, '\n' ∉ line) :
    Text.lines (ofLines lines) = lines ++ [[]] := by
  induction lines with
  | nil => rfl
  | cons line rest ih =>
    have here := free line (List.mem_cons_self ..)
    have noBreak : ∀ c ∈ line, (c == '\n') = false := by
      intro c member
      rw [beq_eq_false_iff_ne]
      rintro rfl
      exact here member
    rw [ofLines_cons, Text.lines, pieces_append_separator noBreak (by decide)]
    have later := ih fun x member => free x (List.mem_cons_of_mem _ member)
    rw [Text.lines] at later
    rw [later, List.cons_append]

theorem dropWhile_of_head {isDropped : Char → Bool} {text : Text}
    (first : ∃ c ∈ text.head?, isDropped c = false) : text.dropWhile isDropped = text := by
  obtain ⟨c, atHead, stays⟩ := first
  obtain ⟨rest, rfl⟩ := List.head?_eq_some_iff.mp atHead
  simp only [List.dropWhile_cons, stays, Bool.false_eq_true, if_false]

theorem trimEnd_append {text after : Text} (blankAfter : ∀ c ∈ after, isBlank c = true)
    (last : ∃ c ∈ text.getLast?, isBlank c = false) : trimEnd (text ++ after) = text := by
  have blankReverse : ∀ c ∈ after.reverse, isBlank c = true :=
    fun c member => blankAfter c (List.mem_reverse.mp member)
  have lastFirst : ∃ c ∈ text.reverse.head?, isBlank c = false := by rwa [List.head?_reverse]
  rw [trimEnd, List.reverse_append, List.dropWhile_append_of_pos blankReverse, dropWhile_of_head lastFirst,
    List.reverse_reverse]

/-- Trimming takes the blanks around a text that has none at its ends. -/
theorem trim_append {before text after : Text} (blankBefore : ∀ c ∈ before, isBlank c = true)
    (blankAfter : ∀ c ∈ after, isBlank c = true) (first : ∃ c ∈ text.head?, isBlank c = false)
    (last : ∃ c ∈ text.getLast?, isBlank c = false) : trim (before ++ text ++ after) = text := by
  have firstAfter : ∃ c ∈ (text ++ after).head?, isBlank c = false := by
    obtain ⟨c, atHead, solid⟩ := first
    refine ⟨c, ?_, solid⟩
    rw [List.head?_append, Option.mem_def.mp atHead]
    rfl
  rw [trim, trimStart, List.append_assoc, List.dropWhile_append_of_pos blankBefore, dropWhile_of_head firstAfter,
    trimEnd_append blankAfter last]

theorem solid_of_head_dropWhile {isDropped : Char → Bool} {text : Text} {c : Char}
    (atHead : (text.dropWhile isDropped).head? = some c) : isDropped c = false := by
  simpa [atHead] using List.head?_dropWhile_not isDropped text

/-- A text is its trimmed form with blanks around it, and no blank is left at the ends of that. -/
theorem exists_trim (text : Text) :
    ∃ before after, text = before ++ text.trim ++ after ∧ (∀ c ∈ before, isBlank c = true) ∧
      (∀ c ∈ after, isBlank c = true) ∧ (∀ c ∈ text.trim.head?, isBlank c = false) ∧
      ∀ c ∈ text.trim.getLast?, isBlank c = false := by
  have split : text.takeWhile isBlank ++ text.trimStart = text := List.takeWhile_append_dropWhile
  have splitEnd : text.trim ++ (text.trimStart.reverse.takeWhile isBlank).reverse = text.trimStart := by
    rw [trim, trimEnd, ← List.reverse_append, List.takeWhile_append_dropWhile, List.reverse_reverse]
  refine ⟨text.takeWhile isBlank, (text.trimStart.reverse.takeWhile isBlank).reverse, ?_, ?_, ?_, ?_, ?_⟩
  · rw [List.append_assoc, splitEnd, split]
  · exact fun c member => List.mem_takeWhile_imp member
  · exact fun c member => List.mem_takeWhile_imp (List.mem_reverse.mp member)
  · intro c atHead
    apply solid_of_head_dropWhile
    rw [← trimStart, ← splitEnd, List.head?_append, Option.mem_def.mp atHead, Option.some_or]
  · intro c atLast
    rw [trim, trimEnd, List.getLast?_reverse] at atLast
    exact solid_of_head_dropWhile atLast

theorem trim_of_blank {text : Text} (blank : ∀ c ∈ text, isBlank c = true) : text.trim = [] := by
  have start : text.trimStart = [] := List.dropWhile_eq_nil_iff.mpr blank
  rw [trim, start]
  rfl

/-- Blanks around a text do not matter to trimming. -/
theorem trim_surround {before after : Text} (blankBefore : ∀ c ∈ before, isBlank c = true)
    (blankAfter : ∀ c ∈ after, isBlank c = true) (text : Text) : trim (before ++ text ++ after) = text.trim := by
  obtain ⟨before', after', same, blankBefore', blankAfter', first, last⟩ := exists_trim text
  cases core : text.trim with
  | nil =>
    rw [core, List.append_nil] at same
    apply trim_of_blank
    rw [same]
    simp only [List.mem_append]
    rintro c ((member | member | member) | member)
    · exact blankBefore c member
    · exact blankBefore' c member
    · exact blankAfter' c member
    · exact blankAfter c member
  | cons c rest =>
    rw [core] at same first last
    have around : before ++ text ++ after = (before ++ before') ++ c :: rest ++ (after' ++ after) := by
      rw [same]
      simp only [List.append_assoc]
    rw [around]
    apply trim_append
    · exact List.forall_mem_append.mpr ⟨blankBefore, blankBefore'⟩
    · exact List.forall_mem_append.mpr ⟨blankAfter', blankAfter⟩
    · exact ⟨c, rfl, first c rfl⟩
    · have atLast := List.getLast?_eq_some_getLast (List.cons_ne_nil c rest)
      exact ⟨_, atLast, last _ atLast⟩

theorem join_cons_cons (separator part next : Text) (rest : List Text) :
    join separator (part :: next :: rest) = part ++ separator ++ join separator (next :: rest) := by
  simp only [join, List.intersperse_cons_cons, List.flatten_cons, List.append_assoc]

/-- The lines of a text, put one below the other again. -/
theorem join_lines (text : Text) : join ['\n'] text.lines = text := by
  induction text with
  | nil => rfl
  | cons c rest ih =>
    obtain ⟨line, others, same⟩ := List.exists_cons_of_ne_nil (@pieces_ne_nil (· == '\n') rest)
    rw [lines, same] at ih
    rw [lines, pieces, same]
    split
    · rename_i newline
      rw [join_cons_cons, ih, beq_iff_eq.mp newline]
      rfl
    · have first : join ['\n'] (consFirst c (line :: others)) = c :: join ['\n'] (line :: others) := by
        cases others <;> rfl
      rw [first, ih]

end Text

theorem newline_notMem_append {first second : Text} (inFirst : '\n' ∉ first) (inSecond : '\n' ∉ second) :
    '\n' ∉ first ++ second := by
  rw [List.mem_append, not_or]
  exact ⟨inFirst, inSecond⟩

theorem newline_notMem_surround {before text after : Text} (inBefore : '\n' ∉ before) (free : '\n' ∉ text)
    (inAfter : '\n' ∉ after) : '\n' ∉ before ++ text ++ after :=
  newline_notMem_append (newline_notMem_append inBefore free) inAfter

namespace Source

/-- A statement as cleaning leaves it: no comment or newline inside, no blank at the ends. -/
structure IsStatement (text : Text) : Prop where
  first : ∃ c ∈ text.head?, Text.isBlank c = false
  last : ∃ c ∈ text.getLast?, Text.isBlank c = false
  inside : ∀ c ∈ text, c ≠ ';' ∧ c ≠ '\n'

theorem IsStatement.ne_nil {text : Text} (statement : IsStatement text) : text ≠ [] := by
  obtain ⟨c, atHead, _⟩ := statement.first
  rintro rfl
  simp at atHead

theorem IsStatement.newline_notMem {text : Text} (statement : IsStatement text) : '\n' ∉ text :=
  fun member => (statement.inside _ member).2 rfl

theorem IsStatement.append {a between b : Text} (left : IsStatement a) (right : IsStatement b)
    (inside : ∀ c ∈ between, c ≠ ';' ∧ c ≠ '\n') : IsStatement (a ++ between ++ b) := by
  obtain ⟨firstChar, atHead, firstSolid⟩ := left.first
  obtain ⟨lastChar, atLast, lastSolid⟩ := right.last
  refine ⟨⟨firstChar, ?_, firstSolid⟩, ⟨lastChar, ?_, lastSolid⟩, ?_⟩
  · rw [List.append_assoc, List.head?_append, Option.mem_def.mp atHead]
    rfl
  · rw [List.getLast?_append, Option.mem_def.mp atLast]
    rfl
  · intro c member
    rcases List.mem_append.mp member with member | member
    · rcases List.mem_append.mp member with member | member
      · exact left.inside c member
      · exact inside c member
    · exact right.inside c member

theorem withoutComment_of_free {code : Text} (free : ∀ c ∈ code, c ≠ ';') : withoutComment code = code :=
  List.takeWhile_eq_self_iff.mpr fun c member => bne_iff_ne.mpr (free c member)

theorem withoutComment_append {code : Text} (free : ∀ c ∈ code, c ≠ ';') (comment : Text) :
    withoutComment (code ++ ';' :: comment) = code := by
  have kept : ∀ c ∈ code, (c != ';') = true := fun c member => bne_iff_ne.mpr (free c member)
  rw [withoutComment, List.takeWhile_append_of_pos kept]
  simp

section Cleaning

variable {before text after : Text}

theorem not_semicolon_of_blank {c : Char} (blank : Text.isBlank c = true) : c ≠ ';' := by
  rintro rfl
  exact absurd blank (by decide)

theorem clean_indented (blankBefore : ∀ c ∈ before, Text.isBlank c = true) (statement : IsStatement text) :
    (withoutComment (before ++ text)).trim = text := by
  have free : ∀ c ∈ before ++ text, c ≠ ';' := by
    intro c member
    rcases List.mem_append.mp member with member | member
    · exact not_semicolon_of_blank (blankBefore c member)
    · exact (statement.inside c member).1
  have trimmed := Text.trim_append blankBefore (List.forall_mem_nil _) statement.first statement.last
  rw [withoutComment_of_free free]
  simpa only [List.append_nil] using trimmed

theorem clean_commented (blankBefore : ∀ c ∈ before, Text.isBlank c = true)
    (blankAfter : ∀ c ∈ after, Text.isBlank c = true) (statement : IsStatement text) (comment : Text) :
    (withoutComment (before ++ text ++ after ++ ';' :: comment)).trim = text := by
  have free : ∀ c ∈ before ++ text ++ after, c ≠ ';' := by
    intro c member
    simp only [List.mem_append] at member
    rcases member with (member | member) | member
    · exact not_semicolon_of_blank (blankBefore c member)
    · exact (statement.inside c member).1
    · exact not_semicolon_of_blank (blankAfter c member)
  rw [withoutComment_append free]
  exact Text.trim_append blankBefore blankAfter statement.first statement.last

end Cleaning

/-- A newline ends a comment, so texts put one below the other are cleaned apart. -/
theorem statements_append (first second : Text) :
    statements (first ++ '\n' :: second) = statements first ++ statements second := by
  have split : Text.lines (first ++ '\n' :: second) = first.lines ++ second.lines :=
    Text.pieces_append (by decide) first second
  rw [statements, split, List.map_append, List.filter_append, ← statements, ← statements]

/-- The statements of a text that is given by its lines, none of them empty when cleaned. -/
theorem statements_ofLines {lines : List Text} (free : ∀ line ∈ lines, '\n' ∉ line)
    (kept : ∀ line ∈ lines, (withoutComment line).trim ≠ []) :
    statements (Text.ofLines lines) = lines.map fun line => (withoutComment line).trim := by
  have kept' : ∀ statement ∈ lines.map fun line => (withoutComment line).trim, (!statement.isEmpty) = true := by
    intro statement member
    obtain ⟨line, inLines, rfl⟩ := List.mem_map.mp member
    simpa using kept line inLines
  rw [statements, Text.lines_ofLines free, List.map_append, List.filter_append, List.filter_eq_self.mpr kept']
  exact List.append_nil _

structure IsToken (text : Text) : Prop where
  ne_nil : text ≠ []
  free : ∀ c ∈ text, isSeparator c = false

theorem tokens_cons_separator {c : Char} (separates : isSeparator c = true) (rest : Text) :
    tokens (c :: rest) = tokens rest := by
  simp only [tokens, Text.pieces, separates, if_true, List.filter_cons, List.isEmpty_nil, Bool.not_true,
    Bool.false_eq_true, if_false]

theorem IsToken.tokens_eq {text : Text} (token : IsToken text) : tokens text = [text] := by
  have kept : (!text.isEmpty) = true := by simpa using token.ne_nil
  simp only [tokens, Text.pieces_of_free token.free, List.filter_cons, kept, if_true, List.filter_nil]

theorem IsToken.tokens_append {text : Text} (token : IsToken text) {c : Char} (separates : isSeparator c = true)
    (rest : Text) : tokens (text ++ c :: rest) = text :: tokens rest := by
  have kept : (!text.isEmpty) = true := by simpa using token.ne_nil
  simp only [tokens, Text.pieces_append_separator token.free separates, List.filter_cons, kept, if_true]

end Source

end SimtAsm
