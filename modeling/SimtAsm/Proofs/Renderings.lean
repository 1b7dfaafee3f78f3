import Mathlib.Algebra.Group.Nat.Defs
import SimtAsm.Assembly.Listing
import SimtAsm.Proofs.LetterCase
import SimtAsm.Proofs.Messages

namespace SimtAsm

open Numeral Source

/-- The word that so many digits of a radix stand for. -/
def Word.ofDigits? (radix count : Nat) (digits : Text) : Option Word :=
  if digits.length = count then (readDigits radix (1 <<< 16) 0 digits).toOption.map (BitVec.ofNat 16) else none

theorem length_padded {radix width n : Nat} (large : 1 < radix) (positive : 0 < width) (bound : n < radix ^ width) :
    (padded radix width n).length = width := by
  have short := (Nat.length_toDigits_le_iff large positive).mpr bound
  rw [padded, List.length_leftpad, Nat.max_eq_left short]

namespace Word

theorem ofDigits?_of_readDigits {radix count : Nat} {digits : Text} {word : Word} (length : digits.length = count)
    (read : readDigits radix (1 <<< 16) 0 digits = .ok word.toNat) : ofDigits? radix count digits = some word := by
  rw [ofDigits?, if_pos length, read]
  exact congrArg some (BitVec.ofNat_toNat 16 word)

theorem ofDigits?_binary (word : Word) : ofDigits? 2 16 word.binary = some word :=
  ofDigits?_of_readDigits (length_padded (by decide) (by decide) word.isLt)
    (readDigits_padded (by decide) (by decide) word.isLt 16)

theorem ofDigits?_hex (word : Word) : ofDigits? 16 4 word.hex.upper = some word := by
  apply ofDigits?_of_readDigits
  · rw [Text.upper, List.length_map]
    exact length_padded (by decide) (by decide) word.isLt
  · rw [readDigits_upper]
    exact readDigits_padded (by decide) (by decide) word.isLt 4

end Word

namespace ListingFormat

/-- What stands in the place of a missing word. -/
def mark : ListingFormat → Text
  | hex => "????"
  | _ => "ERROR"

/-- The word that a code stands for: sixteen binary digits behind `0b`, or four hexadecimal digits. -/
def readWord? : ListingFormat → Text → Option Word
  | hex, digits => Word.ofDigits? 16 4 digits
  | _, '0' :: 'b' :: digits => Word.ofDigits? 2 16 digits
  | _, _ => none

/-- The number that decimal digits stand for, however many there are. -/
def readNumber? (digits : Text) : Option Nat := (readDigits 10 (10 ^ digits.length) 0 digits).toOption

/-- The parts of a line. -/
structure Row where
  number? : Option Nat
  code : Text
  text? : Option Text

/-- Takes a line apart: the code ends at its first comma or parenthesis, and everything behind is the text. -/
def row? : ListingFormat → Text → Option Row
  | listing, line => do
    let rest ← List.isPrefixOf? "        " line
    let text ← List.isPrefixOf? ", # " (rest.dropWhile (· != ','))
    return ⟨none, rest.takeWhile (· != ','), some text⟩
  | verbose, line => do
    let rest ← List.isPrefixOf? "Address " line
    let number ← readNumber? (rest.takeWhile (· != ' '))
    let behind ← List.isPrefixOf? " (" (rest.dropWhile (· != ' '))
    let text ← List.isPrefixOf? "): " (behind.dropWhile (· != ')'))
    return ⟨some number, behind.takeWhile (· != ')'), some text⟩
  | hex, line => some ⟨none, line, none⟩
  | json, _ => none

/-- The word of a line, nothing where the mark stands; refused if the line has neither. -/
def outcome? (format : ListingFormat) (line : Text) : Option (Option Word) := do
  let row ← format.row? line
  if row.code = format.mark then some none else (format.readWord? row.code).map some

/-- The words of a rendering, line by line. -/
def outcomes? (format : ListingFormat) (text : Text) : Option (List (Option Word)) :=
  text.lines.dropLast.mapM format.outcome?

/-- What a row says is what the entry of this number is, as far as the format shows it. -/
structure Row.Carries (row : Row) (format : ListingFormat) (i : Nat) (entry : Entry) : Prop where
  word : ∀ word, entry.outcome = .ok word → format.readWord? row.code = some word
  mark : row.code = format.mark ↔ ∃ error, entry.outcome = .error error
  text : row.text? = if format = .hex then none else some entry.text
  number : row.number? = if format = .verbose then some i else none

theorem readWord?_mark (format : ListingFormat) : format.readWord? format.mark = none := by
  cases format <;> rfl

theorem readNumber?_decimal (n : Nat) : readNumber? (decimal n) = some n := by
  have positive : 0 < (decimal n).length := List.length_pos_iff.mpr Nat.toDigits_ne_nil
  have bound : n < 10 ^ (decimal n).length := (Nat.length_toDigits_le_iff (by decide) positive).mp (Nat.le_refl _)
  have read : readDigits 10 (10 ^ (decimal n).length) 0 (decimal n) = .ok n :=
    readDigits_toDigits (by decide) (by decide) bound
  rw [readNumber?, read]
  rfl

end ListingFormat

namespace Text

/-- A text ends where a character stands that it does not have. -/
theorem takeWhile_append_stop {before : Text} {stop : Char} (free : stop ∉ before) (rest : Text) :
    (before ++ stop :: rest).takeWhile (· != stop) = before ∧
      (before ++ stop :: rest).dropWhile (· != stop) = stop :: rest := by
  have kept : ∀ c ∈ before, (c != stop) = true := by
    intro c member
    rw [bne_iff_ne]
    rintro rfl
    exact free member
  refine ⟨?_, ?_⟩
  · rw [List.takeWhile_append_of_pos kept, List.takeWhile_cons, bne_self_eq_false]
    exact List.append_nil before
  · rw [List.dropWhile_append_of_pos kept, List.dropWhile_cons, bne_self_eq_false]
    rfl

end Text

namespace Entry

/-- The code of an entry in a format: the digits of its word, or the mark. -/
def codeIn (entry : Entry) : ListingFormat → Text
  | .hex => entry.hexLine
  | _ => entry.code

theorem readWord?_codeIn {entry : Entry} {word : Word} (encoded : entry.outcome = .ok word) (format : ListingFormat) :
    format.readWord? (entry.codeIn format) = some word := by
  have code : entry.code = '0' :: 'b' :: word.binary := by
    rw [Entry.code, encoded]
    rfl
  have hexLine : entry.hexLine = word.hex.upper := by rw [Entry.hexLine, encoded]
  cases format with
  | hex => exact (congrArg _ hexLine).trans word.ofDigits?_hex
  | listing | verbose | json => exact (congrArg _ code).trans word.ofDigits?_binary

theorem codeIn_of_error {entry : Entry} {error : EncodeError} (failed : entry.outcome = .error error)
    (format : ListingFormat) : entry.codeIn format = format.mark := by
  have code : entry.code = "ERROR" := by rw [Entry.code, failed]
  have hexLine : entry.hexLine = "????" := by rw [Entry.hexLine, failed]
  cases format with
  | hex => exact hexLine
  | listing | verbose | json => exact code

/-- The mark is no code of a word, so it stands just where an instruction failed. -/
theorem codeIn_eq_mark_iff {entry : Entry} {format : ListingFormat} :
    entry.codeIn format = format.mark ↔ ∃ error, entry.outcome = .error error := by
  constructor
  · intro marked
    cases encoded : entry.outcome with
    | error error => exact ⟨error, rfl⟩
    | ok word =>
      have read := readWord?_codeIn encoded format
      rw [marked, format.readWord?_mark] at read
      cases read
  · rintro ⟨error, failed⟩
    exact codeIn_of_error failed format

theorem notMem_code {c : Char} (noDigit : digit? 2 c = none) (other : c ∉ ("0bERROR" : Text)) (entry : Entry) :
    c ∉ entry.code := by
  unfold Entry.code
  split
  · rename_i word _
    intro member
    rcases List.mem_append.mp member with inFront | inDigits
    · exact other (List.mem_append_left ("ERROR" : Text) inFront)
    · have read := readDigits_padded (by decide : 1 < 2) (by decide) word.isLt 16
      have isDigit := isSome_digit?_of_readDigits read c inDigits
      simp [noDigit] at isDigit
  · exact fun member => other (List.mem_append_right ("0b" : Text) member)

/-- The code ends at the comma behind it, whatever the text holds. -/
theorem row?_listingLine (entry : Entry) :
    ListingFormat.row? .listing entry.listingLine = some ⟨none, entry.code, some entry.text⟩ := by
  have noComma : ',' ∉ entry.code := notMem_code rfl (by decide) entry
  have comma : (", # " : Text) = ',' :: " # " := rfl
  have shape : entry.listingLine = ("        " : Text) ++ entry.code ++ (", # " : Text) ++ entry.text := rfl
  rw [List.append_assoc, List.append_assoc, comma, List.cons_append] at shape
  have start : List.isPrefixOf? "        " entry.listingLine = some (entry.code ++ ',' :: (" # " ++ entry.text)) :=
    List.isPrefixOf?_eq_some_iff_append_eq.mpr shape.symm
  have text : List.isPrefixOf? ", # " (',' :: (" # " ++ entry.text)) = some entry.text :=
    List.isPrefixOf?_eq_some_iff_append_eq.mpr rfl
  obtain ⟨code, behind⟩ := Text.takeWhile_append_stop noComma (" # " ++ entry.text)
  simp only [ListingFormat.row?, start, bind, Option.bind, code, behind, text]
  rfl

theorem row?_verboseLine (entry : Entry) :
    ListingFormat.row? .verbose entry.verboseLine = some ⟨some entry.address, entry.code, some entry.text⟩ := by
  have noBlank : ' ' ∉ decimal entry.address := by
    intro member
    exact absurd (isDigit_of_mem_decimal member) (by decide)
  have noBracket : ')' ∉ entry.code := notMem_code rfl (by decide) entry
  have opening : (" (" : Text) = [' ', '('] := rfl
  have closing : ("): " : Text) = ')' :: ": " := rfl
  have shape : entry.verboseLine =
      ("Address " : Text) ++ decimal entry.address ++ (" (" : Text) ++ entry.code ++ ("): " : Text) ++ entry.text := rfl
  simp only [opening, closing, List.append_assoc, List.cons_append, List.nil_append] at shape
  have start : List.isPrefixOf? "Address " entry.verboseLine =
      some (decimal entry.address ++ ' ' :: '(' :: (entry.code ++ ')' :: (": " ++ entry.text))) :=
    List.isPrefixOf?_eq_some_iff_append_eq.mpr shape.symm
  have opened : List.isPrefixOf? " (" (' ' :: '(' :: (entry.code ++ ')' :: (": " ++ entry.text))) =
      some (entry.code ++ ')' :: (": " ++ entry.text)) :=
    List.isPrefixOf?_eq_some_iff_append_eq.mpr rfl
  have text : List.isPrefixOf? "): " (')' :: (": " ++ entry.text)) = some entry.text :=
    List.isPrefixOf?_eq_some_iff_append_eq.mpr rfl
  obtain ⟨number, behind⟩ :=
    Text.takeWhile_append_stop noBlank ('(' :: (entry.code ++ ')' :: (": " ++ entry.text)))
  obtain ⟨code, rest⟩ := Text.takeWhile_append_stop noBracket (": " ++ entry.text)
  have value := ListingFormat.readNumber?_decimal entry.address
  simp only [ListingFormat.row?, start, bind, Option.bind, number, value, behind, opened, code, rest, text]
  rfl

theorem newline_notMem_listingLine {entry : Entry} (free : '\n' ∉ entry.text) : '\n' ∉ entry.listingLine := by
  have code := newline_notMem_surround (by decide : '\n' ∉ ("        " : Text)) (notMem_code rfl (by decide) entry)
    (by decide : '\n' ∉ (", # " : Text))
  exact newline_notMem_append code free

theorem newline_notMem_verboseLine {entry : Entry} (free : '\n' ∉ entry.text) : '\n' ∉ entry.verboseLine := by
  have number := newline_notMem_surround (by decide : '\n' ∉ ("Address " : Text)) (newline_notMem_decimal entry.address)
    (by decide : '\n' ∉ (" (" : Text))
  have code := newline_notMem_surround number (notMem_code rfl (by decide) entry) (by decide : '\n' ∉ ("): " : Text))
  exact newline_notMem_append code free

theorem newline_notMem_hexLine (entry : Entry) : '\n' ∉ entry.hexLine := by
  unfold Entry.hexLine
  split
  · rename_i word _
    exact newline_notMem_upper (padded_isPlainToken (by decide) (by decide) 4 word.toNat).newline_notMem
  · decide

/-- What a line of the format shows of an entry. -/
def rowIn (entry : Entry) (format : ListingFormat) : ListingFormat.Row where
  number? := if format = .verbose then some entry.address else none
  code := entry.codeIn format
  text? := if format = .hex then none else some entry.text

theorem rowIn_carries {entry : Entry} {i : Nat} (place : entry.address = i) (format : ListingFormat) :
    (entry.rowIn format).Carries format i entry where
  word _ encoded := readWord?_codeIn encoded format
  mark := codeIn_eq_mark_iff
  text := rfl
  number := by rw [← place]; rfl

end Entry

namespace ListingFormat

/-- A format of lines, by the line it prints for an entry. -/
structure Prints (format : ListingFormat) (line : Entry → Text) : Prop where
  render : ∀ program : Program, program.render format = Text.ofLines (program.entries.map line)
  row : ∀ entry, format.row? (line entry) = some (entry.rowIn format)
  newline : ∀ entry : Entry, '\n' ∉ entry.text → '\n' ∉ line entry

theorem exists_prints {format : ListingFormat} (byLine : format ≠ .json) : ∃ line, format.Prints line := by
  cases format with
  | listing =>
    exact ⟨Entry.listingLine, fun _ => rfl, Entry.row?_listingLine, fun _ => Entry.newline_notMem_listingLine⟩
  | verbose =>
    exact ⟨Entry.verboseLine, fun _ => rfl, Entry.row?_verboseLine, fun _ => Entry.newline_notMem_verboseLine⟩
  | hex => exact ⟨Entry.hexLine, fun _ => rfl, fun _ => rfl, fun entry _ => entry.newline_notMem_hexLine⟩
  | json => exact absurd rfl byLine

namespace Prints

variable {format : ListingFormat} {line : Entry → Text} (prints : format.Prints line)
include prints

theorem outcome?_line (entry : Entry) : format.outcome? (line entry) = some entry.word? := by
  have read : format.outcome? (line entry) = if entry.codeIn format = format.mark then some none
      else (format.readWord? (entry.codeIn format)).map some := by
    rw [outcome?, prints.row]
    rfl
  cases outcome : entry.outcome with
  | ok word =>
    have unmarked : entry.codeIn format ≠ format.mark := by simp [Entry.codeIn_eq_mark_iff, outcome]
    rw [read, if_neg unmarked, Entry.readWord?_codeIn outcome, Entry.word?, outcome]
    rfl
  | error error =>
    rw [read, if_pos (Entry.codeIn_of_error outcome format), Entry.word?, outcome]
    rfl

theorem lines_render {program : Program} (single : ∀ entry ∈ program.entries, '\n' ∉ entry.text) :
    (program.render format).lines = program.entries.map line ++ [[]] := by
  rw [prints.render]
  apply Text.lines_ofLines
  intro text member
  obtain ⟨entry, inside, rfl⟩ := List.mem_map.mp member
  exact prints.newline entry (single entry inside)

theorem outcomes?_render {program : Program} (single : ∀ entry ∈ program.entries, '\n' ∉ entry.text) :
    format.outcomes? (program.render format) = some (program.entries.map Entry.word?) := by
  have each : format.outcome? ∘ line = fun entry => pure entry.word? := funext prints.outcome?_line
  rw [outcomes?, prints.lines_render single, List.dropLast_concat, List.mapM_map, each, List.mapM_pure]
  rfl

end Prints

end ListingFormat

theorem address_of_getElem?_entries {source : Text} {program : Program} (assembled : assemble source = .ok program)
    {i : Nat} {entry : Entry} (atEntry : program.entries[i]? = some entry) : entry.address = i := by
  obtain ⟨placement, _, rfl⟩ := assemble_eq_ok_iff.mp assembled
  rw [Program.ofPlacement, getElem?_entriesFrom] at atEntry
  obtain ⟨text, _, rfl⟩ := Option.map_eq_some_iff.mp atEntry
  exact Nat.zero_add i

/-- Each format of lines has a line for every entry, which gives back the word or shows the mark of its failure, with
the text and the number where the format has them. The words that are read from a rendering do not depend on the
format. -/
theorem renderings_agree {source : Text} {program : Program} (assembled : assemble source = .ok program)
    {format : ListingFormat} (byLine : format ≠ .json) :
    ∃ lines : List Text,
      program.render format = Text.ofLines lines ∧ (program.render format).lines = lines ++ [[]] ∧
      lines.length = program.entries.length ∧
      (∀ i entry, program.entries[i]? = some entry →
        ∃ line row, lines[i]? = some line ∧ format.row? line = some row ∧ row.Carries format i entry) ∧
      format.outcomes? (program.render format) = some (program.entries.map Entry.word?) := by
  obtain ⟨line, prints⟩ := ListingFormat.exists_prints byLine
  have single : ∀ entry ∈ program.entries, '\n' ∉ entry.text :=
    fun _ member => (isStatement_of_mem_entries assembled member).newline_notMem
  refine ⟨program.entries.map line, prints.render program, prints.lines_render single, List.length_map .., ?_,
    prints.outcomes?_render single⟩
  intro i entry atEntry
  refine ⟨line entry, entry.rowIn format, ?_, prints.row entry, ?_⟩
  · rw [List.getElem?_map, atEntry]
    rfl
  · exact Entry.rowIn_carries (address_of_getElem?_entries assembled atEntry) format

/-- The text of a failed instruction that looks like the end of a code, with a carriage return inside. -/
theorem renderings_agree_lookalike :
    ∃ program, assemble "CONST R1, #-1\n0b1, # ): \rERROR" = .ok program ∧
      ListingFormat.outcomes? .listing (program.render .listing) = some [some 0x91FF#16, none] ∧
      ListingFormat.outcomes? .hex (program.render .hex) = some [some 0x91FF#16, none] ∧
      ∃ line row, (program.render .verbose).lines[1]? = some line ∧ ListingFormat.row? .verbose line = some row ∧
        row.number? = some 1 ∧ row.code = ("ERROR" : Text) ∧ row.text? = some "0b1, # ): \rERROR" := by
  have assembled : assemble "CONST R1, #-1\n0b1, # ): \rERROR" =
      .ok (.ofPlacement ⟨SymbolTable.empty, ["CONST R1, #-1", "0b1, # ): \rERROR"]⟩) := rfl
  obtain ⟨_, _, _, _, _, listing⟩ := @renderings_agree _ _ assembled .listing (by decide)
  obtain ⟨_, _, _, _, _, hex⟩ := @renderings_agree _ _ assembled .hex (by decide)
  obtain ⟨lines, _, split, _, each, _⟩ := @renderings_agree _ _ assembled .verbose (by decide)
  obtain ⟨line, row, atLine, read, carries⟩ := each 1 ⟨1, "0b1, # ): \rERROR", .error (.unknownMnemonic "0B1")⟩ rfl
  have inside := (List.getElem?_eq_some_iff.mp atLine).1
  refine ⟨_, assembled, listing, hex, line, row, ?_, read, carries.number, carries.mark.mpr ⟨_, rfl⟩, carries.text⟩
  rw [split, List.getElem?_append_left inside, atLine]

end SimtAsm
