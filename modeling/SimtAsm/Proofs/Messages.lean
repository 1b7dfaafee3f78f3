import SimtAsm.Proofs.Isolation
import SimtAsm.Proofs.Linking
import SimtAsm.Proofs.Printing

namespace SimtAsm

open Source Numeral

/-- The part of an error that stands for a piece of the statement. -/
def EncodeError.quoted : EncodeError → Text
  | malformedInstruction => []
  | unknownMnemonic mnemonic | operandCount mnemonic _ _ => mnemonic
  | invalidRegister token | invalidImmediate token => token
  | immediateRange value _ _ _ => value
  | undefinedLabel label => label

/-- An error quotes nothing, a token in upper case, or the end of a token as it is written. -/
def EncodeError.QuotesFrom (tokens : List Text) (error : EncodeError) : Prop :=
  error.quoted = [] ∨ ∃ token ∈ tokens, error.quoted = token.upper ∨ error.quoted <:+ token

theorem Misread.quotesFrom {tokens : List Text} {error : EncodeError} (misread : Misread tokens error) :
    error.QuotesFrom tokens := by
  cases misread with
  | empty => exact Or.inl rfl
  | mnemonic | count => exact Or.inr ⟨_, List.mem_cons_self .., Or.inl rfl⟩
  | operand _ _ first =>
    obtain ⟨token, member, rfl | rfl | ⟨digits, rfl, rfl⟩⟩ := first.error_cases
    · exact Or.inr ⟨token, List.mem_cons_of_mem _ member, Or.inr List.suffix_rfl⟩
    · exact Or.inr ⟨token, List.mem_cons_of_mem _ member, Or.inr List.suffix_rfl⟩
    · exact Or.inr ⟨_, List.mem_cons_of_mem _ member, Or.inr (List.suffix_cons ..)⟩

theorem quotesFrom_of_encodeLine {symbols : SymbolTable} {line : Text} {error : EncodeError}
    (failed : encodeLine symbols line = .error error) : error.QuotesFrom (tokens line) := by
  have fault := encodeLine_eq_error_iff.mp failed
  generalize tokens line = parts at fault
  cases fault with
  | misread misread => exact misread.quotesFrom
  | @label mnemonic label => exact Or.inr ⟨label, by simp, Or.inl rfl⟩

theorem newline_notMem_upper {text : Text} (free : '\n' ∉ text) : '\n' ∉ text.upper := by
  intro member
  obtain ⟨c, inside, same⟩ := List.mem_map.mp member
  rw [(Text.toUpper_eq_low_iff (by decide)).mp same] at inside
  exact free inside

theorem newline_notMem_of_mem_tokens {line token : Text} (member : token ∈ tokens line) : '\n' ∉ token := by
  intro newline
  have solid := ((runs_tokens line).isToken token member).free _ newline
  exact absurd solid (by decide)

theorem EncodeError.QuotesFrom.newline_notMem {tokens : List Text} {error : EncodeError}
    (quotes : error.QuotesFrom tokens) (free : ∀ token ∈ tokens, '\n' ∉ token) : '\n' ∉ error.quoted := by
  rcases quotes with nothing | ⟨token, member, upper | ending⟩
  · rw [nothing]
    exact List.not_mem_nil
  · rw [upper]
    exact newline_notMem_upper (free token member)
  · exact fun inside => free token member (ending.subset inside)

/-- A message adds words and numbers to what it quotes, all on one line. -/
theorem EncodeError.newline_notMem_message {error : EncodeError} (free : '\n' ∉ error.quoted) :
    '\n' ∉ error.message := by
  -- In each case `shape` states the one message at hand: unfolding the whole table of messages takes far too long.
  cases error with
  | malformedInstruction => decide
  | unknownMnemonic mnemonic =>
    have shape : message (.unknownMnemonic mnemonic) = "unknown mnemonic: " ++ mnemonic := rfl
    rw [shape]
    exact newline_notMem_append (by decide) free
  | operandCount mnemonic expected found =>
    have shape : message (.operandCount mnemonic expected found) =
        mnemonic ++ " expects " ++ decimal expected ++ " operand(s), got " ++ decimal found := rfl
    have expects :=
      newline_notMem_surround free (by decide : '\n' ∉ (" expects " : Text)) (newline_notMem_decimal expected)
    rw [shape]
    exact newline_notMem_surround expects (by decide) (newline_notMem_decimal found)
  | invalidRegister token =>
    have shape : message (.invalidRegister token) = "invalid or unmapped register: " ++ token := rfl
    rw [shape]
    exact newline_notMem_append (by decide) free
  | invalidImmediate token =>
    have shape : message (.invalidImmediate token) =
        "invalid immediate value: " ++ token ++ " (expected #<decimal>)" := rfl
    rw [shape]
    exact newline_notMem_surround (by decide) free (by decide)
  | immediateRange value bits least greatest =>
    have shape : message (.immediateRange value bits least greatest) = "immediate " ++ value ++ " out of range for " ++
        decimal bits ++ " bits (min: " ++ signedDecimal least ++ ", max: " ++ signedDecimal greatest ++ ")" := rfl
    have quoted := newline_notMem_surround (by decide : '\n' ∉ ("immediate " : Text)) free
      (by decide : '\n' ∉ (" out of range for " : Text))
    have width := newline_notMem_surround quoted (newline_notMem_decimal bits) (by decide : '\n' ∉ (" bits (min: " : Text))
    have lower := newline_notMem_surround width (signedDecimal_isPlainToken least).newline_notMem
      (by decide : '\n' ∉ (", max: " : Text))
    rw [shape]
    exact newline_notMem_surround lower (signedDecimal_isPlainToken greatest).newline_notMem (by decide)
  | undefinedLabel label =>
    have shape : message (.undefinedLabel label) = "undefined label: " ++ label := rfl
    rw [shape]
    exact newline_notMem_append (by decide) free

theorem Diagnostic.newline_notMem_message {diagnostic : Diagnostic} (inText : '\n' ∉ diagnostic.text)
    (inError : '\n' ∉ diagnostic.error.message) : '\n' ∉ diagnostic.message := by
  have shape : diagnostic.message = "address " ++ decimal diagnostic.address ++ " ('" ++ diagnostic.text ++ "'): " ++
      diagnostic.error.message := rfl
  have address :=
    newline_notMem_append (by decide : '\n' ∉ ("address " : Text)) (newline_notMem_decimal diagnostic.address)
  have text := newline_notMem_surround address (by decide : '\n' ∉ (" ('" : Text)) inText
  rw [shape]
  exact newline_notMem_surround text (by decide) inError

theorem text_mem_of_mem_entriesFrom {address : Nat} {symbols : SymbolTable} {lines : List Text} {entry : Entry}
    (member : entry ∈ entriesFrom address symbols lines) : entry.text ∈ lines := by
  obtain ⟨i, atEntry⟩ := List.mem_iff_getElem?.mp member
  rw [getElem?_entriesFrom] at atEntry
  obtain ⟨text, atText, rfl⟩ := Option.map_eq_some_iff.mp atEntry
  exact List.mem_of_getElem? atText

/-- The text of an entry is a statement of the source, so it is a single line. -/
theorem isStatement_of_mem_entries {source : Text} {program : Program} (assembled : assemble source = .ok program)
    {entry : Entry} (member : entry ∈ program.entries) : IsStatement entry.text := by
  obtain ⟨placement, placed, rfl⟩ := assemble_eq_ok_iff.mp assembled
  have instruction := text_mem_of_mem_entriesFrom member
  rw [(Placement.of_ofLines placed).1] at instruction
  exact isStatement_of_mem_statements (List.mem_of_mem_filter instruction)

/-- Every diagnostic of a program is a single line. -/
theorem newline_notMem_of_mem_diagnostics {source : Text} {program : Program}
    (assembled : assemble source = .ok program)
    {diagnostic : Diagnostic} (member : diagnostic ∈ program.diagnostics) : '\n' ∉ diagnostic.message := by
  have entry := Program.mem_diagnostics.mp member
  apply Diagnostic.newline_notMem_message (isStatement_of_mem_entries assembled entry).newline_notMem
  obtain ⟨placement, placed, rfl⟩ := assemble_eq_ok_iff.mp assembled
  have failed := outcome_of_mem_entriesFrom entry
  have quotes := quotesFrom_of_encodeLine failed.symm
  exact EncodeError.newline_notMem_message (quotes.newline_notMem fun _ => newline_notMem_of_mem_tokens)

end SimtAsm
