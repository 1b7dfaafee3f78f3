import Mathlib.Data.List.Forall2
import SimtAsm.Proofs.Faults
import SimtAsm.Proofs.Labels
import SimtAsm.Proofs.Rewriting

namespace SimtAsm

open Std Numeral Source

namespace Text

theorem upper_cons (c : Char) (rest : Text) : upper (c :: rest) = c.toUpper :: upper rest := rfl

theorem pieces_upper {isSeparator : Char → Bool} (folded : ∀ c : Char, isSeparator c.toUpper = isSeparator c)
    (text : Text) : pieces isSeparator text.upper = (pieces isSeparator text).map upper := by
  have first : ∀ (c : Char) (parts : List Text), consFirst c.toUpper (parts.map upper) = (consFirst c parts).map upper := by
    intro c parts
    cases parts <;> rfl
  induction text with
  | nil => rfl
  | cons c rest ih =>
    rw [upper_cons, pieces, pieces, folded, ih, first]
    split <;> rfl

end Text

namespace Source

/-- Nothing is left of a text in upper case just when nothing is left of it as written. -/
theorem filter_nonempty_upper (parts : List Text) :
    (parts.map Text.upper).filter (fun part => !part.isEmpty) =
      (parts.filter fun part => !part.isEmpty).map Text.upper := by
  rw [List.filter_map]
  apply congrArg
  apply List.filter_congr
  intro part _
  exact congrArg (!·) (List.isEmpty_map ..)

theorem withoutComment_upper (line : Text) : withoutComment line.upper = (withoutComment line).upper := by
  have same : ((· != ';') ∘ Char.toUpper) = (· != ';') := by
    funext c
    exact congrArg (!·) (Text.toUpper_beq_low (by decide) c)
  rw [withoutComment, Text.upper, List.takeWhile_map, same]
  rfl

theorem statements_upper (source : Text) : statements source.upper = (statements source).map Text.upper := by
  have lines : source.upper.lines = source.lines.map Text.upper :=
    Text.pieces_upper (Text.toUpper_beq_low (by decide)) source
  rw [statements, lines, statements, ← filter_nonempty_upper, List.map_map, List.map_map]
  apply congrArg
  apply List.map_congr_left
  intro line _
  simp only [Function.comp_apply, withoutComment_upper, Text.trim_upper]

theorem tokens_upper (statement : Text) : tokens statement.upper = (tokens statement).map Text.upper := by
  rw [tokens, Text.pieces_upper isSeparator_toUpper, filter_nonempty_upper, tokens]

end Source

/-- The error with the tokens that it shows as written in upper case. Mnemonics and labels are in upper case anyway. -/
def EncodeError.upper : EncodeError → EncodeError
  | invalidRegister token => invalidRegister token.upper
  | invalidImmediate token => invalidImmediate token.upper
  | immediateRange value bits least greatest => immediateRange value.upper bits least greatest
  | error => error

theorem readMnemonic_upper (token : Text) :
    readMnemonic token.upper = (readMnemonic token).mapError EncodeError.upper := by
  rw [readMnemonic, readMnemonic, Text.upper_upper]
  split
  · rfl
  · split <;> rfl

theorem Register.ofToken?_upper (token : Text) : ofToken? token.upper = ofToken? token := by
  apply Option.ext
  intro register
  rw [ofToken?_eq_some_iff, ofToken?_eq_some_iff, Text.trim_upper, Text.upper_upper]

theorem readRegister_upper (token : Text) :
    readRegister token.upper = (readRegister token).mapError EncodeError.upper := by
  rw [readRegister, readRegister, Register.ofToken?_upper]
  split <;> rfl

namespace Numeral

theorem readMagnitude_upper (limit : Nat) (text : Text) :
    readMagnitude 10 limit text.upper = readMagnitude 10 limit text := by
  cases text with
  | nil => rfl
  | cons c rest => exact readDigits_upper 10 limit 0 (c :: rest)

theorem readSigned_upper (limit : Nat) (text : Text) : readSigned 10 limit text.upper = readSigned 10 limit text := by
  cases text with
  | nil => rfl
  | cons c rest =>
    by_cases plus : c = '+'
    · subst plus
      exact congrArg (Except.map Int.ofNat) (readMagnitude_upper limit rest)
    · by_cases minus : c = '-'
      · subst minus
        exact (readSigned_minus limit _).trans
          ((congrArg _ (readMagnitude_upper (limit + 1) rest)).trans (readSigned_minus limit rest).symm)
      · have plus' : c.toUpper ≠ '+' := mt (Text.toUpper_eq_low_iff (by decide)).mp plus
        have minus' : c.toUpper ≠ '-' := mt (Text.toUpper_eq_low_iff (by decide)).mp minus
        rw [readSigned_of_unsigned limit plus minus, ← readDigits_upper, Text.upper_cons,
          readSigned_of_unsigned limit plus' minus']

end Numeral

theorem readImmediate_upper (token : Text) :
    readImmediate token.upper = (readImmediate token).mapError EncodeError.upper := by
  by_cases marked : token.head? = some '#'
  · obtain ⟨digits, rfl⟩ := List.head?_eq_some_iff.mp marked
    have hash : '#'.toUpper = '#' := rfl
    rw [Text.upper_cons, hash, readImmediate, readImmediate, readSigned_upper]
    cases readSigned 10 (1 <<< 63) digits with
    | ok value =>
      dsimp only
      split <;> rfl
    | error error => cases error <;> rfl
  · have unmarked : token.upper.head? ≠ some '#' := by
      rw [Text.upper, List.head?_map]
      intro found
      obtain ⟨c, atHead, folded⟩ := Option.map_eq_some_iff.mp found
      exact marked (atHead.trans (congrArg some ((Text.toUpper_eq_low_iff (by decide)).mp folded)))
    rw [readImmediate_of_unmarked marked, readImmediate_of_unmarked unmarked]
    rfl

theorem mapError_bind {ε ε' α β : Type} (change : ε → ε') (first : Except ε α) (next : α → Except ε β) :
    (first >>= next).mapError change = first.mapError change >>= fun value => (next value).mapError change := by
  cases first <;> rfl

theorem readOperands?_upper (cond : Cond) (layout : Layout) (tokens : List Text) :
    readOperands? cond layout (tokens.map Text.upper) =
      (readOperands? cond layout tokens).map (Except.mapError EncodeError.upper) := by
  cases read : readOperands? cond layout tokens with
  | none =>
    rw [Option.map_none, readOperands?_eq_none_iff, List.length_map]
    exact readOperands?_eq_none_iff.mp read
  | some result =>
    unfold readOperands? at read
    split at read
    case h_7 => simp at read
    all_goals
      cases read
      simp only [List.map_cons, List.map_nil, readOperands?, readRegister_upper, readImmediate_upper, Option.map_some,
        mapError_bind, Text.upper_upper]
      rfl

theorem Instr.ofTokens_upper (tokens : List Text) :
    ofTokens (tokens.map Text.upper) = (ofTokens tokens).mapError EncodeError.upper := by
  cases tokens with
  | nil => rfl
  | cons mnemonic operands =>
    simp only [List.map_cons, ofTokens, mapError_bind, readMnemonic_upper]
    apply congrArg
    funext read
    obtain ⟨op, cond⟩ := read
    simp only [readOperands?_upper, Text.upper_upper, List.length_map]
    cases readOperands? cond op.layout operands with
    | none => rfl
    | some result => cases result <;> rfl

/-- Only labels can still be missing when an instruction is encoded, and these are in upper case. -/
theorem Instr.mapError_encode (symbols : SymbolTable) (instr : Instr) :
    (instr.encode symbols).mapError EncodeError.upper = instr.encode symbols := by
  obtain ⟨op, operands⟩ := instr
  cases operands with
  | branch cond target =>
    simp only [encode, Operands.encode]
    split <;> rfl
  | regImm | srcPair | triple | dstSrc | bare => rfl

theorem encodeLine_upper (symbols : SymbolTable) (line : Text) :
    encodeLine symbols line.upper = (encodeLine symbols line).mapError EncodeError.upper := by
  simp only [encodeLine, tokens_upper, Instr.ofTokens_upper, mapError_bind, Instr.mapError_encode]

theorem labelName?_upper (line : Text) : labelName? line.upper = (labelName? line).map Text.upper := by
  have colon : line.upper.getLast? = some ':' ↔ line.getLast? = some ':' := by
    rw [Text.upper, List.getLast?_map, Option.map_eq_some_iff]
    simp only [Text.toUpper_eq_low_iff (show ':'.toNat < 65 by decide), exists_eq_right]
  unfold labelName?
  by_cases ends : line.getLast? = some ':'
  · rw [if_pos (colon.mpr ends), if_pos ends, Option.map_some, Text.upper, Text.upper, List.map_dropLast]
  · rw [if_neg (mt colon.mp ends), if_neg ends, Option.map_none]

def DuplicateLabel.upper (error : DuplicateLabel) : DuplicateLabel := ⟨error.label.upper⟩

theorem SymbolTable.define_upper (table : SymbolTable) (label : Text) (address : Nat) :
    table.define label.upper address =
      ((table.define label address).1.mapError DuplicateLabel.upper, (table.define label address).2) := by
  rw [define, define, key_upper, Text.trim_upper]
  split <;> rfl

theorem SymbolTable.defineAll_upper (table : SymbolTable) (declarations : List (Text × Nat)) :
    table.defineAll (declarations.map fun declaration => (declaration.1.upper, declaration.2)) =
      (table.defineAll declarations).mapError DuplicateLabel.upper := by
  induction declarations generalizing table with
  | nil => rfl
  | cons declaration rest ih =>
    simp only [List.map_cons, defineAll, define_upper]
    rcases table.define declaration.1 declaration.2 with ⟨error | _, next⟩
    · rfl
    · exact ih next

/-- A program with its statements in upper case, and likewise what errors show of them. -/
def Program.upper (program : Program) : Program where
  entries := program.entries.map (Entry.rewrite Text.upper (Except.mapError EncodeError.upper))
  instructions := program.instructions.map Text.upper
  symbols := program.symbols

theorem assemble_upper (source : Text) :
    assemble source.upper = ((assemble source).mapError DuplicateLabel.upper).map Program.upper := by
  have labels : ∀ line ∈ statements source, labelName? line.upper = (labelName? line).map Text.upper :=
    fun line _ => labelName?_upper line
  rw [assemble_eq, assemble_eq, statements_upper, Placement.ofLines, Placement.ofLines, Placement.ofLinesFrom_eq,
    Placement.ofLinesFrom_eq, Placement.declarationsFrom_map labels, Placement.instructionLines_map labels,
    SymbolTable.defineAll_upper]
  cases SymbolTable.empty.defineAll (Placement.declarationsFrom 0 (statements source)) with
  | error error => rfl
  | ok symbols =>
    have each : ∀ line ∈ Placement.instructionLines (statements source), encodeLine symbols line.upper = _ :=
      fun line _ => encodeLine_upper symbols line
    have entries := entriesFrom_map each 0
    simp only [Except.map, Except.mapError, Program.ofPlacement, Program.upper, entries]

/-- The same error, but for the case of a token that is shown as written. -/
inductive EncodeError.CaseVariant : EncodeError → EncodeError → Prop
  | same (error : EncodeError) : CaseVariant error error
  | register {token other : Text} : token.upper = other.upper →
      CaseVariant (.invalidRegister token) (.invalidRegister other)
  | immediate {token other : Text} : token.upper = other.upper →
      CaseVariant (.invalidImmediate token) (.invalidImmediate other)
  | range {value other : Text} {bits : Nat} {least greatest : Int} : value.upper = other.upper →
      CaseVariant (.immediateRange value bits least greatest) (.immediateRange other bits least greatest)

/-- Entries at the same address whose statements differ in case only: both have the same word, or both an error. -/
structure Entry.CaseVariant (entry other : Entry) : Prop where
  address : entry.address = other.address
  text : entry.text.upper = other.text.upper
  outcome : (∃ word, entry.outcome = .ok word ∧ other.outcome = .ok word) ∨
    ∃ error error', entry.outcome = .error error ∧ other.outcome = .error error' ∧ error.CaseVariant error'

theorem EncodeError.caseVariant_of_upper {error other : EncodeError} (same : error.upper = other.upper) :
    error.CaseVariant other := by
  cases error <;> cases other <;> simp only [upper, reduceCtorEq, invalidRegister.injEq, invalidImmediate.injEq,
    immediateRange.injEq] at same
  case invalidRegister.invalidRegister => exact .register same
  case invalidImmediate.invalidImmediate => exact .immediate same
  case immediateRange.immediateRange =>
    obtain ⟨same, rfl, rfl, rfl⟩ := same
    exact .range same
  case malformedInstruction.malformedInstruction => exact .same _
  all_goals
    rw [same]
    exact .same _

theorem Entry.caseVariant_of_rewrite {entry other : Entry}
    (same : entry.rewrite Text.upper (Except.mapError EncodeError.upper) =
      other.rewrite Text.upper (Except.mapError EncodeError.upper)) : entry.CaseVariant other := by
  obtain ⟨address, text, outcome⟩ := entry
  obtain ⟨address', text', outcome'⟩ := other
  simp only [rewrite, mk.injEq] at same
  obtain ⟨sameAddress, sameText, sameOutcome⟩ := same
  refine ⟨sameAddress, sameText, ?_⟩
  cases outcome with
  | ok word =>
    cases outcome' with
    | ok word' => exact Or.inl ⟨word, rfl, sameOutcome.symm⟩
    | error error' => cases sameOutcome
  | error error =>
    cases outcome' with
    | ok word' => cases sameOutcome
    | error error' =>
      exact Or.inr ⟨error, error', rfl, rfl, EncodeError.caseVariant_of_upper (Except.error.inj sameOutcome)⟩

theorem map_eq_map_iff_forall₂ {α β : Type} {f : α → β} {first second : List α} :
    first.map f = second.map f ↔ List.Forall₂ (fun a b => f a = f b) first second := by
  rw [← List.forall₂_eq_eq_eq, List.forall₂_map_left_iff, List.forall₂_map_right_iff]

/-- The language has no case. Two sources that agree character by character up to ASCII case both assemble or both
fail. When they assemble, they have the same labels, and at each address the same word or the same error up to the case
of what it shows as written. When they fail, both name the same label. -/
theorem assemble_ignores_case {source other : Text}
    (same : List.Forall₂ (fun a b : Char => a.toUpper = b.toUpper) source other) :
    ((∃ program, assemble source = .ok program) ↔ ∃ program, assemble other = .ok program) ∧
      (∀ program program', assemble source = .ok program → assemble other = .ok program' →
        program.symbols = program'.symbols ∧ List.Forall₂ Entry.CaseVariant program.entries program'.entries) ∧
      ∀ error error', assemble source = .error error → assemble other = .error error' →
        error.label.upper = error'.label.upper := by
  have folded : source.upper = other.upper := map_eq_map_iff_forall₂.mpr same
  have alike := (assemble_upper source).symm.trans ((congrArg assemble folded).trans (assemble_upper other))
  cases atSource : assemble source with
  | ok program =>
    cases atOther : assemble other with
    | ok program' =>
      simp only [atSource, atOther, Except.map, Except.mapError, Except.ok.injEq, Program.upper, Program.mk.injEq] at alike
      obtain ⟨entries, _, symbols⟩ := alike
      have variants := (map_eq_map_iff_forall₂.mp entries).imp fun _ _ => Entry.caseVariant_of_rewrite
      refine ⟨⟨fun _ => ⟨program', rfl⟩, fun _ => ⟨program, rfl⟩⟩, ?_, by simp⟩
      rintro _ _ ⟨⟩ ⟨⟩
      exact ⟨symbols, variants⟩
    | error error' => simp [atSource, atOther, Except.map, Except.mapError] at alike
  | error error =>
    cases atOther : assemble other with
    | ok program' => simp [atSource, atOther, Except.map, Except.mapError] at alike
    | error error' =>
      simp only [atSource, atOther, Except.map, Except.mapError, Except.error.injEq] at alike
      refine ⟨by simp, by simp, ?_⟩
      rintro _ _ ⟨⟩ ⟨⟩
      exact congrArg DuplicateLabel.label alike

/-- A label, a condition and a mistaken register in two spellings. -/
theorem assemble_ignores_case_loop :
    ∃ program program', assemble "a:\nBRz A\nLDR r1, q9" = .ok program ∧
      assemble "A:\nbrZ a\nldr R1, Q9" = .ok program' ∧ program.symbols = program'.symbols ∧
      List.Forall₂ Entry.CaseVariant program.entries program'.entries := by
  have first : assemble "a:\nBRz A\nLDR r1, q9" = .ok (.ofPlacement
      ⟨⟨(∅ : ExtTreeMap Text Nat).insert "A" 0⟩, ["BRz A", "LDR r1, q9"]⟩) := rfl
  have second : assemble "A:\nbrZ a\nldr R1, Q9" = .ok (.ofPlacement
      ⟨⟨(∅ : ExtTreeMap Text Nat).insert "A" 0⟩, ["brZ a", "ldr R1, Q9"]⟩) := rfl
  have alike := @assemble_ignores_case "a:\nBRz A\nLDR r1, q9" "A:\nbrZ a\nldr R1, Q9"
    (map_eq_map_iff_forall₂.mp (by decide))
  exact ⟨_, _, first, second, alike.2.1 _ _ first second⟩

end SimtAsm
