import SimtAsm.Proofs.FirstDefinition
import SimtAsm.Proofs.Linking

namespace SimtAsm

open Source Std

namespace SymbolTable

/-- What can be done with a symbol table: to define a label, or to encode a line with the labels that it has. -/
inductive Step
  | define (label : Text) (address : Nat)
  | encode (line : Text)
  deriving DecidableEq, Repr

/-- The address that a step offers for a name. -/
def Step.offer? (name : Text) : Step → Option Nat
  | define label address => if key label = name then some address else none
  | encode _ => none

/-- The table behind a step. Encoding leaves it alone, and so does a definition that is refused. -/
def next (table : SymbolTable) : Step → SymbolTable
  | .define label address => table.defineNext (label, address)
  | .encode _ => table

/-- The table behind a run of steps. -/
def after (table : SymbolTable) (steps : List Step) : SymbolTable := steps.foldl next table

/-- A definition of the name goes through in the course of a run. -/
def Defines (table : SymbolTable) (steps : List Step) (name : Text) (address : Nat) : Prop :=
  ∃ before label rest, steps = before ++ .define label address :: rest ∧ key label = name ∧
    ((table.after before).define label address).1 = .ok ()

theorem after_append (table : SymbolTable) (first second : List Step) :
    table.after (first ++ second) = (table.after first).after second := List.foldl_append

theorem getElem?_next (table : SymbolTable) (step : Step) (name : Text) :
    (table.next step).addresses[name]? = table.addresses[name]?.or (step.offer? name) := by
  cases step with
  | define label address => exact getElem?_defineNext table (label, address) name
  | encode line => exact (Option.or_none ..).symm

/-- A name that has an address keeps it for the rest of the run, and any other takes the first one that is offered. -/
theorem getElem?_after (table : SymbolTable) (steps : List Step) (name : Text) :
    (table.after steps).addresses[name]? = table.addresses[name]?.or (steps.findSome? (Step.offer? name)) := by
  induction steps generalizing table with
  | nil => exact (Option.or_none ..).symm
  | cons step rest ih =>
    have onward : table.after (step :: rest) = (table.next step).after rest := rfl
    rw [onward, ih, getElem?_next, Option.or_assoc, List.findSome?_cons]
    cases step.offer? name <;> rfl

/-- A name is defined in a run just when it has no address before and is offered one, the first being the one it gets. -/
theorem defines_iff {table : SymbolTable} {steps : List Step} {name : Text} {address : Nat} :
    table.Defines steps name address ↔
      table.addresses[name]? = none ∧ steps.findSome? (Step.offer? name) = some address := by
  constructor
  · rintro ⟨before, label, rest, rfl, rfl, goesThrough⟩
    have missing : (table.after before).addresses[key label]? = none :=
      (define_eq_ok_iff.mp (Prod.ext goesThrough rfl)).1
    rw [getElem?_after, Option.or_eq_none_iff] at missing
    refine ⟨missing.1, ?_⟩
    rw [List.findSome?_append, missing.2, Option.none_or, List.findSome?_cons, Step.offer?, if_pos rfl]
  · rintro ⟨missing, offered⟩
    obtain ⟨before, step, rest, rfl, offers, silent⟩ := List.findSome?_eq_some_iff.mp offered
    cases step with
    | encode line => cases offers
    | define label address' =>
      rw [Step.offer?, Option.ite_none_right_eq_some, Option.some.injEq] at offers
      obtain ⟨rfl, rfl⟩ := offers
      have fresh : (table.after before).get? label = none := by
        rw [get?, getElem?_after, missing, Option.none_or, List.findSome?_eq_none_iff]
        exact silent
      exact ⟨before, label, rest, rfl, rfl, congrArg Prod.fst (define_of_fresh fresh address')⟩

end SymbolTable

/-- The label of a branch is kept in a table as it is written in the instruction. -/
theorem Instr.key_of_ofTokens {line label : Text} {op : Op} {cond : Cond}
    (read : ofTokens (tokens line) = .ok ⟨op, .branch cond label⟩) : SymbolTable.key label = label := by
  cases parts : tokens line with
  | nil => simp [parts, ofTokens] at read
  | cons mnemonic rest =>
    rw [parts] at read
    obtain ⟨_, _, _, token, rfl, _, rfl⟩ := ofTokens_cons_eq_ok_iff.mp read
    have isToken : IsToken token := (runs_tokens line).isToken token (by simp [parts])
    rw [SymbolTable.key_upper, SymbolTable.key, isToken.trim_eq]

namespace SymbolTable

/-- What a line gives is settled in the course of every run. A word stays, and so does every error but a missing label.
A missing label stays missing until a definition of it goes through, and from then on the line gives the branch to the
low eight bits of the address defined there. -/
theorem encodeLine_settles (table : SymbolTable) (before later : List Step) (line : Text) :
    (∀ word, encodeLine (table.after before) line = .ok word →
      encodeLine (table.after (before ++ later)) line = .ok word) ∧
      (∀ error, encodeLine (table.after before) line = .error error → (∀ label, error ≠ .undefinedLabel label) →
        encodeLine (table.after (before ++ later)) line = .error error) ∧
      ∀ label, encodeLine (table.after before) line = .error (.undefinedLabel label) →
        ((∀ address, ¬(table.after before).Defines later label address) →
          encodeLine (table.after (before ++ later)) line = .error (.undefinedLabel label)) ∧
        ∀ address, (table.after before).Defines later label address →
          encodeLine (table.after (before ++ later)) line = .ok (branchWord (branchCond line) address) := by
  rw [after_append]
  generalize table.after before = point
  rcases encodeLine_cases line with ⟨target, read, branch⟩ | ⟨outcome, fixed, resolved, _⟩
  · have onward : (point.after later).get? target =
        (point.get? target).or (later.findSome? (Step.offer? target)) := by
      rw [get?, get?, Instr.key_of_ofTokens read, getElem?_after]
    have defines : ∀ {address}, point.Defines later target address ↔
        point.get? target = none ∧ later.findSome? (Step.offer? target) = some address := by
      intro address
      rw [defines_iff, get?, Instr.key_of_ofTokens read]
    rw [branch, branch, onward]
    cases found : point.get? target with
    | some address => simp
    | none =>
      refine ⟨by simp, ?_, ?_⟩
      · rintro error ⟨⟩ other
        exact absurd rfl (other target)
      · rintro label ⟨⟩
        constructor
        · intro undefined
          cases offered : later.findSome? (Step.offer? target) with
          | none => rfl
          | some address => exact absurd (defines.mpr ⟨found, offered⟩) (undefined address)
        · intro address defined
          rw [(defines.mp defined).2]
          rfl
  · rw [fixed, fixed]
    refine ⟨fun word encoded => encoded, fun error failed _ => failed, ?_⟩
    intro label failed
    exact absurd failed (resolved label)

/-- A branch waits for its label while another one is defined twice, and takes the first of two addresses that it is
offered. A branch that has its label and a line that is no instruction stay as they are. -/
theorem encodeLine_settles_waiting :
    encodeLine (empty.after [.define "loop" 3]) "BRnz done" = .error (.undefinedLabel "DONE") ∧
      encodeLine (empty.after [.define "loop" 3, .define "LOOP" 9]) "BRnz done" = .error (.undefinedLabel "DONE") ∧
      encodeLine (empty.after [.define "loop" 3, .define "LOOP" 9, .define " Done\t" 300, .define "DONE" 7])
        "BRnz done" = .ok 0x1C2C#16 ∧
      encodeLine (empty.after [.define "loop" 3, .define "LOOP" 9]) "BRp Loop" = .ok 0x1203#16 ∧
      encodeLine (empty.after [.define "loop" 3, .define "LOOP" 9]) "RET loop" = .error (.operandCount "RET" 0 1) := by
  have missing : encodeLine (empty.after [.define "loop" 3]) "BRnz done" = .error (.undefinedLabel "DONE") := rfl
  refine ⟨missing, ?_, ?_, ?_, ?_⟩
  · obtain ⟨_, _, waits⟩ := encodeLine_settles empty [.define "loop" 3] [.define "LOOP" 9] "BRnz done"
    refine (waits _ missing).1 ?_
    intro address defined
    cases (defines_iff.mp defined).2
  · obtain ⟨_, _, waits⟩ := encodeLine_settles empty [.define "loop" 3]
      [.define "LOOP" 9, .define " Done\t" 300, .define "DONE" 7] "BRnz done"
    exact (waits _ missing).2 300 (defines_iff.mpr ⟨rfl, rfl⟩)
  · exact (encodeLine_settles empty [.define "loop" 3] [.define "LOOP" 9] "BRp Loop").1 _ rfl
  · exact (encodeLine_settles empty [.define "loop" 3] [.define "LOOP" 9] "RET loop").2.1 _ rfl (by simp)

end SymbolTable

end SimtAsm
