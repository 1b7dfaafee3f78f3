import SimtAsm.Proofs.Passes

namespace SimtAsm

namespace Placement

variable {rewrite rename : Text → Text} {lines : List Text}
  (labels : ∀ line ∈ lines, labelName? (rewrite line) = (labelName? line).map rename)
include labels

theorem declarationsFrom_map (address : Nat) :
    declarationsFrom address (lines.map rewrite) =
      (declarationsFrom address lines).map fun declaration => (rename declaration.1, declaration.2) := by
  induction lines generalizing address with
  | nil => rfl
  | cons line rest ih =>
    have here := labels line (List.mem_cons_self ..)
    have later := ih fun x member => labels x (List.mem_cons_of_mem _ member)
    cases label : labelName? line with
    | some name =>
      rw [label, Option.map_some] at here
      simp only [List.map_cons, declarationsFrom, here, label, later]
    | none =>
      rw [label, Option.map_none] at here
      simp only [List.map_cons, declarationsFrom, here, label, later]

theorem instructionLines_map : instructionLines (lines.map rewrite) = (instructionLines lines).map rewrite := by
  have same : ∀ line ∈ lines, (labelName? (rewrite line)).isNone = (labelName? line).isNone := by
    intro line member
    rw [labels line member, Option.isNone_map]
  rw [instructionLines, instructionLines, List.filter_map]
  exact congrArg (List.map rewrite) (List.filter_congr same)

end Placement

/-- An entry whose statement and outcome are rewritten; its address stays. -/
def Entry.rewrite (text : Text → Text) (outcome : Except EncodeError Word → Except EncodeError Word)
    (entry : Entry) : Entry :=
  ⟨entry.address, text entry.text, outcome entry.outcome⟩

theorem entriesFrom_map {rewrite : Text → Text} {outcome : Except EncodeError Word → Except EncodeError Word}
    {symbols symbols' : SymbolTable} {lines : List Text}
    (each : ∀ line ∈ lines, encodeLine symbols' (rewrite line) = outcome (encodeLine symbols line)) (address : Nat) :
    entriesFrom address symbols' (lines.map rewrite) =
      (entriesFrom address symbols lines).map (Entry.rewrite rewrite outcome) := by
  induction lines generalizing address with
  | nil => rfl
  | cons line rest ih =>
    have here := each line (List.mem_cons_self ..)
    have later := ih fun x member => each x (List.mem_cons_of_mem _ member)
    simp only [List.map_cons, entriesFrom, Entry.rewrite, here, later]

end SimtAsm
