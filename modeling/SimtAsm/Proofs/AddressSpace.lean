import SimtAsm.Assembly.Trace
import SimtAsm.Proofs.Encoding
import SimtAsm.Proofs.Passes

namespace SimtAsm

open Source Std

namespace Placement

/-- Instructions count from zero, so a placement of exactly `limit` of them still lies below it. -/
theorem exists_address_ge_iff {placement : Placement} {limit : Nat} :
    (∃ entry ∈ (Program.ofPlacement placement).entries, limit ≤ entry.address) ↔ limit < placement.count := by
  have addresses := map_address_entriesFrom 0 placement.symbols placement.instructions
  have listed : ∀ address, address ∈ (Program.ofPlacement placement).entries.map Entry.address ↔
      address < placement.count := by
    intro address
    rw [Program.ofPlacement, addresses, List.mem_range'_1, count]
    omega
  constructor
  · rintro ⟨entry, member, above⟩
    have below := (listed entry.address).mp (List.mem_map_of_mem member)
    omega
  · intro above
    obtain ⟨entry, member, same⟩ := List.mem_map.mp ((listed limit).mpr above)
    exact ⟨entry, member, by omega⟩

theorem liesBelow_eq_false_iff {placement : Placement} {limit : Nat} :
    placement.liesBelow limit = false ↔
      (∃ entry ∈ (Program.ofPlacement placement).entries, limit ≤ entry.address) ∨
        ∃ name address, (name, address) ∈ placement.symbols.toList ∧ limit ≤ address := by
  rw [exists_address_ge_iff, liesBelow, Bool.and_eq_false_iff, decide_eq_false_iff_not, Nat.not_le]
  simp only [List.all_eq_false, decide_eq_true_eq, Nat.not_lt, Prod.exists]

theorem address_lt_of_liesBelow {placement : Placement} {limit : Nat} (inside : placement.liesBelow limit = true)
    {label : Text} {address : Nat} (found : placement.symbols.get? label = some address) : address < limit := by
  rw [liesBelow, Bool.and_eq_true, List.all_eq_true] at inside
  exact of_decide_eq_true (inside.2 _ (SymbolTable.mem_toList.mpr found))

end Placement

/-- The warning is part of the trace just when some address is out of reach. -/
theorem beyondReach_mem_trace_iff {source : Text} {placement : Placement}
    (placed : Placement.ofLines (statements source) = .ok placement) :
    (∃ count, Event.beyondReach count ∈ trace source) ↔ placement.withinReach = false := by
  simp only [trace, placed, Placement.trace]
  cases within : placement.withinReach <;> simp

/-- A branch statement with its word: `word` is what `entry` gives for a branch to `label`. -/
structure Entry.BranchesTo (entry : Entry) (label : Text) (word : Word) : Prop where
  statement : ∃ cond, Instr.ofTokens (tokens entry.text) = .ok ⟨.br, .branch cond label⟩
  outcome : entry.outcome = .ok word

theorem Entry.BranchesTo.target {symbols : SymbolTable} {entry : Entry} {label : Text} {word : Word}
    (branch : entry.BranchesTo label word) (own : entry.outcome = encodeLine symbols entry.text) :
    ∃ address d, symbols.get? label = some address ∧ decode word = .ok d ∧ d.target = address % 256 := by
  obtain ⟨cond, read⟩ := branch.statement
  obtain ⟨instr, read', encoded⟩ := bind_eq_ok.mp (own.symm.trans branch.outcome)
  cases read.symm.trans read'
  obtain ⟨d, shown, decoded⟩ := Instr.decode_encode (Instr.wellFormed_of_ofTokens read) encoded
  obtain ⟨address, found, rfl⟩ := Option.map_eq_some_iff.mp shown
  exact ⟨address, _, found, decoded, rfl⟩

/-- Without the warning every branch word carries the full address of its label, and a branch word with another
target comes with the warning. It is given just when some instruction or some label, one behind the last
instruction included, has an address from 256 on. -/
theorem branch_target_exact {source : Text} {program : Program} (assembled : assemble source = .ok program) :
    ∃ placement fits, Placement.ofLines (statements source) = .ok placement ∧ placement.fits? 8 = .ok fits ∧
      (fits = false ↔ ∃ count, Event.beyondReach count ∈ trace source) ∧
      (fits = true → ∀ entry ∈ program.entries, ∀ label word, entry.BranchesTo label word →
        ∃ d, decode word = .ok d ∧ program.symbols.get? label = some d.target) ∧
      (∀ entry ∈ program.entries, ∀ label word d, entry.BranchesTo label word → decode word = .ok d →
        program.symbols.get? label ≠ some d.target → ∃ count, Event.beyondReach count ∈ trace source) ∧
      (fits = false ↔ (∃ entry ∈ program.entries, 256 ≤ entry.address) ∨
        ∃ name address, (name, address) ∈ program.symbols.toList ∧ 256 ≤ address) := by
  obtain ⟨placement, placed, rfl⟩ := assemble_eq_ok_iff.mp assembled
  have warned := beyondReach_mem_trace_iff placed
  have reached : placement.withinReach = true → ∀ entry ∈ (Program.ofPlacement placement).entries, ∀ label word,
      entry.BranchesTo label word → ∃ d, decode word = .ok d ∧ placement.symbols.get? label = some d.target := by
    intro within entry member label word branch
    obtain ⟨address, d, found, decoded, low⟩ := branch.target (outcome_of_mem_entriesFrom member)
    have small : address < 256 := Placement.address_lt_of_liesBelow within found
    rw [Nat.mod_eq_of_lt small] at low
    exact ⟨d, decoded, by rw [found, low]⟩
  refine ⟨placement, placement.withinReach, placed, rfl, warned.symm, reached, ?_, Placement.liesBelow_eq_false_iff⟩
  intro entry member label word d branch decoded differs
  rw [warned]
  cases within : placement.withinReach with
  | false => rfl
  | true =>
    obtain ⟨d', decoded', found⟩ := reached within entry member label word branch
    cases decoded.symm.trans decoded'
    exact absurd found differs

/-- A branch to a label behind the last instruction. -/
theorem branch_target_exact_trailing :
    ∃ program d, assemble "BRnz End\nNOP\nEND:" = .ok program ∧ program.words = .ok [0x1C02#16, 0#16] ∧
      decode 0x1C02#16 = .ok d ∧ program.symbols.get? "END" = some d.target ∧
      ¬∃ count, Event.beyondReach count ∈ trace "BRnz End\nNOP\nEND:" := by
  have placed : Placement.ofLines (statements "BRnz End\nNOP\nEND:") =
      .ok ⟨⟨(∅ : ExtTreeMap Text Nat).insert "END" 2⟩, ["BRnz End", "NOP"]⟩ := by
    rfl
  have assembled := assemble_eq_ok_iff.mpr ⟨_, placed, rfl⟩
  obtain ⟨placement, fits, placed', fitting, warned, reached, _, _⟩ := branch_target_exact assembled
  cases placed.symm.trans placed'
  obtain rfl : true = fits := Except.ok.inj fitting
  obtain ⟨d, decoded, found⟩ := reached rfl _ (List.mem_cons_self ..) "END" 0x1C02#16 ⟨⟨_, rfl⟩, rfl⟩
  exact ⟨_, d, assembled, rfl, decoded, found, fun warning => absurd (warned.mpr warning) (by decide)⟩

end SimtAsm
