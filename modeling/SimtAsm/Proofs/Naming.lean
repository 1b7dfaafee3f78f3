import SimtAsm.Proofs.Canonical
import SimtAsm.Proofs.LetterCase
import SimtAsm.Proofs.Packing

namespace SimtAsm

open Numeral Source

namespace Decoded

variable {word : Word} {d : Decoded} (decoded : decode word = .ok d)
include decoded

/-- Without a branch there is nothing to name, and the word comes back without its reserved bits. -/
theorem encodeLine_text_of_straight (straight : d.op ≠ .br) (name? : Nat → Option Text) (symbols : SymbolTable) :
    encodeLine symbols (d.text name?) = .ok (word &&& ~~~d.op.layout.reserved) := by
  have layout : d.op.layout ≠ .branch := fun branch => straight (Op.layout_eq_branch_iff.mp branch)
  have encodes : encodeLine symbols (d.text name?) =
      Instr.encode symbols ⟨d.op, d.operands ((name? d.target).getD (decimal d.target)).upper⟩ :=
    (inRange_of_decode decoded).encodeLine_text rfl (fun branch => absurd branch layout) symbols
  rw [encodes, encode_eq_canonical decoded fun branch => absurd branch layout, Word.canonical_of_decode decoded]

/-- A branch is read back with its own condition and the printed name, in upper case. -/
theorem encodeLine_text_of_branch (branch : d.op = .br) {name? : Nat → Option Text} {name : Text}
    (printed : (name? d.target).getD (decimal d.target) = name) (token : IsToken name) (symbols : SymbolTable) :
    encodeLine symbols (d.text name?) = Instr.encode symbols ⟨.br, .branch d.cond name.upper⟩ := by
  have encodes := (inRange_of_decode decoded).encodeLine_text printed (fun _ => token) symbols
  have operands : d.operands name.upper = .branch d.cond name.upper := by
    simp only [Decoded.operands, branch, Op.layout]
  rw [encodes, operands, branch]

end Decoded

/-- The text of a decoded word assembles under every naming of targets and every table of labels. What is no branch
gives its word with the reserved bits cleared. A branch whose printed name is a single token gives the word of the
label's address, or lacks that label if the table does. -/
theorem reassembles_under_any_naming {word : Word} {d : Decoded} (decoded : decode word = .ok d)
    (name? : Nat → Option Text) (symbols : SymbolTable) :
    (d.op ≠ .br → encodeLine symbols (d.text name?) = .ok (word &&& ~~~d.op.layout.reserved)) ∧
      ∀ name, d.op = .br → (name? d.target).getD (decimal d.target) = name → IsToken name →
        (∀ address, symbols.get? name = some address → ∃ branch, encodeLine symbols (d.text name?) = .ok branch ∧
          branch.toNat = 4096 + 512 * d.cond.bits + address % 256) ∧
        (symbols.get? name = none → encodeLine symbols (d.text name?) = .error (.undefinedLabel name.upper)) := by
  refine ⟨fun straight => Decoded.encodeLine_text_of_straight decoded straight name? symbols, ?_⟩
  intro name branch printed token
  rw [Decoded.encodeLine_text_of_branch decoded branch printed token]
  refine ⟨?_, ?_⟩
  · intro address found
    rw [← SymbolTable.get?_upper] at found
    exact ⟨_, Instr.encode_branch found d.cond, toNat_branchWord d.cond address⟩
  · intro missing
    rw [← SymbolTable.get?_upper] at missing
    exact Instr.encode_branch_of_missing missing d.cond

/-- A branch with its reserved bit set, to a name that no label line could declare: with a far address for it, and
without one. A comparison loses its reserved bits under the same naming. -/
theorem reassembles_under_any_naming_odd :
    (encodeLine ⟨(∅ : Std.ExtTreeMap Text Nat).insert "A;B" 300⟩ "BRnz a;b" = .ok 0x1C2C#16 ∧
      encodeLine SymbolTable.empty "BRnz a;b" = .error (.undefinedLabel "A;B")) ∧
      encodeLine SymbolTable.empty "CMP R3, R4" = .ok 0x2034#16 := by
  have decoded : decode 0x1D2C#16 = .ok (Decoded.ofOp .br 0x1D2C#16) := rfl
  have decodedCmp : decode 0x2F34#16 = .ok (Decoded.ofOp .cmp 0x2F34#16) := rfl
  have token : IsToken "a;b" := ⟨by decide, List.all_iff_forall_prop.mp (by decide)⟩
  obtain ⟨_, known⟩ := reassembles_under_any_naming decoded (fun _ => some "a;b")
    ⟨(∅ : Std.ExtTreeMap Text Nat).insert "A;B" 300⟩
  obtain ⟨_, unknown⟩ := reassembles_under_any_naming decoded (fun _ => some "a;b") SymbolTable.empty
  obtain ⟨straight, _⟩ := reassembles_under_any_naming decodedCmp (fun _ => some "a;b") SymbolTable.empty
  obtain ⟨branch, encoded, value⟩ := (known "a;b" rfl rfl token).1 300 rfl
  have same : branch = 0x1C2C#16 := BitVec.eq_of_toNat_eq value
  subst same
  exact ⟨⟨encoded, (unknown "a;b" rfl rfl token).2 rfl⟩, straight (by decide)⟩

end SimtAsm
