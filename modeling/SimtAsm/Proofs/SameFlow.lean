import SimtAsm.Proofs.ControlFlow
import SimtAsm.Proofs.Reassembly

namespace SimtAsm

open Std Disassembly

/-- What control flow sees of a word. -/
def Word.flow? (word : Word) : Option (Op × Cond × Nat) :=
  match decode word with
  | .ok d => some (d.op, d.cond, d.target)
  | .error _ => none

theorem Word.flow?_canonical {word : Word} {d : Decoded} (decoded : decode word = .ok d) :
    word.canonical.flow? = word.flow? := by
  simp only [flow?, decode_canonical decoded, decoded]

theorem Word.flow?_eq_cases {word word' : Word} (alike : word.flow? = word'.flow?) :
    (∃ error error', decode word = .error error ∧ decode word' = .error error') ∨
      ∃ d d', decode word = .ok d ∧ decode word' = .ok d' ∧ d.op = d'.op ∧ d.cond = d'.cond ∧ d.target = d'.target := by
  unfold flow? at alike
  cases decoded : decode word with
  | error error =>
    cases decoded' : decode word' with
    | error error' => exact Or.inl ⟨error, error', rfl, rfl⟩
    | ok d' => simp [decoded, decoded'] at alike
  | ok d =>
    cases decoded' : decode word' with
    | error error' => simp [decoded, decoded'] at alike
    | ok d' => exact Or.inr ⟨d, d', rfl, rfl, by simpa [decoded, decoded'] using alike⟩

namespace Image

/-- Images at the same base with as many words, which look the same to control flow one by one. -/
structure SameFlow (image other : Image) : Prop where
  base : image.base = other.base
  words : image.words.map Word.flow? = other.words.map Word.flow?

namespace SameFlow

variable {image other : Image} (same : image.SameFlow other)
include same

theorem length_eq : image.words.length = other.words.length := by
  simpa using congrArg List.length same.words

theorem isMapped_eq (address : Nat) : image.isMapped address = other.isMapped address := by
  rw [isMapped, isMapped, pastEnd, pastEnd, same.base, same.length_eq]

theorem keepMapped_eq (addresses : List Nat) : image.keepMapped addresses = other.keepMapped addresses := by
  induction addresses with
  | nil => rfl
  | cons address rest ih => rw [keepMapped, keepMapped, same.isMapped_eq, ih]

theorem word?_cases (address : Nat) :
    (image.word? address = none ∧ other.word? address = none) ∨
      ∃ word word', image.word? address = some word ∧ other.word? address = some word' ∧
        word.flow? = word'.flow? := by
  have alike : (image.word? address).map Word.flow? = (other.word? address).map Word.flow? := by
    rw [word?, word?, same.base]
    split
    · rfl
    · rw [← List.getElem?_map, ← List.getElem?_map, same.words]
  cases found : image.word? address with
  | none =>
    rw [found, Option.map_none] at alike
    exact Or.inl ⟨rfl, Option.map_eq_none_iff.mp alike.symm⟩
  | some word =>
    rw [found, Option.map_some] at alike
    obtain ⟨word', found', flow⟩ := Option.map_eq_some_iff.mp alike.symm
    exact Or.inr ⟨word, word', rfl, found', flow.symm⟩

theorem fallThrough_eq (report : Report) (address next : Nat) :
    image.fallThrough report address next = other.fallThrough report address next := by
  rw [fallThrough, fallThrough, same.isMapped_eq]

theorem visit_eq (report : Report) (address : Nat) : image.visit report address = other.visit report address := by
  rcases same.word?_cases address with ⟨missing, missing'⟩ | ⟨word, word', found, found', alike⟩
  · simp only [visit, missing, missing']
  · rcases Word.flow?_eq_cases alike with ⟨_, _, unknown, unknown'⟩ | ⟨d, d', decoded, decoded', op, cond, target⟩
    · simp only [visit, found, found', unknown, unknown']
    · simp only [visit, found, found', decoded, decoded', step, op, cond, target, same.keepMapped_eq,
        same.fallThrough_eq]

/-- Both walks have the same queue and the same report at every step. -/
theorem walk_eq (report : Report) (queue : List Nat) : image.walk report queue = other.walk report queue := by
  fun_induction Image.walk image report queue with
  | case1 report => rw [walk]
  | case2 report address queue old ih => rw [walk, dif_pos old, ih]
  | case3 report address queue fresh overflow failed =>
    rw [same.visit_eq] at failed
    rw [walk, dif_neg fresh]
    split
    · rename_i failed'
      exact congrArg Except.error (Except.error.inj (failed.symm.trans failed'))
    · rename_i visited
      cases failed.symm.trans visited
  | case4 report address queue fresh found targets visited ih =>
    rw [same.visit_eq] at visited
    rw [walk, dif_neg fresh, ih]
    split
    · rename_i failed
      cases visited.symm.trans failed
    · rename_i visited'
      cases visited.symm.trans visited'
      rfl

/-- Nothing in a report tells the two images apart. -/
theorem follow_eq (entries : List Nat) : image.follow entries = other.follow entries := by
  simp only [follow, same.keepMapped_eq, same.walk_eq]

end SameFlow

theorem sameFlow_canonical (base : Nat) {words : List Word} (decodes : ∀ word ∈ words, ∃ d, decode word = .ok d) :
    SameFlow ⟨base, words⟩ ⟨base, words.map Word.canonical⟩ := by
  refine ⟨rfl, ?_⟩
  rw [List.map_map]
  apply List.map_congr_left
  intro word member
  obtain ⟨d, decoded⟩ := decodes word member
  exact (Word.flow?_canonical decoded).symm

/-- Below the limit of addresses following control flow always gives a report. -/
theorem exists_follow {image : Image} (bounded : image.base + image.words.length < addressLimit) (entries : List Nat) :
    ∃ report, image.follow entries = .ok report := by
  obtain ⟨_, followed, _⟩ := exists_follow_walked bounded entries
  exact ⟨_, followed⟩

end Image

/-- Reassembly keeps control flow. For words that all decode and whose branches stay within them or lead to their end,
the reassembled words give the same report as the given ones, at every base and from all entries. -/
theorem follow_reassembled {words : List Word} (decodes : ∀ word ∈ words, ∃ d, decode word = .ok d)
    (within : ∀ word ∈ words, ∀ d, decode word = .ok d → d.op = .br → d.target ≤ words.length) :
    ∃ program again, assemble (disassemble words) = .ok program ∧ program.words = .ok again ∧
      ∀ base entries, base + words.length < addressLimit →
        ∃ report, Image.follow ⟨base, words⟩ entries = .ok report ∧ Image.follow ⟨base, again⟩ entries = .ok report := by
  obtain ⟨program, assembled, sameWords, _⟩ := exists_reassembled words
  have noPadding : extent words = words.length := by
    apply extent_eq_length
    intro target member
    obtain ⟨word, inWords, d, decoded, branch, rfl⟩ := mem_targets.mp member
    exact within word inWords d decoded branch
  rw [noPadding, Nat.sub_self, List.replicate_zero, List.append_nil] at sameWords
  refine ⟨program, words.map Word.canonical, assembled, sameWords, ?_⟩
  intro base entries bounded
  obtain ⟨report, followed⟩ := @Image.exists_follow ⟨base, words⟩ bounded entries
  exact ⟨report, followed, (Image.sameFlow_canonical base decodes).follow_eq entries ▸ followed⟩

/-- A branch to the end and a return, both with reserved bits that reassembly clears. -/
theorem follow_reassembled_reserved :
    ∃ program again report, assemble (disassemble [0x1902#16, 0xF0AB#16]) = .ok program ∧ program.words = .ok again ∧
      Image.follow ⟨1, [0x1902#16, 0xF0AB#16]⟩ [1] = .ok report ∧ Image.follow ⟨1, again⟩ [1] = .ok report := by
  obtain ⟨program, again, assembled, sameWords, followed⟩ := @follow_reassembled [0x1902#16, 0xF0AB#16]
    (List.forall_mem_cons.mpr ⟨⟨_, rfl⟩, List.forall_mem_singleton.mpr ⟨_, rfl⟩⟩)
    (by
      intro word member d decoded branch
      rcases List.mem_cons.mp member with rfl | last
      · cases decoded
        decide
      · cases List.mem_singleton.mp last
        cases decoded
        decide)
  obtain ⟨report, before, after⟩ := followed 1 [1] (by decide)
  exact ⟨program, again, report, assembled, sameWords, before, after⟩

end SimtAsm
