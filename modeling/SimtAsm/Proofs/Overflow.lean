import SimtAsm.Proofs.ControlFlow

namespace SimtAsm

namespace Image

variable {image : Image}

theorem isMapped_of_below {address : Nat} (below : address < image.base) : image.isMapped address = .ok false :=
  if_pos below

/-- Both ways to ask for a word agree where the end of the image is an address. -/
theorem isMapped_eq_isSome (bounded : image.base + image.words.length < addressLimit) (address : Nat) :
    image.isMapped address = .ok (image.word? address).isSome := by
  rw [isMapped_eq bounded]
  congr 1
  rw [Bool.eq_iff_iff, decide_eq_true_eq, mapped_iff_word?, Option.isSome_iff_exists]

/-- Entries below the base are passed over before the end of the image is asked for. -/
theorem keepMapped_of_below {addresses : List Nat} (below : ∀ address ∈ addresses, address < image.base) :
    image.keepMapped addresses = .ok [] := by
  induction addresses with
  | nil => rfl
  | cons address rest ih =>
    obtain ⟨here, later⟩ := List.forall_mem_cons.mp below
    simp only [keepMapped, isMapped_of_below here, ih later, bind, Except.bind, pure, Except.pure, Bool.false_eq_true,
      if_false]

section Unbounded

variable (unbounded : addressLimit ≤ image.base + image.words.length)
include unbounded

theorem isMapped_overflows {address : Nat} (above : image.base ≤ address) : image.isMapped address = .error .add := by
  rw [isMapped, if_neg (Nat.not_lt.mpr above), pastEnd, addAddress, if_neg (Nat.not_lt.mpr unbounded)]
  rfl

/-- One entry from the base on is enough, since every entry is compared before the walk begins. -/
theorem keepMapped_overflows {addresses : List Nat} {entry : Nat} (member : entry ∈ addresses)
    (above : image.base ≤ entry) : image.keepMapped addresses = .error .add := by
  induction addresses with
  | nil => simp at member
  | cons address rest ih =>
    by_cases here : image.base ≤ address
    · rw [keepMapped, isMapped_overflows unbounded here]
      rfl
    · have later : entry ∈ rest := by
        rcases List.mem_cons.mp member with rfl | later
        · exact absurd above here
        · exact later
      rw [keepMapped, isMapped_of_below (Nat.not_le.mp here), ih later]
      rfl

theorem follow_overflows {entries : List Nat} {entry : Nat} (member : entry ∈ entries) (above : image.base ≤ entry) :
    image.follow entries = .error .add := by
  rw [follow, keepMapped_overflows unbounded member above]
  rfl

end Unbounded

/-- Whatever is reached has a next address, so that computing it does not overflow. -/
theorem exists_follow_of_bounded (bounded : image.base + image.words.length < addressLimit) (entries : List Nat) :
    ∃ report, image.follow entries = .ok report ∧ ∀ address ∈ report.reached, address + 1 < addressLimit := by
  obtain ⟨visited, followed, walked⟩ := exists_follow_walked bounded entries
  refine ⟨_, followed, ?_⟩
  intro address reached
  have upper := (walked.mapped (Report.mem_reached_ofWalk.mp reached)).2
  omega

theorem exists_follow_of_below {entries : List Nat} (below : ∀ entry ∈ entries, entry < image.base) :
    ∃ report, image.follow entries = .ok report ∧ ∀ address ∈ report.reached, address + 1 < addressLimit := by
  refine ⟨.ofWalk image entries [], ?_, ?_⟩
  · rw [follow, keepMapped_of_below below]
    simp only [bind, Except.bind, walk, pure, Except.pure]
    rfl
  · intro address reached
    simpa using Report.mem_reached_ofWalk.mp reached

/-- No other sum can overflow than the one for the end of the image. -/
theorem exists_follow_of_inRange {entries : List Nat}
    (inRange : ¬(addressLimit ≤ image.base + image.words.length ∧ ∃ entry ∈ entries, image.base ≤ entry)) :
    ∃ report, image.follow entries = .ok report ∧ ∀ address ∈ report.reached, address + 1 < addressLimit := by
  by_cases bounded : image.base + image.words.length < addressLimit
  · exact exists_follow_of_bounded bounded entries
  · refine exists_follow_of_below fun entry member => ?_
    by_contra above
    exact inRange ⟨Nat.not_lt.mp bounded, entry, member, Nat.not_lt.mp above⟩

end Image

/-- Following control flow overflows just when the end of the image is no address and some entry is compared with it.
Otherwise there is a report, and the address behind each reached word is within range. Where the end of the image is an
address, the comparison with it agrees with looking the word up. -/
theorem follow_overflows_iff (image : Image) (entries : List Nat) :
    (image.follow entries = .error .add ↔
      addressLimit ≤ image.base + image.words.length ∧ ∃ entry ∈ entries, image.base ≤ entry) ∧
      (¬(addressLimit ≤ image.base + image.words.length ∧ ∃ entry ∈ entries, image.base ≤ entry) →
        ∃ report, image.follow entries = .ok report ∧ ∀ address ∈ report.reached, address + 1 < addressLimit) ∧
      (image.base + image.words.length < addressLimit →
        ∀ address, image.isMapped address = .ok (image.word? address).isSome) := by
  refine ⟨⟨?_, ?_⟩, Image.exists_follow_of_inRange, Image.isMapped_eq_isSome⟩
  · intro overflows
    by_contra inRange
    obtain ⟨report, followed, _⟩ := Image.exists_follow_of_inRange inRange
    cases overflows.symm.trans followed
  · rintro ⟨unbounded, entry, member, above⟩
    exact Image.follow_overflows unbounded member above

/-- A word at the last address of all cannot be followed, since its image ends behind that address. -/
example : Image.follow ⟨18446744073709551615, [0xF000#16]⟩ [18446744073709551615] = .error .add := by rfl

end SimtAsm
