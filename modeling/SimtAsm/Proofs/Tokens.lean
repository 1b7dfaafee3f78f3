import SimtAsm.Proofs.Lines

namespace SimtAsm

namespace Source

/-- The maximal runs of characters that do not separate, in order. -/
inductive Runs : Text → List Text → Prop
  | nil {gap : Text} : (∀ c ∈ gap, isSeparator c = true) → Runs gap []
  | cons {gap token rest : Text} {tokens : List Text} : (∀ c ∈ gap, isSeparator c = true) → IsToken token →
      (∀ c ∈ rest.head?, isSeparator c = true) → Runs rest tokens → Runs (gap ++ token ++ rest) (token :: tokens)

theorem tokens_append_of_separators {gap : Text} (separates : ∀ c ∈ gap, isSeparator c = true) (rest : Text) :
    tokens (gap ++ rest) = tokens rest := by
  induction gap with
  | nil => rfl
  | cons c gap ih =>
    rw [List.cons_append, tokens_cons_separator (separates c (List.mem_cons_self ..))]
    exact ih fun x member => separates x (List.mem_cons_of_mem _ member)

/-- A token that ends where a separator follows, or the text ends, is the first token. -/
theorem IsToken.tokens_append_rest {token rest : Text} (isToken : IsToken token)
    (ends : ∀ c ∈ rest.head?, isSeparator c = true) : tokens (token ++ rest) = token :: tokens rest := by
  cases rest with
  | nil =>
    rw [List.append_nil, isToken.tokens_eq]
    rfl
  | cons c rest =>
    have separates := ends c rfl
    rw [isToken.tokens_append separates, tokens_cons_separator separates]

theorem Runs.tokens_eq {text : Text} {parts : List Text} (runs : Runs text parts) : tokens text = parts := by
  induction runs with
  | @nil gap separates =>
    have skipped := tokens_append_of_separators separates []
    rw [List.append_nil] at skipped
    exact skipped
  | cons separates isToken ends _ ih =>
    rw [List.append_assoc, tokens_append_of_separators separates, isToken.tokens_append_rest ends, ih]

theorem Runs.cons_separator {c : Char} {text : Text} {parts : List Text} (separates : isSeparator c = true)
    (runs : Runs text parts) : Runs (c :: text) parts := by
  cases runs with
  | nil gap => exact .nil (List.forall_mem_cons.mpr ⟨separates, gap⟩)
  | @cons gap token rest tokens inGap isToken ends later =>
    have longer := Runs.cons (List.forall_mem_cons.mpr ⟨separates, inGap⟩) isToken ends later
    exact longer

theorem runs_tokens (text : Text) : Runs text (tokens text) := by
  -- Each step takes one separator or one whole token off the front, so the induction is on the length.
  induction length : text.length using Nat.strongRecOn generalizing text with
  | ind n ih =>
    subst length
    cases text with
    | nil => exact .nil (by simp)
    | cons c rest =>
      cases separates : isSeparator c with
      | true =>
        rw [tokens_cons_separator separates]
        exact .cons_separator separates (ih rest.length (by simp) rest rfl)
      | false =>
        have inside : ∀ x ∈ rest.takeWhile (!isSeparator ·), isSeparator x = false := by
          intro x member
          simpa using List.mem_takeWhile_imp member
        have isToken : IsToken (c :: rest.takeWhile (!isSeparator ·)) :=
          ⟨List.cons_ne_nil _ _, List.forall_mem_cons.mpr ⟨separates, inside⟩⟩
        have ends : ∀ x ∈ (rest.dropWhile (!isSeparator ·)).head?, isSeparator x = true := by
          intro x atHead
          simpa [Option.mem_def.mp atHead] using List.head?_dropWhile_not (!isSeparator ·) rest
        have shorter : (rest.dropWhile (!isSeparator ·)).length < (c :: rest).length :=
          Nat.lt_succ_of_le (List.length_dropWhile_le ..)
        have split : c :: rest = [] ++ c :: rest.takeWhile (!isSeparator ·) ++ rest.dropWhile (!isSeparator ·) := by
          rw [List.nil_append, List.cons_append, List.takeWhile_append_dropWhile]
        have runs := Runs.cons (List.forall_mem_nil _) isToken ends (ih _ shorter _ rfl)
        rw [← split, ← isToken.tokens_append_rest ends, List.cons_append, List.takeWhile_append_dropWhile] at runs
        exact runs

/-- The tokens of a line are its maximal runs. -/
theorem tokens_eq_iff {text : Text} {parts : List Text} : tokens text = parts ↔ Runs text parts := by
  constructor
  · rintro rfl
    exact runs_tokens text
  · exact Runs.tokens_eq

theorem Runs.isToken {text : Text} {parts : List Text} (runs : Runs text parts) : ∀ token ∈ parts, IsToken token := by
  induction runs with
  | nil => simp
  | cons _ isToken _ _ ih => exact List.forall_mem_cons.mpr ⟨isToken, ih⟩

theorem IsToken.trim_eq {token : Text} (isToken : IsToken token) : token.trim = token := by
  have solid : ∀ c ∈ token, Text.isBlank c = false :=
    fun c member => (Bool.or_eq_false_iff.mp (isToken.free c member)).1
  have first := List.head?_eq_some_head isToken.ne_nil
  have last := List.getLast?_eq_some_getLast isToken.ne_nil
  have trimmed := Text.trim_append (List.forall_mem_nil _) (List.forall_mem_nil _)
    ⟨_, first, solid _ (List.mem_of_head? first)⟩ ⟨_, last, solid _ (List.mem_of_getLast? last)⟩
  rwa [List.nil_append, List.append_nil] at trimmed

end Source

end SimtAsm
