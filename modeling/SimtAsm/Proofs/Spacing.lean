import SimtAsm.Assembly.Instr
import SimtAsm.Proofs.Tokens

namespace SimtAsm

namespace Source

/-- Tokens in order with separators between neighbours, and nothing around them. -/
inductive Spaced : List Text → Text → Prop
  | empty : Spaced [] []
  | single (token : Text) : Spaced [token] token
  | cons {gap text : Text} {parts : List Text} (token : Text) : gap ≠ [] → (∀ c ∈ gap, isSeparator c = true) →
      parts ≠ [] → Spaced parts text → Spaced (token :: parts) (token ++ gap ++ text)

theorem Spaced.runs {parts : List Text} {text before after : Text} (spaced : Spaced parts text)
    (each : ∀ part ∈ parts, IsToken part) (inBefore : ∀ c ∈ before, isSeparator c = true)
    (inAfter : ∀ c ∈ after, isSeparator c = true) : Runs (before ++ text ++ after) parts := by
  induction spaced generalizing before with
  | empty =>
    rw [List.append_nil]
    exact .nil (List.forall_mem_append.mpr ⟨inBefore, inAfter⟩)
  | single token =>
    have ends : ∀ c ∈ after.head?, isSeparator c = true := fun c atHead => inAfter c (List.mem_of_head? atHead)
    exact .cons inBefore (each token (List.mem_cons_self ..)) ends (.nil inAfter)
  | @cons gap text parts token nonempty inGap _ _ ih =>
    obtain ⟨isToken, later⟩ := List.forall_mem_cons.mp each
    have ends : ∀ c ∈ (gap ++ text ++ after).head?, isSeparator c = true := by
      obtain ⟨first, rest, rfl⟩ := List.exists_cons_of_ne_nil nonempty
      intro c atHead
      cases atHead
      exact inGap first (List.mem_cons_self ..)
    have runs := Runs.cons inBefore isToken ends (ih later inGap)
    simpa only [List.append_assoc] using runs

theorem spaced_join {gap : Text} (nonempty : gap ≠ []) (separates : ∀ c ∈ gap, isSeparator c = true)
    (parts : List Text) : Spaced parts (Text.join gap parts) := by
  induction parts with
  | nil => exact .empty
  | cons part rest ih =>
    cases rest with
    | nil =>
      have alone : Text.join gap [part] = part := List.append_nil part
      rw [alone]
      exact .single part
    | cons next rest =>
      rw [Text.join_cons_cons]
      exact .cons part nonempty separates (List.cons_ne_nil _ _) ih

/-- Joined tokens are read back, whatever separators stand between them. -/
theorem tokens_join {gap : Text} (nonempty : gap ≠ []) (separates : ∀ c ∈ gap, isSeparator c = true)
    {parts : List Text} (each : ∀ part ∈ parts, IsToken part) : tokens (Text.join gap parts) = parts := by
  have runs := (spaced_join nonempty separates parts).runs each (List.forall_mem_nil _) (List.forall_mem_nil _)
  rw [List.nil_append, List.append_nil] at runs
  exact runs.tokens_eq

theorem filter_of_separators {gap : Text} (separates : ∀ c ∈ gap, isSeparator c = true) :
    gap.filter (!isSeparator ·) = [] := by
  rw [List.filter_eq_nil_iff]
  intro c member
  simp [separates c member]

/-- The tokens hold every character of the text that does not separate, in order. -/
theorem Runs.flatten_eq {text : Text} {parts : List Text} (runs : Runs text parts) :
    parts.flatten = text.filter (!isSeparator ·) := by
  induction runs with
  | nil separates => exact (filter_of_separators separates).symm
  | @cons gap token rest parts separates isToken _ _ ih =>
    have kept : token.filter (!isSeparator ·) = token := by
      rw [List.filter_eq_self]
      intro c member
      simp [isToken.free c member]
    rw [List.flatten_cons, ih, List.filter_append, List.filter_append, filter_of_separators separates, kept,
      List.nil_append]

end Source

open Source

/-- Tokens are read back from a text just as they were written into it, with separators of any kind between neighbours
and around the whole. Conversely the tokens of a text are never empty, hold no separator and together are the text
without its separators. So a line assembles like its tokens with a space between them. -/
theorem spacing_immaterial :
    (∀ (parts : List Text) (text before after : Text), (∀ part ∈ parts, IsToken part) → Spaced parts text →
      (∀ c ∈ before, isSeparator c = true) → (∀ c ∈ after, isSeparator c = true) →
      tokens (before ++ text ++ after) = parts) ∧
    (∀ text : Text, (∀ token ∈ tokens text, IsToken token) ∧ (tokens text).flatten = text.filter (!isSeparator ·)) ∧
    ∀ (symbols : SymbolTable) (text : Text),
      encodeLine symbols text = encodeLine symbols (Text.join " " (tokens text)) := by
  refine ⟨?_, ?_, ?_⟩
  · intro parts text before after each spaced inBefore inAfter
    exact (spaced.runs each inBefore inAfter).tokens_eq
  · intro text
    exact ⟨(runs_tokens text).isToken, (runs_tokens text).flatten_eq⟩
  · intro symbols text
    rw [encodeLine, encodeLine, tokens_join (by decide) (List.all_eq_true.mp (by decide)) (runs_tokens text).isToken]

/-- Two tokens between blanks and commas of several kinds. -/
theorem spacing_immaterial_mixed :
    tokens ("\t," ++ ("STR" ++ " ,\u3000," ++ "R1") ++ ",\u2028") = (["STR", "R1"] : List Text) := by
  have isToken : ∀ text : Text, text ≠ [] → text.all (!isSeparator ·) = true → IsToken text :=
    fun text nonempty free => ⟨nonempty, by simpa using free⟩
  have each : ∀ part ∈ (["STR", "R1"] : List Text), IsToken part := by
    rw [List.forall_mem_cons, List.forall_mem_singleton]
    exact ⟨isToken _ (by decide) (by decide), isToken _ (by decide) (by decide)⟩
  have spaced : Spaced ["STR", "R1"] ("STR" ++ " ,\u3000," ++ "R1") :=
    .cons "STR" (by decide) (List.all_eq_true.mp (by decide)) (by decide) (.single "R1")
  exact spacing_immaterial.1 _ _ _ _ each spaced (List.all_eq_true.mp (by decide)) (List.all_eq_true.mp (by decide))

end SimtAsm
