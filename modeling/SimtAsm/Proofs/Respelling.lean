import SimtAsm.Proofs.Tokens

namespace SimtAsm

namespace Source

/-- The rewritten token, unless there is none. -/
def respell (f : Text → Text) (token : Text) : Text := if token.isEmpty then [] else f token

/-- Rewrites the tokens of a text that follows the beginning `token` of one. -/
def mapTokensFrom (f : Text → Text) (token : Text) : Text → Text
  | [] => respell f token
  | c :: rest =>
    if isSeparator c then respell f token ++ c :: mapTokensFrom f [] rest else mapTokensFrom f (token ++ [c]) rest

/-- The text with each token rewritten in its place. -/
def mapTokens (f : Text → Text) (text : Text) : Text := mapTokensFrom f [] text

/-- The text with each token behind the first one rewritten in its place. -/
def mapOperands (f : Text → Text) (text : Text) : Text :=
  let body := text.dropWhile isSeparator
  text.takeWhile isSeparator ++ (body.takeWhile (!isSeparator ·) ++ mapTokens f (body.dropWhile (!isSeparator ·)))

variable {f : Text → Text}

theorem mapTokens_cons_separator {c : Char} (separates : isSeparator c = true) (rest : Text) :
    mapTokens f (c :: rest) = c :: mapTokens f rest := by
  rw [mapTokens, mapTokensFrom, if_pos separates]
  rfl

theorem mapTokens_append_of_separators {gap : Text} (separates : ∀ c ∈ gap, isSeparator c = true) (rest : Text) :
    mapTokens f (gap ++ rest) = gap ++ mapTokens f rest := by
  induction gap with
  | nil => rfl
  | cons c gap ih =>
    rw [List.cons_append, mapTokens_cons_separator (separates c (List.mem_cons_self ..)), List.cons_append]
    exact congrArg (c :: ·) (ih fun x member => separates x (List.mem_cons_of_mem _ member))

theorem mapTokensFrom_append_of_free {piece : Text} (free : ∀ c ∈ piece, isSeparator c = false) (token rest : Text) :
    mapTokensFrom f token (piece ++ rest) = mapTokensFrom f (token ++ piece) rest := by
  induction piece generalizing token with
  | nil => rw [List.nil_append, List.append_nil]
  | cons c piece ih =>
    have here := free c (List.mem_cons_self ..)
    have later := ih (fun x member => free x (List.mem_cons_of_mem _ member)) (token ++ [c])
    rw [List.append_assoc, List.singleton_append] at later
    simp only [List.cons_append, mapTokensFrom, here, Bool.false_eq_true, if_false, later]

/-- A token is rewritten where it ends. -/
theorem IsToken.mapTokens_append {token rest : Text} (isToken : IsToken token)
    (ends : ∀ c ∈ rest.head?, isSeparator c = true) : mapTokens f (token ++ rest) = f token ++ mapTokens f rest := by
  have whole : respell f token = f token := by simp [respell, isToken.ne_nil]
  rw [mapTokens, mapTokensFrom_append_of_free isToken.free, List.nil_append]
  cases rest with
  | nil => exact whole.trans (List.append_nil _).symm
  | cons c rest =>
    have separates := ends c rfl
    rw [mapTokens_cons_separator separates, mapTokensFrom, if_pos separates, whole]
    rfl

theorem mapTokens_of_separators {gap : Text} (separates : ∀ c ∈ gap, isSeparator c = true) : mapTokens f gap = gap := by
  have whole := @mapTokens_append_of_separators f gap separates []
  rwa [List.append_nil, show mapTokens f [] = [] from rfl, List.append_nil] at whole

theorem mapTokens_single {before token after : Text} (blankBefore : ∀ c ∈ before, isSeparator c = true)
    (isToken : IsToken token) (blankAfter : ∀ c ∈ after, isSeparator c = true) :
    mapTokens f (before ++ token ++ after) = before ++ f token ++ after := by
  have ends : ∀ c ∈ after.head?, isSeparator c = true := fun c atHead => blankAfter c (List.mem_of_head? atHead)
  rw [List.append_assoc, mapTokens_append_of_separators blankBefore, isToken.mapTokens_append ends,
    mapTokens_of_separators blankAfter, List.append_assoc]

/-- Where a gap or nothing follows, a gap or nothing follows after rewriting. -/
theorem head?_mapTokens {rest : Text} (ends : ∀ c ∈ rest.head?, isSeparator c = true) :
    (mapTokens f rest).head? = rest.head? := by
  cases rest with
  | nil => rfl
  | cons c rest => rw [mapTokens_cons_separator (ends c rfl), List.head?_cons, List.head?_cons]

namespace Runs

variable {text : Text} {parts : List Text}

theorem mapTokens (runs : Runs text parts) (each : ∀ part ∈ parts, IsToken (f part)) :
    Runs (mapTokens f text) (parts.map f) := by
  induction runs with
  | nil separates =>
    rw [mapTokens_of_separators separates]
    exact .nil separates
  | cons separates isToken ends _ ih =>
    obtain ⟨here, later⟩ := List.forall_mem_cons.mp each
    rw [List.append_assoc, mapTokens_append_of_separators separates, isToken.mapTokens_append ends, ← List.append_assoc]
    exact .cons separates here (by rwa [head?_mapTokens ends]) (ih later)

/-- Each character of the rewritten text is an old one or one of a rewritten token. -/
theorem mem_mapTokens (runs : Runs text parts) {c : Char} (member : c ∈ Source.mapTokens f text) :
    c ∈ text ∨ ∃ part ∈ parts, c ∈ f part := by
  induction runs with
  | nil separates =>
    rw [mapTokens_of_separators separates] at member
    exact Or.inl member
  | @cons gap token rest tokens separates isToken ends _ ih =>
    rw [List.append_assoc, mapTokens_append_of_separators separates, isToken.mapTokens_append ends] at member
    rcases List.mem_append.mp member with inGap | member
    · exact Or.inl (by simp [inGap])
    · rcases List.mem_append.mp member with inToken | inRest
      · exact Or.inr ⟨token, List.mem_cons_self .., inToken⟩
      · rcases ih inRest with old | ⟨part, inParts, new⟩
        · exact Or.inl (by simp [old])
        · exact Or.inr ⟨part, List.mem_cons_of_mem _ inParts, new⟩

/-- The last character stays, or it is one of a rewritten token. -/
theorem getLast?_mapTokens (runs : Runs text parts) (each : ∀ part ∈ parts, f part ≠ []) {c : Char}
    (atLast : (Source.mapTokens f text).getLast? = some c) : text.getLast? = some c ∨ ∃ part ∈ parts, c ∈ f part := by
  induction runs with
  | nil separates =>
    rw [mapTokens_of_separators separates] at atLast
    exact Or.inl atLast
  | @cons gap token rest tokens separates isToken ends _ ih =>
    obtain ⟨here, later⟩ := List.forall_mem_cons.mp each
    rw [List.append_assoc, mapTokens_append_of_separators separates, isToken.mapTokens_append ends,
      ← List.append_assoc, List.getLast?_append] at atLast
    cases restLast : (Source.mapTokens f rest).getLast? with
    | none =>
      rw [restLast, Option.none_or, List.getLast?_append, List.getLast?_eq_some_getLast here, Option.some_or] at atLast
      exact Or.inr ⟨token, List.mem_cons_self .., Option.some.inj atLast ▸ List.getLast_mem here⟩
    | some x =>
      rw [restLast, Option.some_or] at atLast
      rcases ih later (restLast.trans atLast) with old | ⟨part, inParts, new⟩
      · exact Or.inl (by rw [List.getLast?_append, old, Option.some_or])
      · exact Or.inr ⟨part, List.mem_cons_of_mem _ inParts, new⟩

end Runs

theorem mapOperands_eq {gap token rest : Text} (separates : ∀ c ∈ gap, isSeparator c = true) (isToken : IsToken token)
    (ends : ∀ c ∈ rest.head?, isSeparator c = true) :
    mapOperands f (gap ++ token ++ rest) = gap ++ token ++ mapTokens f rest := by
  have inside : ∀ c ∈ token, (!isSeparator c) = true := fun c member => by simp [isToken.free c member]
  obtain ⟨c, letters, rfl⟩ := List.exists_cons_of_ne_nil isToken.ne_nil
  have starts := isToken.free c (List.mem_cons_self ..)
  have stops : rest.takeWhile (!isSeparator ·) = [] ∧ rest.dropWhile (!isSeparator ·) = rest := by
    cases rest with
    | nil => exact ⟨rfl, rfl⟩
    | cons x rest => simp [ends x rfl]
  have body : (gap ++ (c :: letters ++ rest)).dropWhile isSeparator = c :: letters ++ rest := by
    rw [List.dropWhile_append_of_pos separates]
    exact Text.dropWhile_of_head ⟨c, rfl, starts⟩
  have lead : (gap ++ (c :: letters ++ rest)).takeWhile isSeparator = gap := by
    rw [List.takeWhile_append_of_pos separates]
    simp [starts]
  rw [List.append_assoc, mapOperands, lead, body, List.takeWhile_append_of_pos inside,
    List.dropWhile_append_of_pos inside, stops.1, stops.2, List.append_nil, List.append_assoc]

section Operands

variable {text mnemonic : Text} {operands : List Text} (parts : tokens text = mnemonic :: operands)
include parts

theorem exists_operands :
    ∃ gap rest, text = gap ++ mnemonic ++ rest ∧ (∀ c ∈ gap, isSeparator c = true) ∧ IsToken mnemonic ∧
      (∀ c ∈ rest.head?, isSeparator c = true) ∧ Runs rest operands := by
  cases tokens_eq_iff.mp parts with
  | cons separates isToken ends runs => exact ⟨_, _, rfl, separates, isToken, ends, runs⟩

theorem tokens_mapOperands (each : ∀ operand ∈ operands, IsToken (f operand)) :
    tokens (mapOperands f text) = mnemonic :: operands.map f := by
  obtain ⟨gap, rest, rfl, separates, isToken, ends, runs⟩ := exists_operands parts
  have ends' : ∀ c ∈ (mapTokens f rest).head?, isSeparator c = true := by rwa [head?_mapTokens ends]
  rw [mapOperands_eq separates isToken ends]
  exact (Runs.cons separates isToken ends' (runs.mapTokens each)).tokens_eq

theorem mem_mapOperands {c : Char} (member : c ∈ mapOperands f text) :
    c ∈ text ∨ ∃ operand ∈ operands, c ∈ f operand := by
  obtain ⟨gap, rest, rfl, separates, isToken, ends, runs⟩ := exists_operands parts
  rw [mapOperands_eq separates isToken ends] at member
  rcases List.mem_append.mp member with front | behind
  · exact Or.inl (List.mem_append_left _ front)
  · rcases runs.mem_mapTokens behind with old | new
    · exact Or.inl (List.mem_append_right _ old)
    · exact Or.inr new

theorem head?_mapOperands : (mapOperands f text).head? = text.head? := by
  obtain ⟨gap, rest, rfl, separates, isToken, ends, _⟩ := exists_operands parts
  rw [mapOperands_eq separates isToken ends, List.head?_append, head?_mapTokens ends, ← List.head?_append]

theorem getLast?_mapOperands (each : ∀ operand ∈ operands, f operand ≠ []) {c : Char}
    (atLast : (mapOperands f text).getLast? = some c) :
    text.getLast? = some c ∨ ∃ operand ∈ operands, c ∈ f operand := by
  obtain ⟨gap, rest, rfl, separates, isToken, ends, runs⟩ := exists_operands parts
  rw [mapOperands_eq separates isToken ends, List.getLast?_append] at atLast
  cases restLast : (mapTokens f rest).getLast? with
  | none =>
    have nothing : rest = [] := by
      rw [← List.head?_eq_none_iff, ← @head?_mapTokens f rest ends, List.getLast?_eq_none_iff.mp restLast]
      rfl
    rw [restLast, Option.none_or] at atLast
    subst nothing
    exact Or.inl (by rwa [List.append_nil])
  | some x =>
    rw [restLast, Option.some_or] at atLast
    rcases runs.getLast?_mapTokens each (restLast.trans atLast) with old | new
    · exact Or.inl (by rw [List.getLast?_append, old, Option.some_or])
    · exact Or.inr new

end Operands

/-- Separators in front of a text stay there. -/
theorem mapOperands_append_of_separators {gap : Text} (separates : ∀ c ∈ gap, isSeparator c = true) (rest : Text) :
    mapOperands f (gap ++ rest) = gap ++ mapOperands f rest := by
  simp only [mapOperands, List.takeWhile_append_of_pos separates, List.dropWhile_append_of_pos separates,
    List.append_assoc]

end Source

end SimtAsm
