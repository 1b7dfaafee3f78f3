import SimtAsm.Proofs.Windows

namespace SimtAsm

open Std Numeral Source

namespace Report

/-- The target of a reached branch that has a condition. -/
def IsTarget (report : Report) (image : Image) (address : Nat) : Prop :=
  ∃ source ∈ report.reached, image.Flows ⟨source, address, .condBranch⟩

/-- What the listing relies on: everything reached has a word, the targets that have one are reached, and the labels are
those of the targets and of the other entries. -/
structure WellLabelled (report : Report) (image : Image) : Prop where
  mapped : ∀ address ∈ report.reached, image.Mapped address
  followed : ∀ {address}, report.IsTarget image address → image.Mapped address → address ∈ report.reached
  target : ∀ {address}, report.IsTarget image address → report.labels[address]? = some (targetName address)
  entry : ∀ {address}, address ∈ report.entries → ¬report.IsTarget image address →
    report.labels[address]? = some (entryName address)
  other : ∀ {address}, address ∉ report.entries → ¬report.IsTarget image address → report.labels[address]? = none

section Walks

open Image

variable {image : Image} {starts entries visited : List Nat}

theorem mem_takenTargets_ofWalk {address : Nat} : address ∈ takenTargets (ofWalk image entries visited).edges ↔
    (ofWalk image entries visited).IsTarget image address := by
  simp only [takenTargets, List.mem_map, List.mem_filter, decide_eq_true_eq, mem_edges_ofWalk, IsTarget]
  constructor
  · rintro ⟨⟨source, target, kind⟩, ⟨⟨reached, flows⟩, rfl⟩, rfl⟩
    exact ⟨source, reached, flows⟩
  · rintro ⟨source, reached, flows⟩
    exact ⟨_, ⟨⟨reached, flows⟩, rfl⟩, rfl⟩

theorem wellLabelled_ofWalk (walked : Walked image ∅ starts visited) :
    (ofWalk image entries visited).WellLabelled image where
  mapped := by
    intro address reached
    exact walked.mapped (mem_reached_ofWalk.mp reached)
  followed := by
    rintro address ⟨source, reached, flows⟩ mapped
    have next := walked.closed (mem_reached_ofWalk.mp reached) ⟨⟨_, flows⟩, mapped⟩
    exact mem_reached_ofWalk.mpr (by simpa using next)
  target := by
    intro address isTarget
    rw [getElem?_labels_ofWalk, if_pos (mem_takenTargets_ofWalk.mpr isTarget)]
  entry := by
    intro address isEntry noTarget
    rw [entries_ofWalk] at isEntry
    rw [getElem?_labels_ofWalk, if_neg (mt mem_takenTargets_ofWalk.mp noTarget), if_pos isEntry]
  other := by
    intro address noEntry noTarget
    rw [entries_ofWalk] at noEntry
    rw [getElem?_labels_ofWalk, if_neg (mt mem_takenTargets_ofWalk.mp noTarget), if_neg noEntry]

end Walks

theorem targetName_isPlainToken (address : Nat) : IsPlainToken (targetName address) :=
  ((decimal_isPlainToken address).cons (by decide : isPlain '_' = true)).cons (by decide : isPlain 'L' = true)

theorem entryName_isPlainToken (address : Nat) : IsPlainToken (entryName address) := by
  have start : IsPlainToken "entry_" := ⟨by decide, List.all_eq_true.mp (by decide)⟩
  exact start.append (decimal_isPlainToken address).plain

theorem targetName_ne_entryName (a b : Nat) : targetName a ≠ entryName b := by
  have target : targetName a = 'L' :: '_' :: decimal a := rfl
  have entry : entryName b = 'e' :: ("ntry_" ++ decimal b) := rfl
  rw [target, entry]
  simp

namespace WellLabelled

variable {report : Report} {image : Image} (well : report.WellLabelled image)
include well

theorem name_cases {address : Nat} {name : Text} (found : report.labels[address]? = some name) :
    name = targetName address ∨ name = entryName address := by
  by_cases isTarget : report.IsTarget image address
  · rw [well.target isTarget] at found
    exact Or.inl (Option.some.inj found).symm
  · by_cases isEntry : address ∈ report.entries
    · rw [well.entry isEntry isTarget] at found
      exact Or.inr (Option.some.inj found).symm
    · rw [well.other isEntry isTarget] at found
      cases found

theorem name_isPlainToken {address : Nat} {name : Text} (found : report.labels[address]? = some name) :
    IsPlainToken name := by
  rcases well.name_cases found with rfl | rfl
  · exact targetName_isPlainToken address
  · exact entryName_isPlainToken address

theorem name_injective {a b : Nat} {name : Text} (foundA : report.labels[a]? = some name)
    (foundB : report.labels[b]? = some name) : a = b := by
  rcases well.name_cases foundA with rfl | rfl <;> rcases well.name_cases foundB with same | same
  · exact decimal_injective (List.append_cancel_left same)
  · exact absurd same (targetName_ne_entryName a b)
  · exact absurd same.symm (targetName_ne_entryName b a)
  · exact decimal_injective (List.append_cancel_left same)

theorem mem_labels_iff {address : Nat} :
    address ∈ report.labels ↔ address ∈ report.entries ∨ report.IsTarget image address := by
  rw [ExtTreeMap.mem_iff_isSome_getElem?]
  by_cases isTarget : report.IsTarget image address
  · simp [well.target isTarget, isTarget]
  · by_cases isEntry : address ∈ report.entries
    · simp [well.entry isEntry isTarget, isEntry]
    · simp [well.other isEntry isTarget, isEntry, isTarget]

end WellLabelled

/-- Whether a line shows the word at an address: such a line starts with it. -/
def shows (address : Nat) (line : Text) : Bool := ("  " ++ Address.text address ++ ": " : Text).isPrefixOf line

theorem shows_iff {address : Nat} {line : Text} :
    shows address line = true ↔ ∃ text, line = "  " ++ Address.text address ++ ": " ++ text := by
  rw [shows, List.isPrefixOf_iff_prefix]
  exact exists_congr fun text => eq_comm

/-- The address ends at its colon, so that a line shows one address only. -/
theorem eq_of_shows {a b : Nat} {line : Text} (showsA : shows a line = true) (showsB : shows b line = true) :
    a = b := by
  obtain ⟨text, rfl⟩ := shows_iff.mp showsA
  obtain ⟨text', same⟩ := shows_iff.mp showsB
  have shape : ∀ (n : Nat) (rest : Text), ("  " ++ Address.text n ++ ": " ++ rest : Text) =
      "  0x" ++ (padded 16 2 n ++ ':' :: ' ' :: rest) := by
    intro n rest
    simp [Address.text]
  have free : ∀ n, ∀ c ∈ padded 16 2 n, (c == ':') = false := by
    intro n c member
    have plain := (padded_isPlainToken (by decide) (by decide) 2 n).plain c member
    simp only [isPlain, Bool.and_eq_true, bne_iff_ne] at plain
    exact beq_eq_false_iff_ne.mpr plain.2
  rw [shape, shape] at same
  have behind := congrArg (Text.pieces (· == ':')) (List.append_cancel_left same)
  rw [Text.pieces_append_separator (free a) (by decide), Text.pieces_append_separator (free b) (by decide)] at behind
  exact padded_injective (by decide) (by decide) (List.cons.inj behind).1

theorem shows_labelLine {name : Text} (token : IsPlainToken name) (address : Nat) :
    shows address (labelLine name) = false := by
  cases shown : shows address (labelLine name) with
  | false => rfl
  | true =>
    obtain ⟨text, same⟩ := shows_iff.mp shown
    obtain ⟨first, rest, rfl⟩ := List.exists_cons_of_ne_nil token.ne_nil
    have blank : first = ' ' := (List.cons.inj same).1
    have plain := token.plain first (List.mem_cons_self ..)
    rw [blank] at plain
    exact absurd plain (by decide)

def instructionLine (report : Report) (address : Nat) (word : Word) : Text :=
  "  " ++ Address.text address ++ ": " ++ Image.wordText (report.labels[·]?) word

theorem addressLines_eq {report : Report} {image : Image} {address : Nat} {word : Word}
    (found : image.word? address = some word) :
    report.addressLines image address =
      (report.labels[address]?.map labelLine).toList ++ [report.instructionLine address word] := by
  rw [addressLines, Image.line?_of_word found, instructionLine]
  simp [indented]

theorem shows_instructionLine (report : Report) (a b : Nat) (word : Word) :
    shows b (report.instructionLine a word) = decide (a = b) := by
  have own : shows a (report.instructionLine a word) = true := shows_iff.mpr ⟨_, rfl⟩
  by_cases same : a = b
  · rw [← same, own, decide_eq_true rfl]
  · rw [decide_eq_false same, Bool.eq_false_iff]
    exact fun shown => same (eq_of_shows own shown)

/-- The reached words, one below the other in the order of their addresses. -/
def listed (report : Report) (image : Image) : List Text := report.reached.toList.flatMap (report.addressLines image)

theorem reached_ascending (report : Report) : report.reached.toList.Pairwise (· < ·) :=
  (ExtTreeSet.ordered_toList ..).imp Nat.compare_eq_lt.mp

theorem reached_nodup (report : Report) : report.reached.toList.Nodup := report.reached_ascending.imp Nat.ne_of_lt

/-- In blocks for different addresses, of which the one for `b` alone has a line that counts, there is one such line. -/
theorem countP_blocks {block : Nat → List Text} {counts : Text → Bool} {addresses : List Nat} {b : Nat}
    (distinct : addresses.Nodup) (each : ∀ a ∈ addresses, (block a).countP counts = if a = b then 1 else 0) :
    (addresses.flatMap block).countP counts = if b ∈ addresses then 1 else 0 := by
  induction addresses with
  | nil => rfl
  | cons first rest ih =>
    obtain ⟨fresh, distinct⟩ := List.nodup_cons.mp distinct
    obtain ⟨here, later⟩ := List.forall_mem_cons.mp each
    rw [List.flatMap_cons, List.countP_append, here, ih distinct later]
    by_cases same : first = b
    · subst same
      simp [fresh]
    · simp [same, Ne.symm same]

/-- How a listing shows what a report says. -/
structure ListedIn (report : Report) (image : Image) (lines : List Text) : Prop where
  once : ∀ address, lines.countP (shows address) = if address ∈ report.reached then 1 else 0
  ascending : lines.Pairwise fun first second => ∀ a b, shows a first = true → shows b second = true → a < b
  labelled : ∀ {above below line address}, lines = above ++ line :: below → shows address line = true →
    ∀ name, above.getLast? = some (labelLine name) ↔ report.labels[address]? = some name
  words : ∀ {address word}, address ∈ report.reached → image.word? address = some word →
    report.instructionLine address word ∈ lines
  branches : ∀ {source word d}, source ∈ report.reached → image.word? source = some word → decode word = .ok d →
    d.op = .br → d.cond ≠ Cond.never →
    "  " ++ Address.text source ++ ": BR" ++ d.cond.letters ++ " " ++ targetName d.target ∈ lines
  targets : ∀ {address}, report.IsTarget image address →
    lines.count (labelLine (targetName address)) = if image.Mapped address then 1 else 0

theorem instructionLine_mem {report : Report} {image : Image} {address : Nat} {word : Word}
    (reached : address ∈ report.reached) (found : image.word? address = some word) :
    report.instructionLine address word ∈ report.listed image := by
  refine List.mem_flatMap.mpr ⟨address, ExtTreeSet.mem_toList.mpr reached, ?_⟩
  simp [addressLines_eq found]

namespace WellLabelled

variable {report : Report} {image : Image} (well : report.WellLabelled image)
include well

theorem instructionLine_ne_labelLine (address : Nat) (word : Word) (name : Text) :
    report.instructionLine address word ≠ labelLine name := by
  obtain ⟨statement, last⟩ := Image.wordText_isStatement well.name_isPlainToken word
  intro same
  have ends := congrArg List.getLast? same
  rw [instructionLine, List.getLast?_append_of_ne_nil _ statement.ne_nil, labelLine] at ends
  exact last (ends.trans List.getLast?_concat)

theorem exists_addressLines {address : Nat} (reached : address ∈ report.reached) :
    ∃ word, report.addressLines image address =
      (report.labels[address]?.map labelLine).toList ++ [report.instructionLine address word] := by
  obtain ⟨word, found⟩ := Image.mapped_iff_word?.mp (well.mapped address reached)
  exact ⟨word, addressLines_eq found⟩

theorem shows_label {address : Nat} {line : Text} (label : line ∈ (report.labels[address]?.map labelLine).toList)
    (b : Nat) : shows b line = false := by
  obtain ⟨name, found, rfl⟩ := Option.map_eq_some_iff.mp (Option.mem_toList.mp label)
  exact shows_labelLine (well.name_isPlainToken found) b

theorem eq_of_shows_addressLines {address a : Nat} {line : Text} (reached : address ∈ report.reached)
    (inBlock : line ∈ report.addressLines image address) (shown : shows a line = true) : a = address := by
  obtain ⟨word, block⟩ := well.exists_addressLines reached
  rw [block, List.mem_append, List.mem_singleton] at inBlock
  rcases inBlock with label | rfl
  · simp [well.shows_label label] at shown
  · rw [shows_instructionLine, decide_eq_true_eq] at shown
    exact shown.symm

theorem countP_shows (address : Nat) :
    (report.listed image).countP (shows address) = if address ∈ report.reached then 1 else 0 := by
  simp only [← ExtTreeSet.mem_toList]
  apply countP_blocks report.reached_nodup
  intro a member
  obtain ⟨word, block⟩ := well.exists_addressLines (ExtTreeSet.mem_toList.mp member)
  have noLabel : (report.labels[a]?.map labelLine).toList.countP (shows address) = 0 := by
    rw [List.countP_eq_zero]
    intro line label
    simp [well.shows_label label]
  rw [block, List.countP_append, noLabel, List.countP_singleton, shows_instructionLine]
  simp

theorem pairwise_shows : (report.listed image).Pairwise fun first second =>
    ∀ a b, shows a first = true → shows b second = true → a < b := by
  refine List.pairwise_flatMap.mpr ⟨?_, ?_⟩
  · intro address member
    obtain ⟨word, block⟩ := well.exists_addressLines (ExtTreeSet.mem_toList.mp member)
    -- Within a block only the instruction shows its address, and it comes last.
    rw [block, List.pairwise_append]
    refine ⟨?_, List.pairwise_singleton .., ?_⟩
    · refine List.pairwise_of_forall_mem_list ?_
      intro first label _ _ a b shown
      simp [well.shows_label label] at shown
    · intro first label _ _ a b shown
      simp [well.shows_label label] at shown
  · refine report.reached_ascending.imp_of_mem ?_
    intro x y memberX memberY less first inFirst second inSecond a b shownFirst shownSecond
    rw [well.eq_of_shows_addressLines (ExtTreeSet.mem_toList.mp memberX) inFirst shownFirst,
      well.eq_of_shows_addressLines (ExtTreeSet.mem_toList.mp memberY) inSecond shownSecond]
    exact less

theorem getLast?_blocks_ne {addresses : List Nat} (reached : ∀ address ∈ addresses, address ∈ report.reached)
    (name : Text) : (addresses.flatMap (report.addressLines image)).getLast? ≠ some (labelLine name) := by
  rcases addresses.eq_nil_or_concat with rfl | ⟨earlier, address, rfl⟩
  · simp
  · obtain ⟨word, block⟩ := well.exists_addressLines (reached address (by simp))
    rw [List.concat_eq_append, List.flatMap_append, List.flatMap_singleton, block, ← List.append_assoc,
      List.getLast?_concat]
    exact fun same => well.instructionLine_ne_labelLine address word name (Option.some.inj same)

theorem label_above {above below : List Text} {line : Text} {address : Nat}
    (split : report.listed image = above ++ line :: below) (shown : shows address line = true) (name : Text) :
    above.getLast? = some (labelLine name) ↔ report.labels[address]? = some name := by
  obtain ⟨earlier, own, later, top, bottom, order, block, rfl⟩ := exists_of_flatMap_eq_append_cons split
  have reached : ∀ a ∈ earlier ++ own :: later, a ∈ report.reached := by
    intro a member
    rw [← order] at member
    exact ExtTreeSet.mem_toList.mp member
  obtain ⟨word, same⟩ := well.exists_addressLines (reached own (by simp))
  -- A label line shows nothing, so `line` is the last of its block.
  obtain ⟨labels, rfl⟩ :
      (report.labels[own]?.map labelLine).toList = top ∧ report.instructionLine own word = line := by
    rw [same] at block
    rcases bottom.eq_nil_or_concat with rfl | ⟨inner, last, rfl⟩
    · obtain ⟨labels, lines⟩ := List.append_inj' block rfl
      exact ⟨labels, List.singleton_inj.mp lines⟩
    · rw [List.concat_eq_append, ← List.cons_append, ← List.append_assoc] at block
      have label : line ∈ (report.labels[own]?.map labelLine).toList := by
        rw [(List.append_inj' block rfl).1]
        simp
      simp [well.shows_label label] at shown
  rw [shows_instructionLine, decide_eq_true_eq] at shown
  subst shown labels
  cases found : report.labels[own]? with
  | none =>
    have before := well.getLast?_blocks_ne (fun a member => reached a (List.mem_append_left _ member)) name
    simpa using before
  | some known => simp [labelLine]

theorem instructionLine_of_branch {source : Nat} {word : Word} {d : Decoded} (reached : source ∈ report.reached)
    (found : image.word? source = some word) (decoded : decode word = .ok d) (branch : d.op = .br)
    (conditional : d.cond ≠ Cond.never) : report.instructionLine source word =
      "  " ++ Address.text source ++ ": BR" ++ d.cond.letters ++ " " ++ targetName d.target := by
  have named := well.target ⟨source, reached, .branch found decoded branch conditional⟩
  have text : d.text (report.labels[·]?) = "BR" ++ d.cond.letters ++ " " ++ targetName d.target := by
    simp only [Decoded.text, branch, Op.layout, named, Option.getD_some]
    rfl
  have colon : (": " ++ "BR" : Text) = ": BR" := rfl
  have shown : Image.wordText (report.labels[·]?) word = d.text (report.labels[·]?) := by
    simp only [Image.wordText, decoded]
  rw [instructionLine, shown, text, ← colon]
  simp only [List.append_assoc]

theorem count_targetName {address : Nat} (isTarget : report.IsTarget image address) :
    (report.listed image).count (labelLine (targetName address)) = if image.Mapped address then 1 else 0 := by
  have reached : image.Mapped address ↔ address ∈ report.reached.toList := by
    rw [ExtTreeSet.mem_toList]
    exact ⟨well.followed isTarget, well.mapped address⟩
  simp only [reached]
  apply countP_blocks report.reached_nodup
  intro a member
  obtain ⟨word, block⟩ := well.exists_addressLines (ExtTreeSet.mem_toList.mp member)
  have own : report.labels[a]? = some (targetName address) ↔ a = address := by
    constructor
    · exact fun found => well.name_injective found (well.target isTarget)
    · rintro rfl
      exact well.target isTarget
  rw [block, List.countP_append, List.countP_singleton,
    beq_eq_false_iff_ne.mpr (well.instructionLine_ne_labelLine a word _)]
  cases found : report.labels[a]? with
  | none =>
    have other : a ≠ address := by
      intro same
      rw [own.mpr same] at found
      cases found
    simp [other]
  | some name =>
    rw [found, Option.some.injEq] at own
    simp [labelLine, ← own]

theorem listedIn : report.ListedIn image (report.listed image) where
  once := well.countP_shows
  ascending := well.pairwise_shows
  labelled := well.label_above
  words := instructionLine_mem
  branches := by
    intro source word d reached found decoded branch conditional
    rw [← well.instructionLine_of_branch reached found decoded branch conditional]
    exact instructionLine_mem reached found
  targets := well.count_targetName

end WellLabelled

theorem newline_notMem_edge (edge : Edge) : '\n' ∉ edge.line := by
  have title : '\n' ∉ edge.kind.title := by cases edge.kind <;> decide
  have source := newline_notMem_append (by decide : '\n' ∉ ("  " : Text)) (Address.newline_notMem_text edge.source)
  have arrow :=
    newline_notMem_surround source (by decide : '\n' ∉ (" -> " : Text)) (Address.newline_notMem_text edge.target)
  exact newline_notMem_surround (newline_notMem_append arrow (by decide)) title (by decide)

theorem newline_notMem_headLines (report : Report) : ∀ line ∈ report.headLines, '\n' ∉ line := by
  have entries : '\n' ∉ Text.join ", " (report.entries.map decimal) := by
    cases report.entries with
    | nil => decide
    | cons first rest =>
      have tokens : ∀ part ∈ (first :: rest).map decimal, IsPlainToken part := by
        intro part member
        obtain ⟨n, _, rfl⟩ := List.mem_map.mp member
        exact decimal_isPlainToken n
      exact (join_isStatement (by simp) tokens).1.newline_notMem
  intro line member
  simp only [headLines, List.mem_cons, List.not_mem_nil, or_false] at member
  rcases member with rfl | rfl | rfl | rfl | rfl | rfl
  · decide
  · exact newline_notMem_surround (by decide) entries (by decide)
  · exact newline_notMem_append (by decide) (newline_notMem_decimal _)
  · exact newline_notMem_append (by decide) (newline_notMem_decimal _)
  · exact newline_notMem_append (by decide) (newline_notMem_decimal _)
  · decide

namespace WellLabelled

variable {report : Report} {image : Image} (well : report.WellLabelled image)
include well

theorem newline_notMem_listed : ∀ line ∈ report.listed image, '\n' ∉ line := by
  intro line member
  obtain ⟨address, reached, inBlock⟩ := List.mem_flatMap.mp member
  obtain ⟨word, block⟩ := well.exists_addressLines (ExtTreeSet.mem_toList.mp reached)
  rw [block, List.mem_append, List.mem_singleton] at inBlock
  rcases inBlock with label | rfl
  · obtain ⟨name, found, rfl⟩ := Option.map_eq_some_iff.mp (Option.mem_toList.mp label)
    exact newline_notMem_append (well.name_isPlainToken found).newline_notMem (by decide)
  · have start := newline_notMem_surround (by decide : '\n' ∉ ("  " : Text)) (Address.newline_notMem_text address)
      (by decide : '\n' ∉ (": " : Text))
    exact newline_notMem_append start (Image.wordText_isStatement well.name_isPlainToken word).1.newline_notMem

theorem lines_summary : (report.summary image true).lines = report.headLines ++ report.edges.map Edge.line ++
    (["", "Listing (reached words):"] : List Text) ++ report.listed image ++ [[]] := by
  have shape : report.summary image true = Text.ofLines (report.headLines ++ report.edges.map Edge.line ++
      ((["", "Listing (reached words):"] : List Text) ++ report.listed image)) := rfl
  rw [shape, Text.lines_ofLines, ← List.append_assoc]
  intro line member
  simp only [List.mem_append, List.mem_map, List.mem_cons, List.not_mem_nil, or_false] at member
  rcases member with (head | ⟨edge, _, rfl⟩) | (rfl | rfl) | inListing
  · exact report.newline_notMem_headLines line head
  · exact newline_notMem_edge edge
  · decide
  · decide
  · exact well.newline_notMem_listed line inListing

end WellLabelled

end Report

/-- The labels of a report are those of its entries, with or without a word, and of the targets of the reached branches
that have a condition. A target goes by its own kind of name, any other entry by that of an entry, and no two addresses
share one. The listing of the report shows every reached address once and in ascending order, with the label right above
the instruction where there is one. Its branches use the names of their targets, and it declares such a name, once, if
the target has a word. -/
theorem labels_match_listing {image : Image} (bounded : image.base + image.words.length < addressLimit)
    (entries : List Nat) :
    ∃ report, image.follow entries = .ok report ∧
      (∀ address, address ∈ report.labels ↔ address ∈ entries ∨ report.IsTarget image address) ∧
      (∀ address, report.IsTarget image address → report.labels[address]? = some (Report.targetName address)) ∧
      (∀ address ∈ entries, ¬report.IsTarget image address →
        report.labels[address]? = some (Report.entryName address)) ∧
      (∀ (a b : Nat) (name : Text), report.labels[a]? = some name → report.labels[b]? = some name → a = b) ∧
      ∃ listing, (report.summary image true).lines = report.headLines ++ report.edges.map Edge.line ++
          (["", "Listing (reached words):"] : List Text) ++ listing ++ [[]] ∧
        report.ListedIn image listing := by
  obtain ⟨visited, followed, walked⟩ := Image.exists_follow_walked bounded entries
  have well : (Report.ofWalk image entries visited).WellLabelled image := Report.wellLabelled_ofWalk walked
  have given : (Report.ofWalk image entries visited).entries = entries := Report.entries_ofWalk
  generalize Report.ofWalk image entries visited = report at followed well given
  subst given
  exact ⟨report, followed, fun _ => well.mem_labels_iff, fun _ => well.target, fun _ => well.entry,
    fun _ _ _ => well.name_injective, _, well.lines_summary, well.listedIn⟩

/-- Two branches, one of them out of the image, and an entry outside of it. -/
theorem labels_match_listing_two_branches :
    ∃ report, Image.follow ⟨0, [0x1C02#16, 0x1809#16, 0xF000#16]⟩ [0, 7] = .ok report ∧
      report.labels[2]? = some ("L_2" : Text) ∧ report.labels[9]? = some ("L_9" : Text) ∧ 7 ∈ report.labels ∧
      ∃ listing, report.ListedIn ⟨0, [0x1C02#16, 0x1809#16, 0xF000#16]⟩ listing ∧
        listing.count ("L_2:" : Text) = 1 ∧ listing.count ("L_9:" : Text) = 0 ∧
        ("  0x01: BRn L_9" : Text) ∈ listing := by
  obtain ⟨report, followed, keys, targets, _, _, listing, _, listed⟩ :=
    @labels_match_listing ⟨0, [0x1C02#16, 0x1809#16, 0xF000#16]⟩ (by decide) [0, 7]
  obtain ⟨visited, followed', walked⟩ :=
    @Image.exists_follow_walked ⟨0, [0x1C02#16, 0x1809#16, 0xF000#16]⟩ (by decide) [0, 7]
  cases Except.ok.inj (followed'.symm.trans followed)
  have first : 0 ∈ visited := by simpa using walked.covers (by decide : 0 ∈ _)
  have second : 1 ∈ visited := by
    simpa using walked.closed first ⟨⟨_, .onward rfl rfl (by decide) (by decide)⟩, by decide⟩
  rw [← Report.mem_reached_ofWalk] at first second
  have inside := @Image.Flows.branch ⟨0, [0x1C02#16, 0x1809#16, 0xF000#16]⟩ 0 _ _ rfl rfl rfl (by decide)
  have outside := @Image.Flows.branch ⟨0, [0x1C02#16, 0x1809#16, 0xF000#16]⟩ 1 _ _ rfl rfl rfl (by decide)
  exact ⟨_, followed, targets 2 ⟨0, first, inside⟩, targets 9 ⟨1, second, outside⟩, (keys 7).mpr (.inl (by decide)),
    listing, listed, listed.targets ⟨0, first, inside⟩, listed.targets ⟨1, second, outside⟩,
    listed.branches second rfl rfl rfl (by decide)⟩

end SimtAsm
