import Mathlib.Data.List.Nodup
import Mathlib.Order.Bounds.Basic
import SimtAsm.Image.Flow

namespace SimtAsm

open Std

/-- An element of lists put one behind the other stands in one of them, and what is before it is split there. -/
theorem exists_of_flatMap_eq_append_cons {α β : Type} {f : α → List β} {list : List α} {before after : List β} {x : β}
    (split : list.flatMap f = before ++ x :: after) : ∃ earlier a later above below, list = earlier ++ a :: later ∧
      f a = above ++ x :: below ∧ before = earlier.flatMap f ++ above := by
  induction list generalizing before with
  | nil => simp at split
  | cons first rest ih =>
    rw [List.flatMap_cons, List.append_eq_append_iff] at split
    rcases split with ⟨behind, rfl, inRest⟩ | ⟨inFirst, here, there⟩
    · obtain ⟨earlier, a, later, above, below, rfl, found, rfl⟩ := ih inRest
      exact ⟨first :: earlier, a, later, above, below, rfl, found, by simp⟩
    · rcases List.cons_eq_append_iff.mp there with ⟨rfl, inRest⟩ | ⟨below, rfl, _⟩
      · obtain ⟨earlier, a, later, above, below, rfl, found, same⟩ := ih (inRest.trans (List.nil_append _).symm)
        refine ⟨first :: earlier, a, later, above, below, rfl, found, ?_⟩
        rw [List.flatMap_cons, List.append_assoc, ← same, here, List.append_nil, List.append_nil]
      · exact ⟨[], first, rest, before, below, rfl, here, rfl⟩

namespace Image

/-- The addresses that the image has words for. -/
def Mapped (image : Image) (address : Nat) : Prop :=
  image.base ≤ address ∧ address < image.base + image.words.length

instance (image : Image) (address : Nat) : Decidable (image.Mapped address) := inferInstanceAs (Decidable (_ ∧ _))

/-- The edges of control flow. A branch with a condition leads to its target, whether or not the image has a word
there. Every word that decodes, returns apart, leads on to the next address if the image has a word there. -/
inductive Flows (image : Image) : Edge → Prop
  | branch {source : Nat} {word : Word} {d : Decoded} : image.word? source = some word → decode word = .ok d →
      d.op = .br → d.cond ≠ Cond.never → Flows image ⟨source, d.target, .condBranch⟩
  | onward {source : Nat} {word : Word} {d : Decoded} : image.word? source = some word → decode word = .ok d →
      d.op ≠ .ret → image.Mapped (source + 1) → Flows image ⟨source, source + 1, .fallthrough⟩

/-- One step of control flow that stays inside the image. -/
def Successor (image : Image) (source target : Nat) : Prop :=
  (∃ kind, image.Flows ⟨source, target, kind⟩) ∧ image.Mapped target

/-- Whether the word at an address is a return. -/
def IsReturn (image : Image) (address : Nat) : Prop :=
  ∃ word d, image.word? address = some word ∧ decode word = .ok d ∧ d.op = .ret

theorem mapped_iff_word? {image : Image} {address : Nat} :
    image.Mapped address ↔ ∃ word, image.word? address = some word := by
  constructor
  · rintro ⟨lower, upper⟩
    have inside : address - image.base < image.words.length := by omega
    refine ⟨image.words[address - image.base], ?_⟩
    rw [word?, if_neg (by omega), List.getElem?_eq_getElem inside]
  · rintro ⟨word, found⟩
    obtain ⟨lower, upper⟩ := offset_lt_of_word? found
    exact ⟨lower, by omega⟩

/-- The edges that leave an address, a taken branch first. -/
def exits (image : Image) (address : Nat) : List Edge :=
  match image.word? address with
  | none => []
  | some word =>
    match decode word with
    | .error _ => []
    | .ok d =>
      (if d.op = .br ∧ d.cond ≠ Cond.never then [⟨address, d.target, .condBranch⟩] else []) ++
        if d.op ≠ .ret ∧ image.Mapped (address + 1) then [⟨address, address + 1, .fallthrough⟩] else []

/-- The addresses that are followed from an address, in order. -/
def followed (image : Image) (address : Nat) : List Nat :=
  ((image.exits address).map Edge.target).filter fun target => decide (image.Mapped target)

theorem mem_exits {image : Image} {address : Nat} {edge : Edge} :
    edge ∈ image.exits address ↔ edge.source = address ∧ image.Flows edge := by
  constructor
  · intro member
    unfold exits at member
    split at member
    · simp at member
    · rename_i word found
      split at member
      · simp at member
      · rename_i d decoded
        rcases List.mem_append.mp member with member | member
        · split at member
          · rename_i fires
            cases List.mem_singleton.mp member
            exact ⟨rfl, .branch found decoded fires.1 fires.2⟩
          · simp at member
        · split at member
          · rename_i next
            cases List.mem_singleton.mp member
            exact ⟨rfl, .onward found decoded next.1 next.2⟩
          · simp at member
  · rintro ⟨rfl, flows⟩
    cases flows with
    | branch found decoded branch fires => simp [exits, found, decoded, branch, fires]
    | onward found decoded goesOn mapped => simp [exits, found, decoded, goesOn, mapped]

theorem nodup_exits (image : Image) (address : Nat) : (image.exits address).Nodup := by
  unfold exits
  split
  · exact List.nodup_nil
  · split
    · exact List.nodup_nil
    · split <;> split <;> simp

theorem mem_followed {image : Image} {source target : Nat} :
    target ∈ image.followed source ↔ image.Successor source target := by
  simp only [followed, List.mem_filter, List.mem_map, decide_eq_true_eq, mem_exits, Successor]
  refine and_congr_left fun _ => ⟨?_, ?_⟩
  · rintro ⟨⟨source, target, kind⟩, ⟨rfl, flows⟩, rfl⟩
    exact ⟨kind, flows⟩
  · rintro ⟨kind, flows⟩
    exact ⟨_, ⟨rfl, flows⟩, rfl⟩

/-- Whether the word at an address is a return. -/
def returnsAt (image : Image) (address : Nat) : Bool :=
  match image.word? address with
  | none => false
  | some word =>
    match decode word with
    | .ok d => d.op == .ret
    | .error _ => false

theorem returnsAt_iff {image : Image} {address : Nat} : image.returnsAt address = true ↔ image.IsReturn address := by
  unfold returnsAt IsReturn
  cases found : image.word? address with
  | none => simp
  | some word => cases decoded : decode word <;> simp [decoded]

end Image

namespace Report

/-- The targets of the taken branches among the edges. -/
def takenTargets (edges : List Edge) : List Nat := (edges.filter fun edge => edge.kind = .condBranch).map Edge.target

/-- The report behind a visit to an address with a word. -/
def afterVisit (image : Image) (report : Report) (address : Nat) : Report where
  entries := report.entries
  reached := report.reached.insert address
  edges := report.edges ++ image.exits address
  rets := if image.returnsAt address then report.rets.insert address else report.rets
  labels := (takenTargets (image.exits address)).foldl
    (fun labels target => labels.insertIfNew target (targetName target)) report.labels

/-- The report of a walk that visits these addresses. -/
def ofWalk (image : Image) (entries visited : List Nat) : Report :=
  (visited.foldl (afterVisit image) (ofEntries entries)).nameEntries

end Report

namespace Image

section Bounded

variable {image : Image} (bounded : image.base + image.words.length < addressLimit)
include bounded

theorem isMapped_eq (address : Nat) : image.isMapped address = .ok (decide (image.Mapped address)) := by
  unfold isMapped
  split
  · rename_i below
    simp [Mapped, Nat.not_le.mpr below]
  · rename_i above
    simp only [pastEnd, addAddress, bounded, if_true, bind, Except.bind, pure, Except.pure]
    simp [Mapped, Nat.not_lt.mp above]

theorem keepMapped_eq (addresses : List Nat) :
    image.keepMapped addresses = .ok (addresses.filter fun address => decide (image.Mapped address)) := by
  induction addresses with
  | nil => rfl
  | cons address rest ih =>
    simp only [keepMapped, isMapped_eq bounded, ih, bind, Except.bind, pure, Except.pure, List.filter_cons]

theorem fallThrough_eq (report : Report) (address next : Nat) : image.fallThrough report address next =
    .ok (if image.Mapped next then (report.addEdge ⟨address, next, .fallthrough⟩, [next]) else (report, [])) := by
  simp only [fallThrough, isMapped_eq bounded, bind, Except.bind, pure, Except.pure, decide_eq_true_eq]

/-- A step adds the edges that leave its address, and what they show. -/
theorem step_eq {address : Nat} (mapped : image.Mapped address) {word : Word} (found : image.word? address = some word)
    {d : Decoded} (decoded : decode word = .ok d) (report : Report) :
    image.step (report.reach address) address d = .ok (report.afterVisit image address, image.followed address) := by
  have next : addAddress address 1 = .ok (address + 1) := by
    obtain ⟨_, upper⟩ := mapped
    rw [addAddress, if_pos (by omega)]
  have returns : image.returnsAt address = (d.op == .ret) := by simp only [returnsAt, found, decoded]
  have leaves : image.exits address =
      (if d.op = .br ∧ d.cond ≠ Cond.never then [⟨address, d.target, .condBranch⟩] else []) ++
        if d.op ≠ .ret ∧ image.Mapped (address + 1) then [⟨address, address + 1, .fallthrough⟩] else [] := by
    simp only [exits, found, decoded]
  simp only [step, next, keepMapped_eq bounded, fallThrough_eq bounded, bind, Except.bind, pure, Except.pure]
  rw [Report.afterVisit, followed, returns, leaves]
  by_cases ret : d.op = .ret
  · simp [ret, Report.reach, Report.addReturn, Report.takenTargets]
  · by_cases fires : d.op = .br ∧ d.cond ≠ Cond.never
    · by_cases onward : image.Mapped (address + 1)
      · by_cases taken : image.Mapped d.target <;>
          simp [fires, onward, taken, Report.reach, Report.addEdge, Report.addLabel, Report.takenTargets]
      · simp [fires, onward, Report.reach, Report.addEdge, Report.addLabel, Report.takenTargets]
    · by_cases onward : image.Mapped (address + 1)
      · simp [ret, fires, onward, Report.reach, Report.addEdge, Report.takenTargets]
      · simp [ret, fires, onward, Report.reach, Report.takenTargets]

/-- Below the limit of addresses a visit does not overflow, and follows the edges that leave the address. -/
theorem visit_eq {address : Nat} (mapped : image.Mapped address) (report : Report) :
    image.visit report address = .ok (report.afterVisit image address, image.followed address) := by
  obtain ⟨word, found⟩ := mapped_iff_word?.mp mapped
  cases decoded : decode word with
  | error error =>
    have leaves : image.exits address = [] := by simp only [exits, found, decoded]
    have returns : image.returnsAt address = false := by simp only [returnsAt, found, decoded]
    simp [visit, found, decoded, Report.afterVisit, Report.reach, followed, leaves, returns, Report.takenTargets]
  | ok d =>
    simp only [visit, found, decoded]
    exact step_eq bounded mapped found decoded report

end Bounded

/-- The steps of a walk over a queue, and the addresses it visits: one that was reached before is passed over, and a new
one is visited, with what follows from it put behind the queue. -/
inductive Walked (image : Image) : ExtTreeSet Nat → List Nat → List Nat → Prop
  | done {reached : ExtTreeSet Nat} : Walked image reached [] []
  | skip {reached : ExtTreeSet Nat} {address : Nat} {queue visited : List Nat} : address ∈ reached →
      Walked image reached queue visited → Walked image reached (address :: queue) visited
  | visit {reached : ExtTreeSet Nat} {address : Nat} {queue visited : List Nat} : address ∉ reached →
      image.Mapped address → Walked image (reached.insert address) (queue ++ image.followed address) visited →
      Walked image reached (address :: queue) (address :: visited)

/-- Every queue of mapped addresses is walked to its end. -/
theorem exists_walked {image : Image} (bounded : image.base + image.words.length < addressLimit) (report : Report)
    (queue : List Nat) (mapped : ∀ address ∈ queue, image.Mapped address) :
    ∃ visited, image.walk report queue = .ok (visited.foldl (Report.afterVisit image) report) ∧
      Walked image report.reached queue visited := by
  fun_induction Image.walk image report queue with
  | case1 report => exact ⟨[], rfl, .done⟩
  | case2 report address queue old ih =>
    obtain ⟨visited, walk, walked⟩ := ih (List.forall_mem_cons.mp mapped).2
    exact ⟨visited, walk, .skip old walked⟩
  | case3 report address queue fresh overflow failed =>
    cases (visit_eq bounded (mapped address (List.mem_cons_self ..)) report).symm.trans failed
  | case4 report address queue fresh found targets visited ih =>
    obtain ⟨here, later⟩ := List.forall_mem_cons.mp mapped
    cases (visit_eq bounded here report).symm.trans visited
    have mapped' : ∀ x ∈ queue ++ image.followed address, image.Mapped x := by
      intro x member
      rcases List.mem_append.mp member with old | new
      · exact later x old
      · exact (mem_followed.mp new).2
    obtain ⟨visited, walk, walked⟩ := ih mapped'
    exact ⟨address :: visited, walk, .visit fresh here walked⟩

namespace Walked

variable {image : Image} {reached : ExtTreeSet Nat} {queue visited : List Nat}

theorem fresh (walked : Walked image reached queue visited) {address : Nat} (member : address ∈ visited) :
    address ∉ reached := by
  induction walked with
  | done => simp at member
  | skip _ _ ih => exact ih member
  | visit new _ _ ih =>
    rcases List.mem_cons.mp member with rfl | later
    · exact new
    · have outside := ih later
      simp only [ExtTreeSet.mem_insert, not_or] at outside
      exact outside.2

theorem nodup (walked : Walked image reached queue visited) : visited.Nodup := by
  induction walked with
  | done => exact List.nodup_nil
  | skip _ _ ih => exact ih
  | visit _ _ rest ih =>
    refine List.nodup_cons.mpr ⟨?_, ih⟩
    intro member
    exact rest.fresh member ExtTreeSet.mem_insert_self

theorem mapped (walked : Walked image reached queue visited) {address : Nat} (member : address ∈ visited) :
    image.Mapped address := by
  induction walked with
  | done => simp at member
  | skip _ _ ih => exact ih member
  | visit _ here _ ih =>
    rcases List.mem_cons.mp member with rfl | later
    · exact here
    · exact ih later

theorem reached_or_visited {address target : Nat} (known : target ∈ reached.insert address ∨ target ∈ visited) :
    target ∈ reached ∨ target ∈ address :: visited := by
  rcases known with inserted | later
  · rcases ExtTreeSet.mem_insert.mp inserted with same | old
    · rw [LawfulEqCmp.compare_eq_iff_eq] at same
      exact Or.inr (by simp [same])
    · exact Or.inl old
  · exact Or.inr (List.mem_cons_of_mem _ later)

/-- Nothing in the queue is left out. -/
theorem covers (walked : Walked image reached queue visited) {address : Nat} (member : address ∈ queue) :
    address ∈ reached ∨ address ∈ visited := by
  induction walked with
  | done => simp at member
  | skip old _ ih =>
    rcases List.mem_cons.mp member with rfl | later
    · exact Or.inl old
    · exact ih later
  | visit _ _ _ ih =>
    rcases List.mem_cons.mp member with rfl | later
    · exact Or.inr (List.mem_cons_self ..)
    · exact reached_or_visited (ih (List.mem_append_left _ later))

/-- What a visited word leads to was reached before the walk or is visited in it. -/
theorem closed (walked : Walked image reached queue visited) {source target : Nat} (member : source ∈ visited)
    (step : image.Successor source target) : target ∈ reached ∨ target ∈ visited := by
  induction walked with
  | done => simp at member
  | skip _ _ ih => exact ih member
  | visit _ _ rest ih =>
    apply reached_or_visited
    rcases List.mem_cons.mp member with rfl | later
    · exact rest.covers (List.mem_append_right _ (mem_followed.mpr step))
    · exact ih later

/-- A set that holds the queue and all successors of its members holds every visited address. -/
theorem within (walked : Walked image reached queue visited) {bound : Set Nat}
    (starts : ∀ address ∈ queue, address ∈ bound)
    (steps : ∀ source ∈ bound, ∀ target, image.Successor source target → target ∈ bound) :
    ∀ address ∈ visited, address ∈ bound := by
  induction walked with
  | done => simp
  | skip _ _ ih => exact ih fun address member => starts address (List.mem_cons_of_mem _ member)
  | @visit reached address queue visited _ _ rest ih =>
    have here := starts address (List.mem_cons_self ..)
    have later := ih (by
      intro x member
      rcases List.mem_append.mp member with old | new
      · exact starts x (List.mem_cons_of_mem _ old)
      · exact steps address here x (mem_followed.mp new))
    exact List.forall_mem_cons.mpr ⟨here, later⟩

end Walked

end Image

namespace Report

open Image

section Fold

variable {image : Image} (visited : List Nat) (report : Report)

theorem entries_foldl : (visited.foldl (afterVisit image) report).entries = report.entries := by
  induction visited generalizing report with
  | nil => rfl
  | cons first rest ih => rw [List.foldl_cons, ih, afterVisit]

theorem edges_foldl : (visited.foldl (afterVisit image) report).edges = report.edges ++ visited.flatMap image.exits := by
  induction visited generalizing report with
  | nil => simp
  | cons first rest ih => rw [List.foldl_cons, ih, afterVisit, List.flatMap_cons, List.append_assoc]

theorem mem_reached_foldl {address : Nat} : address ∈ (visited.foldl (afterVisit image) report).reached ↔
    address ∈ report.reached ∨ address ∈ visited := by
  induction visited generalizing report with
  | nil => simp
  | cons first rest ih =>
    rw [List.foldl_cons, ih, afterVisit, ExtTreeSet.mem_insert, LawfulEqCmp.compare_eq_iff_eq, List.mem_cons,
      eq_comm]
    tauto

theorem mem_rets_foldl {address : Nat} : address ∈ (visited.foldl (afterVisit image) report).rets ↔
    address ∈ report.rets ∨ address ∈ visited ∧ image.IsReturn address := by
  induction visited generalizing report with
  | nil => simp
  | cons first rest ih =>
    rw [List.foldl_cons, ih, afterVisit, List.mem_cons, ← returnsAt_iff]
    split
    · rename_i returns
      rw [ExtTreeSet.mem_insert, LawfulEqCmp.compare_eq_iff_eq]
      grind
    · grind

/-- Names are only given to addresses that have none yet. -/
theorem getElem?_foldl_insertIfNew (name : Nat → Text) (addresses : List Nat) (labels : ExtTreeMap Nat Text)
    (address : Nat) :
    (addresses.foldl (fun labels target => labels.insertIfNew target (name target)) labels)[address]? =
      labels[address]?.or (if address ∈ addresses then some (name address) else none) := by
  induction addresses generalizing labels with
  | nil => simp
  | cons first rest ih =>
    rw [List.foldl_cons, ih, ExtTreeMap.getElem?_insertIfNew]
    by_cases here : first = address
    · subst here
      cases known : labels[first]? with
      | some old => simp [ExtTreeMap.mem_iff_isSome_getElem?, known]
      | none => simp [ExtTreeMap.mem_iff_isSome_getElem?, known]
    · simp [here, Ne.symm here]

theorem labels_foldl : (visited.foldl (afterVisit image) report).labels =
    (takenTargets (visited.flatMap image.exits)).foldl
      (fun labels target => labels.insertIfNew target (targetName target)) report.labels := by
  induction visited generalizing report with
  | nil => rfl
  | cons first rest ih =>
    rw [List.foldl_cons, ih, afterVisit, List.flatMap_cons, takenTargets, takenTargets, takenTargets,
      List.filter_append, List.map_append, List.foldl_append]

end Fold

variable {image : Image} {starts entries visited : List Nat}

theorem entries_ofWalk : (ofWalk image entries visited).entries = entries := entries_foldl visited (ofEntries entries)

theorem edges_ofWalk : (ofWalk image entries visited).edges = visited.flatMap image.exits :=
  edges_foldl visited (ofEntries entries)

theorem mem_reached_ofWalk {address : Nat} :
    address ∈ (ofWalk image entries visited).reached ↔ address ∈ visited := by
  rw [ofWalk, nameEntries, mem_reached_foldl]
  simp [ofEntries]

theorem mem_rets_ofWalk {address : Nat} : address ∈ (ofWalk image entries visited).rets ↔
    address ∈ (ofWalk image entries visited).reached ∧ image.IsReturn address := by
  rw [mem_reached_ofWalk, ofWalk, nameEntries, mem_rets_foldl]
  simp [ofEntries]

/-- A target of a taken branch is named as such, and any other entry as an entry. -/
theorem getElem?_labels_ofWalk (address : Nat) :
    (ofWalk image entries visited).labels[address]? =
      if address ∈ takenTargets (ofWalk image entries visited).edges then some (targetName address)
      else if address ∈ entries then some (entryName address) else none := by
  have named : (ofWalk image entries visited).labels =
      entries.foldl (fun labels entry => labels.insertIfNew entry (entryName entry))
        (visited.foldl (afterVisit image) (ofEntries entries)).labels := by
    rw [ofWalk, nameEntries, entries_foldl]
    rfl
  rw [named, getElem?_foldl_insertIfNew, labels_foldl, getElem?_foldl_insertIfNew, edges_ofWalk]
  by_cases taken : address ∈ takenTargets (visited.flatMap image.exits) <;> simp [ofEntries, taken]

theorem mem_edges_ofWalk {edge : Edge} : edge ∈ (ofWalk image entries visited).edges ↔
    edge.source ∈ (ofWalk image entries visited).reached ∧ image.Flows edge := by
  simp only [edges_ofWalk, mem_reached_ofWalk, List.mem_flatMap, mem_exits]
  constructor
  · rintro ⟨_, member, rfl, flows⟩
    exact ⟨member, flows⟩
  · rintro ⟨member, flows⟩
    exact ⟨_, member, rfl, flows⟩

/-- Edges of different visits have different sources, and those of one visit different kinds. -/
theorem nodup_edges_ofWalk (walked : Walked image ∅ starts visited) : (ofWalk image entries visited).edges.Nodup := by
  rw [edges_ofWalk]
  refine List.nodup_flatMap.mpr ⟨fun address _ => nodup_exits image address, ?_⟩
  refine walked.nodup.imp ?_
  intro first second apart edge left right
  exact apart ((mem_exits.mp left).1.symm.trans (mem_exits.mp right).1)

end Report

/-- Below the limit of addresses a report is always made, and from a walk that starts at the mapped entries. -/
theorem Image.exists_follow_walked {image : Image} (bounded : image.base + image.words.length < addressLimit)
    (entries : List Nat) : ∃ visited, image.follow entries = .ok (.ofWalk image entries visited) ∧
      Walked image ∅ (entries.filter fun entry => decide (image.Mapped entry)) visited := by
  obtain ⟨visited, walk, walked⟩ := exists_walked bounded (.ofEntries entries)
    (entries.filter fun entry => decide (image.Mapped entry)) (by simp)
  refine ⟨visited, ?_, walked⟩
  simp only [follow, keepMapped_eq bounded, walk, bind, Except.bind, pure, Except.pure, Report.ofWalk]

/-- The sets of addresses that control flow from the entries does not leave. -/
def Image.ClosedFrom (image : Image) (entries : List Nat) (addresses : Set Nat) : Prop :=
  (∀ entry ∈ entries, image.Mapped entry → entry ∈ addresses) ∧
    ∀ source ∈ addresses, ∀ target, image.Successor source target → target ∈ addresses

/-- Following control flow ends for every image below the limit of addresses and all entries, and reports exactly
what control flow reaches. -/
theorem follow_exact {image : Image} (bounded : image.base + image.words.length < addressLimit)
    (entries : List Nat) : ∃ report, image.follow entries = .ok report ∧
      IsLeast {addresses | image.ClosedFrom entries addresses} {address | address ∈ report.reached} ∧
      report.edges.Nodup ∧ (∀ edge, edge ∈ report.edges ↔ edge.source ∈ report.reached ∧ image.Flows edge) ∧
      (∀ address, address ∈ report.rets ↔ address ∈ report.reached ∧ image.IsReturn address) ∧
      ∀ address ∈ report.reached, image.Mapped address := by
  obtain ⟨visited, followed, walked⟩ := Image.exists_follow_walked bounded entries
  refine ⟨_, followed, ⟨⟨?_, ?_⟩, ?_⟩, Report.nodup_edges_ofWalk walked, fun edge => Report.mem_edges_ofWalk,
    fun address => Report.mem_rets_ofWalk, fun address reached => walked.mapped (Report.mem_reached_ofWalk.mp reached)⟩
  · intro entry member mapped
    have start : entry ∈ entries.filter fun x => decide (image.Mapped x) := by simp [member, mapped]
    have covered := walked.covers start
    exact Report.mem_reached_ofWalk.mpr (by simpa using covered)
  · intro source reached target step
    have next := walked.closed (Report.mem_reached_ofWalk.mp reached) step
    exact Report.mem_reached_ofWalk.mpr (by simpa using next)
  · rintro addresses ⟨starts, steps⟩ address reached
    refine walked.within ?_ steps address (Report.mem_reached_ofWalk.mp reached)
    intro entry member
    obtain ⟨member, mapped⟩ := List.mem_filter.mp member
    exact starts entry member (of_decide_eq_true mapped)

/-- A branch to itself falls through to a return, and the word behind the return is not reached. -/
theorem follow_exact_spin : ∃ report, Image.follow ⟨4, [0x1804#16, 0xF000#16, 0x0000#16]⟩ [4, 40] = .ok report ∧
    ⟨4, 4, .condBranch⟩ ∈ report.edges ∧ 5 ∈ report.rets ∧ 6 ∉ report.reached := by
  obtain ⟨report, followed, ⟨⟨starts, steps⟩, least⟩, -, edges, rets, -⟩ :=
    @follow_exact ⟨4, [0x1804#16, 0xF000#16, 0x0000#16]⟩ (by decide) [4, 40]
  have first : 4 ∈ report.reached := starts 4 (by decide) (by decide)
  have second : 5 ∈ report.reached := steps 4 first 5 (Image.mem_followed.mp (by decide))
  have loop : ⟨4, 4, .condBranch⟩ ∈ Image.exits ⟨4, [0x1804#16, 0xF000#16, 0x0000#16]⟩ 4 := by decide
  refine ⟨report, followed, (edges _).mpr ⟨first, (Image.mem_exits.mp loop).2⟩,
    (rets 5).mpr ⟨second, Image.returnsAt_iff.mp (by decide)⟩, ?_⟩
  intro third
  have inside : 6 ∈ ({4, 5} : Set Nat) := by
    refine least ⟨?_, ?_⟩ third
    · simp [Image.Mapped]
    · rintro source (rfl | rfl) target step
      · have options : target ∈ [4, 5] := Image.mem_followed.mpr step
        simpa using options
      · have options : target ∈ [] := Image.mem_followed.mpr step
        simp at options
  simp at inside

end SimtAsm
