import Mathlib.Order.Lattice.Nat
import SimtAsm.Proofs.ControlFlow

namespace SimtAsm

open Std

namespace Image

/-- Control flow leads from some mapped entry to the address in this many steps. -/
inductive ReachedIn (image : Image) (entries : List Nat) : Nat → Nat → Prop
  | entry {address : Nat} : address ∈ entries → image.Mapped address → ReachedIn image entries 0 address
  | step {steps source target : Nat} : ReachedIn image entries steps source → image.Successor source target →
      ReachedIn image entries (steps + 1) target

/-- The least number of steps from a mapped entry to the address. -/
noncomputable def distance (image : Image) (entries : List Nat) (address : Nat) : Nat :=
  sInf {steps | image.ReachedIn entries steps address}

/-- The state of a walk that has come to the addresses `level` steps away. What is left of them stands in front, and
behind it what was found from those already visited. -/
structure Levels (image : Image) (entries : List Nat) (level : Nat) (reached : ExtTreeSet Nat) (near far : List Nat) :
    Prop where
  inFront : ∀ address ∈ near, image.ReachedIn entries level address
  behind : ∀ address ∈ far, image.ReachedIn entries (level + 1) address
  closer : ∀ steps < level, ∀ address, image.ReachedIn entries steps address → address ∈ reached
  complete : ∀ address, image.ReachedIn entries level address → address ∈ reached ∨ address ∈ near
  onward : ∀ source ∈ reached, ∀ target, image.Successor source target →
    target ∈ reached ∨ target ∈ near ∨ target ∈ far

namespace Levels

variable {image : Image} {entries : List Nat} {level : Nat} {reached : ExtTreeSet Nat} {near far : List Nat}

theorem start (image : Image) (entries : List Nat) :
    Levels image entries 0 ∅ (entries.filter fun entry => decide (image.Mapped entry)) [] where
  inFront := by
    intro address member
    obtain ⟨isEntry, mapped⟩ := List.mem_filter.mp member
    exact .entry isEntry (of_decide_eq_true mapped)
  behind := by simp
  closer := by simp
  complete := by
    intro address reachedIn
    cases reachedIn with
    | entry isEntry mapped => exact Or.inr (List.mem_filter.mpr ⟨isEntry, decide_eq_true mapped⟩)
  onward := by simp

/-- When a level is done, what was found from it is all of the next one. -/
theorem next (levels : Levels image entries level reached [] far) :
    Levels image entries (level + 1) reached far [] where
  inFront := levels.behind
  behind := by simp
  closer := by
    intro steps below address reachedIn
    by_cases last : steps = level
    · subst last
      simpa using levels.complete address reachedIn
    · exact levels.closer steps (by omega) address reachedIn
  complete := by
    intro address reachedIn
    cases reachedIn with
    | @step _ source _ before successor =>
      have old : source ∈ reached := by simpa using levels.complete source before
      simpa using levels.onward source old address successor
  onward := by
    intro source isReached target successor
    simpa using levels.onward source isReached target successor

/-- The address in front of the queue belongs to the level at hand, if need be to the one that begins with it. -/
theorem front (levels : Levels image entries level reached near far) {address : Nat} {queue : List Nat}
    (split : address :: queue = near ++ far) : ∃ level' near' far', level ≤ level' ∧ queue = near' ++ far' ∧
      Levels image entries level' reached (address :: near') far' := by
  cases near with
  | nil =>
    rw [List.nil_append] at split
    subst split
    exact ⟨level + 1, queue, [], by omega, by simp, levels.next⟩
  | cons first near =>
    rw [List.cons_append, List.cons.injEq] at split
    obtain ⟨rfl, rfl⟩ := split
    exact ⟨level, near, far, le_rfl, rfl, levels⟩

variable {address : Nat}

/-- Once the address in front is reached, it need not wait any longer. -/
theorem reached_or_waits {reached' : ExtTreeSet Nat} (grown : ∀ x ∈ reached, x ∈ reached') (here : address ∈ reached')
    {x : Nat} (before : x ∈ reached ∨ x ∈ address :: near) : x ∈ reached' ∨ x ∈ near := by
  rcases before with old | first
  · exact Or.inl (grown x old)
  · rcases List.mem_cons.mp first with rfl | later
    · exact Or.inl here
    · exact Or.inr later

theorem skip (levels : Levels image entries level reached (address :: near) far) (old : address ∈ reached) :
    Levels image entries level reached near far where
  inFront := (List.forall_mem_cons.mp levels.inFront).2
  behind := levels.behind
  closer := levels.closer
  complete := by
    intro x reachedIn
    exact reached_or_waits (fun _ => id) old (levels.complete x reachedIn)
  onward := by
    intro source isReached target successor
    rcases or_assoc.mpr (levels.onward source isReached target successor) with before | second
    · exact or_assoc.mp (Or.inl (reached_or_waits (fun _ => id) old before))
    · exact Or.inr (Or.inr second)

theorem visit (levels : Levels image entries level reached (address :: near) far) :
    Levels image entries level (reached.insert address) near (far ++ image.followed address) := by
  obtain ⟨here, later⟩ := List.forall_mem_cons.mp levels.inFront
  have grown : ∀ x ∈ reached, x ∈ reached.insert address := fun _ old => ExtTreeSet.mem_insert.mpr (Or.inr old)
  refine ⟨later, ?_, ?_, ?_, ?_⟩
  · intro x member
    rcases List.mem_append.mp member with old | new
    · exact levels.behind x old
    · exact .step here (mem_followed.mp new)
  · intro steps below x reachedIn
    exact grown x (levels.closer steps below x reachedIn)
  · intro x reachedIn
    exact reached_or_waits grown ExtTreeSet.mem_insert_self (levels.complete x reachedIn)
  · intro source isReached target successor
    by_cases same : source = address
    · subst same
      exact Or.inr (Or.inr (List.mem_append_right _ (mem_followed.mpr successor)))
    · have old : source ∈ reached := by simpa [Ne.symm same] using isReached
      rcases or_assoc.mpr (levels.onward source old target successor) with before | second
      · exact or_assoc.mp (Or.inl (reached_or_waits grown ExtTreeSet.mem_insert_self before))
      · exact Or.inr (Or.inr (List.mem_append_left _ second))

/-- Whatever is closer was visited before, so a new address in front is as far away as the level says. -/
theorem isLeast (levels : Levels image entries level reached (address :: near) far) (fresh : address ∉ reached) :
    IsLeast {steps | image.ReachedIn entries steps address} level := by
  refine ⟨levels.inFront address (List.mem_cons_self ..), ?_⟩
  intro steps reachedIn
  by_contra below
  exact fresh (levels.closer steps (by omega) address reachedIn)

end Levels

namespace Walked

variable {image : Image} {entries starts : List Nat} {reached : ExtTreeSet Nat} {queue visited : List Nat}

/-- From one level on, a walk visits what is at least that far away, and nothing before what is closer. -/
theorem nearest_first (walked : Walked image reached queue visited) {level : Nat} {near far : List Nat}
    (levels : Levels image entries level reached near far) (split : queue = near ++ far) :
    (∀ address ∈ visited, level ≤ image.distance entries address ∧
      IsLeast {steps | image.ReachedIn entries steps address} (image.distance entries address)) ∧
      visited.Pairwise fun first second => image.distance entries first ≤ image.distance entries second := by
  induction walked generalizing level near far with
  | done => simp
  | skip old _ ih =>
    obtain ⟨level', near', far', le, rfl, levels'⟩ := levels.front split
    obtain ⟨each, sorted⟩ := ih (levels'.skip old) rfl
    exact ⟨fun address member => ⟨le.trans (each address member).1, (each address member).2⟩, sorted⟩
  | @visit reached address queue visited fresh _ _ ih =>
    obtain ⟨level', near', far', le, rfl, levels'⟩ := levels.front split
    obtain ⟨each, sorted⟩ := ih levels'.visit (List.append_assoc ..)
    have least := levels'.isLeast fresh
    have atLevel : image.distance entries address = level' := least.csInf_eq
    refine ⟨List.forall_mem_cons.mpr ⟨?_, ?_⟩, List.pairwise_cons.mpr ⟨?_, sorted⟩⟩
    · rw [atLevel]
      exact ⟨le, least⟩
    · intro later member
      exact ⟨le.trans (each later member).1, (each later member).2⟩
    · intro later member
      rw [atLevel]
      exact (each later member).1

/-- Nothing is visited that was not queued, and nothing is queued behind the starts but targets of edges. -/
theorem discovered (walked : Walked image reached queue visited) {known : List Edge}
    (queued : ∀ address ∈ queue, address ∈ starts ∨ ∃ edge ∈ known, edge.target = address)
    {earlier later : List Nat} {address : Nat} (split : visited = earlier ++ address :: later) :
    address ∈ starts ∨ ∃ edge ∈ known ++ earlier.flatMap image.exits, edge.target = address := by
  induction walked generalizing known earlier with
  | done => simp at split
  | skip _ _ ih => exact ih (List.forall_mem_cons.mp queued).2 split
  | @visit reached first queue visited _ _ _ ih =>
    obtain ⟨here, others⟩ := List.forall_mem_cons.mp queued
    have widen : ∀ {x : Nat} (more : List Edge), (x ∈ starts ∨ ∃ edge ∈ known, edge.target = x) →
        x ∈ starts ∨ ∃ edge ∈ known ++ more, edge.target = x := by
      rintro x more (isStart | ⟨edge, inKnown, same⟩)
      · exact Or.inl isStart
      · exact Or.inr ⟨edge, List.mem_append_left _ inKnown, same⟩
    cases earlier with
    | nil =>
      cases split
      exact widen _ here
    | cons _ earlier =>
      cases split
      have queued' : ∀ x ∈ queue ++ image.followed first,
          x ∈ starts ∨ ∃ edge ∈ known ++ image.exits first, edge.target = x := by
        intro x member
        rcases List.mem_append.mp member with old | new
        · exact widen _ (others x old)
        · obtain ⟨edge, isExit, same⟩ := List.mem_map.mp (List.mem_filter.mp new).1
          exact Or.inr ⟨edge, List.mem_append_right _ isExit, same⟩
      simpa only [List.flatMap_cons, List.append_assoc] using ih queued' rfl

end Walked

theorem exits_pairwise (image : Image) (address : Nat) :
    (image.exits address).Pairwise fun first second => first.kind = .condBranch ∧ second.kind = .fallthrough := by
  unfold exits
  split
  · exact List.Pairwise.nil
  · split
    · exact List.Pairwise.nil
    · split <;> split <;> simp

end Image

namespace Report

open Image

variable {image : Image} {starts entries visited : List Nat}

/-- The edges of one address are those of its visit, and all other visits are to other addresses. -/
theorem exists_edges_split (walked : Walked image ∅ starts visited) (address : Nat) :
    ∃ before here after, (ofWalk image entries visited).edges = before ++ here ++ after ∧
      (∀ edge ∈ here, edge.source = address) ∧ (∀ edge ∈ before ++ after, edge.source ≠ address) ∧
      here.Pairwise fun first second => first.kind = .condBranch ∧ second.kind = .fallthrough := by
  rw [edges_ofWalk]
  by_cases member : address ∈ visited
  · have distinct := walked.nodup
    obtain ⟨earlier, later, rfl⟩ := List.append_of_mem member
    refine ⟨earlier.flatMap image.exits, image.exits address, later.flatMap image.exits, by simp,
      fun edge isExit => (mem_exits.mp isExit).1, ?_, image.exits_pairwise address⟩
    rw [List.nodup_middle, List.nodup_cons] at distinct
    rw [← List.flatMap_append]
    intro edge inOthers same
    obtain ⟨other, inSplit, isExit⟩ := List.mem_flatMap.mp inOthers
    exact distinct.1 (same ▸ (mem_exits.mp isExit).1 ▸ inSplit)
  · refine ⟨visited.flatMap image.exits, [], [], by simp, by simp, ?_, List.Pairwise.nil⟩
    rw [List.append_nil]
    intro edge inEdges same
    obtain ⟨other, inVisited, isExit⟩ := List.mem_flatMap.mp inEdges
    exact member (same ▸ (mem_exits.mp isExit).1 ▸ inVisited)

end Report

/-- Edges are reported in the order in which a breadth first walk discovers them. Their sources never come closer to the
entries. The edges of one address stand together, a taken branch in front of the fall through. And the source of each
edge is a mapped entry or was the target of an edge before it. -/
theorem edges_breadth_first {image : Image} (bounded : image.base + image.words.length < addressLimit)
    (entries : List Nat) : ∃ report, image.follow entries = .ok report ∧
      (∀ edge ∈ report.edges,
        IsLeast {steps | image.ReachedIn entries steps edge.source} (image.distance entries edge.source)) ∧
      (report.edges.Pairwise fun first second =>
        image.distance entries first.source ≤ image.distance entries second.source) ∧
      (∀ address, ∃ before here after, report.edges = before ++ here ++ after ∧
        (∀ edge ∈ here, edge.source = address) ∧ (∀ edge ∈ before ++ after, edge.source ≠ address) ∧
        here.Pairwise fun first second => first.kind = .condBranch ∧ second.kind = .fallthrough) ∧
      ∀ earlier edge later, report.edges = earlier ++ edge :: later →
        (edge.source ∈ entries ∧ image.Mapped edge.source) ∨ ∃ first ∈ earlier, first.target = edge.source := by
  obtain ⟨visited, followed, walked⟩ := Image.exists_follow_walked bounded entries
  obtain ⟨each, sorted⟩ := walked.nearest_first (Image.Levels.start image entries) (List.append_nil _).symm
  refine ⟨_, followed, ?_, ?_, Report.exists_edges_split walked, ?_⟩
  · intro edge member
    exact (each edge.source (Report.mem_reached_ofWalk.mp (Report.mem_edges_ofWalk.mp member).1)).2
  · rw [Report.edges_ofWalk]
    refine List.pairwise_flatMap.mpr ⟨?_, ?_⟩
    · intro address _
      refine List.pairwise_of_forall_mem_list ?_
      intro edge isExit edge' isExit'
      rw [(Image.mem_exits.mp isExit).1, (Image.mem_exits.mp isExit').1]
    · refine sorted.imp ?_
      intro first second le edge isExit edge' isExit'
      rw [(Image.mem_exits.mp isExit).1, (Image.mem_exits.mp isExit').1]
      exact le
  · intro earlier edge later split
    have queued : ∀ address ∈ entries.filter fun entry => decide (image.Mapped entry),
        address ∈ entries.filter (fun entry => decide (image.Mapped entry)) ∨
          ∃ edge ∈ ([] : List Edge), edge.target = address := fun address start => Or.inl start
    rw [Report.edges_ofWalk] at split
    obtain ⟨before, address, _, above, below, whole, leaves, rfl⟩ := exists_of_flatMap_eq_append_cons split
    obtain ⟨rfl, _⟩ : edge.source = address ∧ image.Flows edge := Image.mem_exits.mp (by simp [leaves])
    rcases walked.discovered queued whole with isStart | ⟨first, found, same⟩
    · obtain ⟨isEntry, mapped⟩ := List.mem_filter.mp isStart
      exact Or.inl ⟨isEntry, of_decide_eq_true mapped⟩
    · exact Or.inr ⟨first, List.mem_append_left _ found, same⟩

/-- A loop entered twice at its head, and an entry outside the image: only the head is a source that no edge led to. -/
theorem edges_breadth_first_loop :
    ∃ report, Image.follow ⟨4, [0x1806#16, 0x0000#16, 0x1804#16, 0xF000#16]⟩ [4, 40, 4] = .ok report ∧
      (report.edges.Pairwise fun first second =>
        Image.distance ⟨4, [0x1806#16, 0x0000#16, 0x1804#16, 0xF000#16]⟩ [4, 40, 4] first.source ≤
          Image.distance ⟨4, [0x1806#16, 0x0000#16, 0x1804#16, 0xF000#16]⟩ [4, 40, 4] second.source) ∧
      ∀ earlier edge later, report.edges = earlier ++ edge :: later →
        edge.source = 4 ∨ ∃ first ∈ earlier, first.target = edge.source := by
  obtain ⟨report, followed, _, sorted, _, found⟩ :=
    @edges_breadth_first ⟨4, [0x1806#16, 0x0000#16, 0x1804#16, 0xF000#16]⟩ (by decide) [4, 40, 4]
  refine ⟨report, followed, sorted, ?_⟩
  intro earlier edge later split
  rcases found earlier edge later split with ⟨isEntry, _, upper⟩ | known
  · have below : edge.source < 8 := upper
    simp only [List.mem_cons, List.not_mem_nil, or_false] at isEntry
    exact Or.inl (by omega)
  · exact Or.inr known

end SimtAsm
