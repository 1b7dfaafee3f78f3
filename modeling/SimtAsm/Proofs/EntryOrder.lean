import SimtAsm.Command.Inspect
import SimtAsm.Proofs.ControlFlow

namespace SimtAsm

open Std

namespace Image.Walked

variable {image : Image} {starts starts' visited visited' : List Nat}

/-- What a walk visits holds all that a walk from some of its starts visits. -/
theorem visited_of_subset (walked : Walked image ∅ starts visited) (walked' : Walked image ∅ starts' visited')
    (subset : ∀ address ∈ starts, address ∈ starts') : ∀ address ∈ visited, address ∈ visited' := by
  have holdsStarts : ∀ address ∈ starts, address ∈ {x | x ∈ visited'} := by
    intro address start
    simpa using walked'.covers (subset address start)
  have holdsSteps : ∀ source ∈ visited', ∀ target, image.Successor source target → target ∈ visited' := by
    intro source member target step
    simpa using walked'.closed member step
  exact walked.within holdsStarts holdsSteps

theorem visited_iff (walked : Walked image ∅ starts visited) (walked' : Walked image ∅ starts' visited')
    (same : ∀ address, address ∈ starts ↔ address ∈ starts') (address : Nat) :
    address ∈ visited ↔ address ∈ visited' :=
  ⟨walked.visited_of_subset walked' (fun a => (same a).mp) address,
    walked'.visited_of_subset walked (fun a => (same a).mpr) address⟩

end Image.Walked

namespace Report

open Image

variable {image : Image} {starts starts' entries entries' visited visited' : List Nat}
variable (walked : Walked image ∅ starts visited) (walked' : Walked image ∅ starts' visited')
variable (sameStarts : ∀ address, address ∈ starts ↔ address ∈ starts')
include walked walked' sameStarts

theorem reached_ofWalk_eq : (ofWalk image entries visited).reached = (ofWalk image entries' visited').reached := by
  apply ExtTreeSet.ext_mem
  intro address
  rw [mem_reached_ofWalk, mem_reached_ofWalk, walked.visited_iff walked' sameStarts]

theorem rets_ofWalk_eq : (ofWalk image entries visited).rets = (ofWalk image entries' visited').rets := by
  apply ExtTreeSet.ext_mem
  intro address
  rw [mem_rets_ofWalk, mem_rets_ofWalk, reached_ofWalk_eq walked walked' sameStarts]

/-- Neither list of edges repeats one, so the same edges in another order are a permutation. -/
theorem edges_ofWalk_perm : (ofWalk image entries visited).edges.Perm (ofWalk image entries' visited').edges := by
  rw [List.perm_ext_iff_of_nodup (nodup_edges_ofWalk walked) (nodup_edges_ofWalk walked')]
  intro edge
  rw [mem_edges_ofWalk, mem_edges_ofWalk, reached_ofWalk_eq walked walked' sameStarts]

theorem labels_ofWalk_eq (sameEntries : ∀ address, address ∈ entries ↔ address ∈ entries') :
    (ofWalk image entries visited).labels = (ofWalk image entries' visited').labels := by
  apply ExtTreeMap.ext_getElem?
  intro address
  have edges : (ofWalk image entries visited).edges.Perm (ofWalk image entries' visited').edges :=
    edges_ofWalk_perm walked walked' sameStarts
  have targets : address ∈ takenTargets (ofWalk image entries visited).edges ↔
      address ∈ takenTargets (ofWalk image entries' visited').edges := ((edges.filter _).map _).mem_iff
  simp only [getElem?_labels_ofWalk, targets, sameEntries]

end Report

namespace InspectCommand

/-- Texts that all are addresses are read to the addresses they stand for. -/
theorem exists_mapM_readAddress {texts : List Text} (reads : ∀ text ∈ texts, ∃ address, Address.ofText text = .ok address) :
    ∃ addresses, texts.mapM readAddress = .ok addresses ∧
      ∀ address, address ∈ addresses ↔ ∃ text ∈ texts, Address.ofText text = .ok address := by
  induction texts with
  | nil => exact ⟨[], rfl, by simp⟩
  | cons text rest ih =>
    obtain ⟨⟨first, readFirst⟩, later⟩ := List.forall_mem_cons.mp reads
    obtain ⟨addresses, read, members⟩ := ih later
    have here : readAddress text = .ok first := by rw [readAddress, readFirst]
    refine ⟨first :: addresses, ?_, ?_⟩
    · rw [List.mapM_cons, here, read]
      rfl
    · intro address
      simp only [List.mem_cons, members, exists_eq_or_imp, readFirst, Except.ok.injEq]
      exact or_congr_left eq_comm

/-- Entries are put in order and their repetitions dropped before they are followed. -/
theorem entryAddresses_eq (image : Image) {texts texts' : List Text} (same : ∀ text, text ∈ texts ↔ text ∈ texts')
    (reads : ∀ text ∈ texts, ∃ address, Address.ofText text = .ok address) :
    entryAddresses image texts = entryAddresses image texts' := by
  have empty : texts.isEmpty = texts'.isEmpty := by
    rw [Bool.eq_iff_iff, List.isEmpty_iff, List.isEmpty_iff, List.eq_nil_iff_forall_not_mem,
      List.eq_nil_iff_forall_not_mem]
    simp only [same]
  obtain ⟨addresses, read, members⟩ := exists_mapM_readAddress reads
  obtain ⟨addresses', read', members'⟩ := exists_mapM_readAddress fun text member => reads text ((same text).mpr member)
  have sameSet : ExtTreeSet.ofList addresses = ExtTreeSet.ofList addresses' := by
    apply ExtTreeSet.ext_mem
    intro address
    simp only [ExtTreeSet.mem_ofList, List.contains_iff_mem, members, members', same]
  rw [entryAddresses, entryAddresses, empty, read, read']
  simp only [bind, Except.bind, sameSet]

end InspectCommand

/-- How entries are given does not matter to control flow: entry lists with the same addresses, in whatever order and
however often, give the same reached addresses, returns and labels, and the same edges up to their order. On the command
line it does not matter at all: the runs are the same, whatever the format. -/
theorem entry_order_immaterial :
    (∀ (image : Image) (entries entries' : List Nat), image.base + image.words.length < addressLimit →
      (∀ address, address ∈ entries ↔ address ∈ entries') →
      ∃ report report', image.follow entries = .ok report ∧ image.follow entries' = .ok report' ∧
        report.reached = report'.reached ∧ report.rets = report'.rets ∧ report.labels = report'.labels ∧
        report.edges.Perm report'.edges) ∧
      ∀ (options : InspectCommand.Options) (files : Files) (texts texts' : List Text)
        (format : InspectCommand.ReportFormat) (listing : Bool), (∀ text, text ∈ texts ↔ text ∈ texts') →
        (∀ text ∈ texts, ∃ address, Address.ofText text = .ok address) →
        InspectCommand.run { options with action := .follow texts format listing } files =
          InspectCommand.run { options with action := .follow texts' format listing } files := by
  constructor
  · intro image entries entries' bounded same
    obtain ⟨visited, followed, walked⟩ := Image.exists_follow_walked bounded entries
    obtain ⟨visited', followed', walked'⟩ := Image.exists_follow_walked bounded entries'
    have sameStarts : ∀ address, address ∈ entries.filter (fun entry => decide (image.Mapped entry)) ↔
        address ∈ entries'.filter (fun entry => decide (image.Mapped entry)) := by
      intro address
      rw [List.mem_filter, List.mem_filter, same]
    exact ⟨_, _, followed, followed', Report.reached_ofWalk_eq walked walked' sameStarts,
      Report.rets_ofWalk_eq walked walked' sameStarts, Report.labels_ofWalk_eq walked walked' sameStarts same,
      Report.edges_ofWalk_perm walked walked' sameStarts⟩
  · intro options files texts texts' format listing same reads
    have print : ∀ image, InspectCommand.Action.print image (.follow texts format listing) =
        InspectCommand.Action.print image (.follow texts' format listing) := by
      intro image
      simp only [InspectCommand.Action.print, InspectCommand.entryAddresses_eq image same reads]
    simp only [InspectCommand.run, InspectCommand.main, InspectCommand.readImage, print]

/-- Two branches, entered in one order and in the other, and the same image followed from the command line. -/
theorem entry_order_immaterial_two_branches :
    (∃ report report', Image.follow ⟨0, [0x1803#16, 0xF000#16, 0x1801#16, 0xF000#16]⟩ [0, 2] = .ok report ∧
      Image.follow ⟨0, [0x1803#16, 0xF000#16, 0x1801#16, 0xF000#16]⟩ [2, 0, 2] = .ok report' ∧
      report.labels = report'.labels ∧ report.edges.Perm report'.edges) ∧
      ∃ files : Files, files.read "a" = .ok [0x03, 0x18, 0x00, 0xF0, 0x01, 0x18, 0x00, 0xF0] ∧
        InspectCommand.run ⟨"a", 0, 0, none, .follow ["0", "0x2"] .json false, none⟩ files =
          InspectCommand.run ⟨"a", 0, 0, none, .follow ["0x2", "0", "0x2"] .json false, none⟩ files := by
  obtain ⟨inLists, inCommands⟩ := entry_order_immaterial
  have same : ∀ {α : Type} (a b c : α), c ∈ [a, b] ↔ c ∈ [b, a, b] := by
    intro α a b c
    simp only [List.mem_cons, List.not_mem_nil]
    tauto
  obtain ⟨report, report', followed, followed', _, _, labels, edges⟩ :=
    inLists ⟨0, [0x1803#16, 0xF000#16, 0x1801#16, 0xF000#16]⟩ [0, 2] [2, 0, 2] (by decide) (same 0 2)
  refine ⟨⟨report, report', followed, followed', labels, edges⟩,
    ⟨(∅ : ExtTreeMap (List Text) Node).insert ["a"] (.file [0x03, 0x18, 0x00, 0xF0, 0x01, 0x18, 0x00, 0xF0]), []⟩, rfl,
    ?_⟩
  exact inCommands ⟨"a", 0, 0, none, .follow [] .json false, none⟩ _ ["0", "0x2"] ["0x2", "0", "0x2"] .json false
    (same _ _) (List.forall_mem_cons.mpr ⟨⟨0, rfl⟩, List.forall_mem_singleton.mpr ⟨2, rfl⟩⟩)

end SimtAsm
