import SimtAsm.Image.Basic
import Std.Data.ExtTreeMap
import Std.Data.ExtTreeSet

namespace SimtAsm

open Std

inductive EdgeKind
  | fallthrough
  | condBranch
  deriving DecidableEq, Repr

structure Edge where
  source : Nat
  target : Nat
  kind : EdgeKind
  deriving DecidableEq, Repr

/-- What the control flow from `entries` reaches. Edges stand in the order of their discovery. -/
structure Report where
  entries : List Nat
  reached : ExtTreeSet Nat
  edges : List Edge
  rets : ExtTreeSet Nat
  labels : ExtTreeMap Nat Text

namespace Report

def targetName (address : Nat) : Text := "L_" ++ Numeral.decimal address

def entryName (address : Nat) : Text := "entry_" ++ Numeral.decimal address

def ofEntries (entries : List Nat) : Report := ⟨entries, ∅, [], ∅, ∅⟩

def reach (report : Report) (address : Nat) : Report := { report with reached := report.reached.insert address }

def addReturn (report : Report) (address : Nat) : Report := { report with rets := report.rets.insert address }

def addEdge (report : Report) (edge : Edge) : Report := { report with edges := report.edges ++ [edge] }

/-- Names an address that has no name yet. -/
def addLabel (report : Report) (address : Nat) (name : Text) : Report :=
  { report with labels := report.labels.insertIfNew address name }

/-- Names the entries that have no name yet. -/
def nameEntries (report : Report) : Report :=
  { report with
    labels := report.entries.foldl (fun labels entry => labels.insertIfNew entry (entryName entry)) report.labels }

end Report

namespace Image

/-- The addresses of the list that the image has words for. -/
def keepMapped (image : Image) : List Nat → Checked (List Nat)
  | [] => .ok []
  | address :: rest => do
    let mapped ← image.isMapped address
    let others ← image.keepMapped rest
    return if mapped then address :: others else others

/-- Falls through to the next address if the image has a word there. -/
def fallThrough (image : Image) (report : Report) (address next : Nat) : Checked (Report × List Nat) := do
  let mapped ← image.isMapped next
  return if mapped then (report.addEdge ⟨address, next, .fallthrough⟩, [next]) else (report, [])

/-- What the instruction at an address adds to a report, and the addresses that are followed from it. A return ends its
path. A branch without a condition never fires, so it only falls through. A target outside the image is reported but
not followed. -/
def step (image : Image) (report : Report) (address : Nat) (d : Decoded) : Checked (Report × List Nat) := do
  let next ← addAddress address 1
  if d.op = .ret then return (report.addReturn address, [])
  else if d.op = .br ∧ d.cond ≠ Cond.never then
    let report := (report.addEdge ⟨address, d.target, .condBranch⟩).addLabel d.target (Report.targetName d.target)
    let taken ← image.keepMapped [d.target]
    let (report, onward) ← image.fallThrough report address next
    return (report, taken ++ onward)
  else image.fallThrough report address next

/-- A visit to an address that was not reached before. A word that does not decode ends its path. -/
def visit (image : Image) (report : Report) (address : Nat) : Checked (Report × List Nat) :=
  match image.word? address with
  | none => .ok (report.reach address, [])
  | some word =>
    match decode word with
    | .error _ => .ok (report.reach address, [])
    | .ok d => image.step (report.reach address) address d

/-- How many words of the image are still to be reached. -/
def unreached (image : Image) (reached : ExtTreeSet Nat) : Nat :=
  (List.range image.words.length).countP fun offset => decide (image.base + offset ∉ reached)

theorem offset_lt_of_word? {image : Image} {address : Nat} {word : Word}
    (found : image.word? address = some word) :
    image.base ≤ address ∧ address - image.base < image.words.length := by
  unfold word? at found
  split at found
  · simp at found
  · obtain ⟨bound, _⟩ := List.getElem?_eq_some_iff.mp found
    exact ⟨by omega, bound⟩

theorem unreached_insert_le (image : Image) (reached : ExtTreeSet Nat) (address : Nat) :
    image.unreached (reached.insert address) ≤ image.unreached reached := by
  apply List.countP_mono_left
  intro offset _ fresh
  simp only [decide_eq_true_eq, ExtTreeSet.mem_insert, not_or] at fresh ⊢
  exact fresh.2

theorem countP_lt_of_flip {α : Type} {p q : α → Bool} {a : α} (imp : ∀ x, p x → q x) (after : q a)
    (before : p a = false) : ∀ {l : List α}, a ∈ l → l.countP p < l.countP q
  | b :: rest, member => by
    have le := List.countP_mono_left (l := rest) fun x _ => imp x
    simp only [List.countP_cons]
    rcases List.mem_cons.mp member with rfl | later
    · simp only [after, before, Bool.false_eq_true, if_false, if_true]
      omega
    · have lt := countP_lt_of_flip imp after before later
      cases head : p b with
      | true =>
        simp only [imp b head, if_true]
        omega
      | false =>
        simp only [Bool.false_eq_true, if_false]
        omega

theorem unreached_insert_lt {image : Image} {reached : ExtTreeSet Nat} {address : Nat} {word : Word}
    (found : image.word? address = some word) (fresh : address ∉ reached) :
    image.unreached (reached.insert address) < image.unreached reached := by
  obtain ⟨above, below⟩ := offset_lt_of_word? found
  have atAddress : image.base + (address - image.base) = address := by omega
  refine countP_lt_of_flip (a := address - image.base) ?_ ?_ ?_ (List.mem_range.mpr below)
  · intro offset
    simp only [decide_eq_true_eq, ExtTreeSet.mem_insert, not_or]
    exact And.right
  · simpa only [atAddress, decide_eq_true_eq] using fresh
  · simp [atAddress]

section Reached

variable {image : Image} {report found : Report} {address next : Nat} {d : Decoded} {targets : List Nat}

theorem reached_of_fallThrough (fell : image.fallThrough report address next = .ok (found, targets)) :
    found.reached = report.reached := by
  obtain ⟨mapped, _, same⟩ := bind_eq_ok.mp fell
  cases mapped <;> cases same <;> rfl

theorem reached_of_step (stepped : image.step report address d = .ok (found, targets)) :
    found.reached = report.reached := by
  obtain ⟨next, _, stepped⟩ := bind_eq_ok.mp stepped
  split at stepped
  · cases stepped
    rfl
  · split at stepped
    · obtain ⟨taken, _, stepped⟩ := bind_eq_ok.mp stepped
      obtain ⟨⟨after, onward⟩, fell, same⟩ := bind_eq_ok.mp stepped
      cases same
      have kept := reached_of_fallThrough fell
      exact kept
    · exact reached_of_fallThrough stepped

theorem reached_of_visit (visited : image.visit report address = .ok (found, targets)) :
    found.reached = report.reached.insert address := by
  unfold visit at visited
  split at visited
  · cases visited
    rfl
  · split at visited
    · cases visited
      rfl
    · exact reached_of_step visited

/-- A visit reaches one more word of the image, or leads nowhere. -/
theorem unreached_of_visit (fresh : address ∉ report.reached)
    (visited : image.visit report address = .ok (found, targets)) :
    image.unreached found.reached < image.unreached report.reached ∨
      image.unreached found.reached = image.unreached report.reached ∧ targets = [] := by
  rw [reached_of_visit visited]
  cases word : image.word? address with
  | some word' => exact Or.inl (unreached_insert_lt word fresh)
  | none =>
    have nowhere : targets = [] := by
      simp only [visit, word, Except.ok.injEq, Prod.mk.injEq] at visited
      exact visited.2.symm
    rcases Nat.lt_or_eq_of_le (image.unreached_insert_le report.reached address) with less | same
    · exact Or.inl less
    · exact Or.inr ⟨same, nowhere⟩

end Reached

/-- Visits the addresses of a queue that are not reached yet, and behind them those that are followed from them. Each
visit reaches one more word of the image, or the queue gets shorter. -/
def walk (image : Image) (report : Report) : List Nat → Checked Report
  | [] => .ok report
  | address :: queue =>
    if _ : address ∈ report.reached then image.walk report queue
    else match _ : image.visit report address with
      | .error overflow => .error overflow
      | .ok (found, targets) => image.walk found (queue ++ targets)
termination_by queue => (image.unreached report.reached, queue.length)
decreasing_by
  · exact Prod.Lex.right _ (by simp)
  · rcases unreached_of_visit ‹_› ‹_› with less | ⟨same, nowhere⟩
    · exact Prod.Lex.left _ _ less
    · rw [same, nowhere]
      exact Prod.Lex.right _ (by simp)

/-- Follows control flow breadth first from the entries that the image has words for. -/
def follow (image : Image) (entries : List Nat) : Checked Report := do
  let starts ← image.keepMapped entries
  let report ← image.walk (.ofEntries entries) starts
  return report.nameEntries

end Image

end SimtAsm
