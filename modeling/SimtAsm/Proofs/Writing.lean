import SimtAsm.Command.Files
import Std.Data.ExtTreeMap.Lemmas

namespace SimtAsm

open Std

namespace Files

section Places

variable {files after : Files} {directory steps target : List Text} {path : Text} {bytes : List UInt8}

/-- A path that ends in a name leads away from the root, and the name is not that of a directory. -/
theorem placeFrom_name (placed : files.placeFrom directory steps = .ok (.name target)) :
    target ≠ [] ∧ files.node? target ≠ some .directory := by
  fun_induction placeFrom files directory steps with
  | case2 directory step rest idle ih => exact ih placed
  | case3 directory rest idle ih => exact ih placed
  | case4 directory step rest idle up reached isDirectory ih => exact ih placed
  | case5 directory step idle up reached isFree =>
    obtain rfl : reached = target := Place.name.inj (Except.ok.inj placed)
    exact ⟨by simp [reached], isFree⟩
  | case1 | case6 | case7 | case8 => cases placed

/-- Where a path ends in a name depends on the directories alone. -/
theorem placeFrom_of_same_directories
    (same : ∀ path, after.node? path = some .directory ↔ files.node? path = some .directory)
    (placed : files.placeFrom directory steps = .ok (.name target)) :
    after.placeFrom directory steps = .ok (.name target) := by
  fun_induction placeFrom files directory steps with
  | case2 directory step rest idle ih =>
    rw [placeFrom, if_pos idle]
    exact ih placed
  | case3 directory rest idle ih =>
    rw [placeFrom, if_neg idle, if_pos rfl]
    exact ih placed
  | case4 directory step rest idle up reached isDirectory ih =>
    have isDirectory' : after.node? (directory ++ [step]) = some .directory := (same _).mpr isDirectory
    rw [placeFrom, if_neg idle, if_neg up]
    simp only [isDirectory', if_true]
    exact ih placed
  | case5 directory step idle up reached isFree =>
    have isFree' : ¬after.node? (directory ++ [step]) = some .directory := fun found => isFree ((same _).mp found)
    rw [placeFrom, if_neg idle, if_neg up]
    simp only [isFree', if_false, if_true]
    exact placed
  | case1 | case6 | case7 | case8 => cases placed

theorem place_name (placed : files.place path = .ok (.name target)) :
    target ≠ [] ∧ files.node? target ≠ some .directory := by
  unfold place at placed
  split at placed
  · cases placed
  · exact placeFrom_name placed
  · exact placeFrom_name placed

theorem place_of_same_directories (current : after.current = files.current)
    (same : ∀ path, after.node? path = some .directory ↔ files.node? path = some .directory)
    (placed : files.place path = .ok (.name target)) : after.place path = .ok (.name target) := by
  unfold place at placed ⊢
  rw [current]
  split at placed
  · cases placed
  · exact placeFrom_of_same_directories same placed
  · exact placeFrom_of_same_directories same placed

theorem node?_insert (below : target ≠ []) (node : Node) (other : List Text) :
    node? { files with nodes := files.nodes.insert target node } other =
      if other = target then some node else files.node? other := by
  unfold node?
  by_cases root : other = []
  · simp [root, Ne.symm below]
  · by_cases same : other = target
    · simp [same, below]
    · simp [root, same, ExtTreeMap.getElem?_insert, Ne.symm same]

theorem write_eq_ok_iff : files.write path bytes = .ok after ↔
    ∃ target, files.place path = .ok (.name target) ∧
      after = { files with nodes := files.nodes.insert target (.file bytes) } := by
  unfold write
  split <;> rename_i placed <;> simp [placed, eq_comm]

end Places

/-- What a write leaves behind: the bytes in the one file that the path leads to, before and after, and all other
files and directories as they were. -/
structure Wrote (files : Files) (path : Text) (bytes : List UInt8) (after : Files) : Prop where
  target : ∃ target, files.place path = .ok (.name target) ∧ after.node? target = some (.file bytes) ∧
    ∀ other ≠ target, after.node? other = files.node? other
  read : after.read path = .ok bytes

theorem wrote_of_write {files after : Files} {path : Text} {bytes : List UInt8}
    (written : files.write path bytes = .ok after) : files.Wrote path bytes after := by
  obtain ⟨target, placed, rfl⟩ := write_eq_ok_iff.mp written
  obtain ⟨below, isFree⟩ := place_name placed
  generalize written : ({ files with nodes := files.nodes.insert target (.file bytes) } : Files) = after
  have nodes (path : List Text) : after.node? path = if path = target then some (.file bytes) else files.node? path :=
    written ▸ node?_insert below (.file bytes) path
  have new : after.node? target = some (.file bytes) := by rw [nodes, if_pos rfl]
  -- A name that was no directory has become a file, so the directories are those of before.
  have same (path : List Text) : after.node? path = some .directory ↔ files.node? path = some .directory := by
    rw [nodes]
    split
    · rename_i here
      simp [here, isFree]
    · rfl
  have placedAgain : after.place path = .ok (.name target) :=
    place_of_same_directories (written ▸ rfl) same placed
  refine ⟨⟨target, placed, new, ?_⟩, ?_⟩
  · intro other differs
    rw [nodes, if_neg differs]
  · simp only [Files.read, placedAgain, new]

end Files

end SimtAsm
