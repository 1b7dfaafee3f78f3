import SimtAsm.Text.Numeral
import Std.Data.ExtTreeMap

namespace SimtAsm

open Std

/-- The label, trimmed as it was written, that is defined a second time. -/
structure DuplicateLabel where
  label : Text
  deriving DecidableEq, Repr

def DuplicateLabel.message (error : DuplicateLabel) : Text := "duplicate label definition: " ++ error.label

/-- Label names, trimmed and in upper case, with the addresses they stand for. -/
structure SymbolTable where
  addresses : ExtTreeMap Text Nat := ∅

namespace SymbolTable

/-- The form under which a label is kept, so that case and surrounding blanks do not tell names apart. -/
def key (label : Text) : Text := label.trim.upper

def empty : SymbolTable := {}

def get? (table : SymbolTable) (label : Text) : Option Nat := table.addresses[key label]?

/-- Binds a new label; the first definition of a name is the only one. The table comes back either way. -/
def define (table : SymbolTable) (label : Text) (address : Nat) : Except DuplicateLabel Unit × SymbolTable :=
  if key label ∈ table.addresses then (.error ⟨label.trim⟩, table)
  else (.ok (), ⟨table.addresses.insert (key label) address⟩)

theorem define_eq_ok_iff {table next : SymbolTable} {label : Text} {address : Nat} :
    table.define label address = (.ok (), next) ↔
      table.get? label = none ∧ next = ⟨table.addresses.insert (key label) address⟩ := by
  unfold define get?
  split <;> rename_i taken
  · simp [taken]
  · simp [taken, eq_comm]

/-- A refused definition leaves the table as it is. -/
theorem define_eq_error_iff {table next : SymbolTable} {label : Text} {address : Nat} {error : DuplicateLabel} :
    table.define label address = (.error error, next) ↔
      key label ∈ table.addresses ∧ error = ⟨label.trim⟩ ∧ next = table := by
  unfold define
  split <;> rename_i taken
  · simp [taken, eq_comm]
  · simp [taken]

/-- A definition changes the address of its own name and of no other. -/
theorem get?_of_define {table next : SymbolTable} {label : Text} {address : Nat}
    (defined : table.define label address = (.ok (), next)) (other : Text) :
    next.get? other = if key other = key label then some address else table.get? other := by
  obtain ⟨_, rfl⟩ := define_eq_ok_iff.mp defined
  simp only [get?, ExtTreeMap.getElem?_insert, LawfulEqCmp.compare_eq_iff_eq]
  simp [eq_comm]

def size (table : SymbolTable) : Nat := table.addresses.size

def isEmpty (table : SymbolTable) : Bool := table.addresses.isEmpty

/-- Names with their addresses, in the order of the names. -/
def toList (table : SymbolTable) : List (Text × Nat) := table.addresses.toList

/-- The table on one line, as the trace shows it. -/
def summary (table : SymbolTable) : Text :=
  let bindings := table.toList.map fun (name, address) => '"' :: name ++ "\": " ++ Numeral.decimal address
  '\x7b' :: Text.join ", " bindings ++ ['\x7d']

end SymbolTable

end SimtAsm
