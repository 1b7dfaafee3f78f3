import SimtAsm.Assembly.SymbolTable
import SimtAsm.Checked

namespace SimtAsm

/-- Instructions in address order, and the addresses of the labels between them. -/
structure Placement where
  symbols : SymbolTable
  instructions : List Text

/-- The name that a label line declares: what stands before its final colon. -/
def labelName? (line : Text) : Option Text :=
  if line.getLast? = some ':' then some line.dropLast else none

namespace Placement

/-- Places `lines` from `address` on, below the labels already in `symbols`. An instruction takes the next address, and a
label stands for the address of the instruction that comes next. Operands are not looked at. -/
def ofLinesFrom (address : Nat) (symbols : SymbolTable) : List Text → Except DuplicateLabel Placement
  | [] => .ok ⟨symbols, []⟩
  | line :: rest =>
    match labelName? line with
    | some name =>
      match symbols.define name address with
      | (.ok (), symbols) => ofLinesFrom address symbols rest
      | (.error error, _) => .error error
    | none =>
      match ofLinesFrom (address + 1) symbols rest with
      | .ok placed => .ok { placed with instructions := line :: placed.instructions }
      | .error error => .error error

def ofLines (lines : List Text) : Except DuplicateLabel Placement := ofLinesFrom 0 SymbolTable.empty lines

def count (placement : Placement) : Nat := placement.instructions.length

/-- Whether every instruction and every label lies below `limit`. A label behind the last of exactly `limit`
instructions does not. -/
def liesBelow (placement : Placement) (limit : Nat) : Bool :=
  decide (placement.count ≤ limit) && placement.symbols.toList.all fun entry => decide (entry.2 < limit)

/-- Whether addresses of `bits` bits reach the whole placement. The limit is itself a 64-bit address. -/
def fits? (placement : Placement) (bits : Nat) : Checked Bool :=
  if bits < 64 then .ok (placement.liesBelow (1 <<< bits)) else .error .shiftLeft

end Placement

end SimtAsm
