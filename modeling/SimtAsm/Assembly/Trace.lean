import SimtAsm.Assembly.Program

namespace SimtAsm

inductive Level
  | debug
  | warning
  deriving DecidableEq, Repr

inductive Event
  /-- The number of statements found. -/
  | sourceRead (statements : Nat)
  | labelsPlaced (instructions labels : Nat) (symbols : Text)
  /-- Some address does not fit a branch. -/
  | beyondReach (instructions : Nat)
  | encodeFailed (diagnostic : Diagnostic)
  | wordsEncoded (entries errors : Nat)
  deriving DecidableEq, Repr

namespace Event

def level : Event → Level
  | sourceRead .. | labelsPlaced .. | wordsEncoded .. => .debug
  | beyondReach .. | encodeFailed .. => .warning

def message : Event → Text
  | sourceRead .. => "preprocessed source"
  | labelsPlaced .. => "pass 1 complete"
  | beyondReach .. => "program exceeds the 8-bit branch address space; far targets will wrap"
  | encodeFailed .. => "failed to encode instruction"
  | wordsEncoded .. => "pass 2 complete"

end Event

/-- Whether branches can name every address of the placement in full. -/
def Placement.withinReach (placement : Placement) : Bool := placement.liesBelow (1 <<< Field.target.bits)

def Placement.trace (placement : Placement) : List Event :=
  let program := Program.ofPlacement placement
  [.labelsPlaced placement.count placement.symbols.size placement.symbols.summary] ++
    (if placement.withinReach then [] else [.beyondReach placement.count]) ++
    program.diagnostics.map .encodeFailed ++
    [.wordsEncoded program.entries.length program.diagnostics.length]

/-- The events of assembling a source. Nothing follows the first one if a label is defined twice. -/
def trace (source : Text) : List Event :=
  let statements := Source.statements source
  .sourceRead statements.length ::
    match Placement.ofLines statements with
    | .ok placement => placement.trace
    | .error _ => []

end SimtAsm
