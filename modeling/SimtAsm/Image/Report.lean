import SimtAsm.Image.Flow
import SimtAsm.Text.Json

namespace SimtAsm

open Numeral

def EdgeKind.tag : EdgeKind → Text
  | fallthrough => "fallthrough"
  | condBranch => "condbranch"

def EdgeKind.title : EdgeKind → Text
  | fallthrough => "Fallthrough"
  | condBranch => "CondBranch"

namespace Edge

def toJson (edge : Edge) : Json :=
  .object [("from", .number edge.source), ("to", .number edge.target), ("kind", .string edge.kind.tag)]

def line (edge : Edge) : Text :=
  "  " ++ Address.text edge.source ++ " -> " ++ Address.text edge.target ++ " (" ++ edge.kind.title ++ ")"

end Edge

namespace Report

def toJson (report : Report) : Json :=
  let addresses (list : List Nat) : Json := .array (list.map fun (address : Nat) => .number address)
  .object
    [("entries", addresses report.entries),
      ("reached", addresses report.reached.toList),
      ("edges", .array (report.edges.map Edge.toJson)),
      ("rets", addresses report.rets.toList),
      ("labels", .object (report.labels.toList.map fun (address, name) => (decimal address, .string name)))]

def headLines (report : Report) : List Text :=
  ["Analysis summary:",
    "  entries : [" ++ Text.join ", " (report.entries.map decimal) ++ "]",
    "  insts   : " ++ decimal report.reached.size,
    "  edges   : " ++ decimal report.edges.length,
    "  rets    : " ++ decimal report.rets.size,
    "Edges:"]

def labelLine (name : Text) : Text := name ++ ":"

def indented (line : Text) : Text := "  " ++ line

/-- A reached address: the line of its label, if it has one, and the line of its instruction. -/
def addressLines (report : Report) (image : Image) (address : Nat) : List Text :=
  (report.labels[address]?.map labelLine).toList ++
    ((image.line? false (report.labels[·]?) address).map indented).toList

def listingLines (report : Report) (image : Image) : List Text :=
  let head : List Text := ["", "Listing (reached words):"]
  head ++ report.reached.toList.flatMap (report.addressLines image)

def summary (report : Report) (image : Image) (listing : Bool) : Text :=
  let listed := if listing then report.listingLines image else []
  Text.ofLines (report.headLines ++ report.edges.map Edge.line ++ listed)

end Report

end SimtAsm
