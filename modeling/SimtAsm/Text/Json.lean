import SimtAsm.Text.Numeral

namespace SimtAsm

open Numeral

inductive Json
  | number (n : Int)
  | string (text : Text)
  | array (items : List Json)
  | object (fields : List (Text × Json))

namespace Json

/-- Quotation marks, backslashes and control characters are escaped; all else stands for itself. -/
def escaped (c : Char) : Text :=
  match c with
  | '"' => "\\\""
  | '\\' => "\\\\"
  | '\x08' => "\\b"
  | '\x0C' => "\\f"
  | '\n' => "\\n"
  | '\r' => "\\r"
  | '\t' => "\\t"
  | c => if c.toNat < 0x20 then "\\u" ++ padded 16 4 c.toNat else [c]

def quoted (text : Text) : Text := '"' :: text.flatMap escaped ++ ['"']

/-- A new line, indented by `depth` levels. -/
def newline (depth : Nat) : Text := '\n' :: List.replicate (2 * depth) ' '

mutual

/-- The indented form of a value whose first line stands at `depth` levels. -/
def pretty (depth : Nat) : Json → Text
  | number n => signedDecimal n
  | string text => quoted text
  | array [] => "[]"
  | array (item :: rest) =>
    '[' :: newline (depth + 1) ++ pretty (depth + 1) item ++ prettyItems (depth + 1) rest ++
      newline depth ++ [']']
  | object [] => "\x7b\x7d"
  | object ((key, value) :: rest) =>
    '\x7b' :: newline (depth + 1) ++ quoted key ++ ": " ++ pretty (depth + 1) value ++
      prettyFields (depth + 1) rest ++ newline depth ++ ['\x7d']

/-- Items after the first one, each behind a comma and a new line. -/
def prettyItems (depth : Nat) : List Json → Text
  | [] => []
  | item :: rest => ',' :: newline depth ++ pretty depth item ++ prettyItems depth rest

/-- Fields after the first one, each behind a comma and a new line. -/
def prettyFields (depth : Nat) : List (Text × Json) → Text
  | [] => []
  | (key, value) :: rest =>
    ',' :: newline depth ++ quoted key ++ ": " ++ pretty depth value ++ prettyFields depth rest

end

/-- The indented form of a whole document; no newline ends it. -/
def document (value : Json) : Text := pretty 0 value

end Json

end SimtAsm
