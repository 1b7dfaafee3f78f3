import SimtAsm.Text.Basic

namespace SimtAsm

namespace Source

/-- The part of a line before its first semicolon. -/
def withoutComment (line : Text) : Text := line.takeWhile (· != ';')

/-- The statements of a source in order: its lines without comments and surrounding blanks, empty ones left
out. A carriage return at the end of a line is a blank. -/
def statements (source : Text) : List Text :=
  (source.lines.map fun line => (withoutComment line).trim).filter fun line => !line.isEmpty

def isSeparator (c : Char) : Bool := Text.isBlank c || c == ','

/-- The runs of characters between blanks and commas. -/
def tokens (statement : Text) : List Text :=
  (statement.pieces isSeparator).filter fun token => !token.isEmpty

end Source

end SimtAsm
