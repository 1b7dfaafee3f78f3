namespace SimtAsm

/-- Everything that is read or printed is a list of Unicode characters. -/
abbrev Text := List Char

instance : Coe String Text := ⟨String.toList⟩

namespace Text

/-- The characters with the Unicode property White_Space. -/
def isBlank (c : Char) : Bool :=
  let code := c.toNat
  (0x09 ≤ code && code ≤ 0x0D) || code == 0x20 || code == 0x85 || code == 0xA0 || code == 0x1680 ||
    (0x2000 ≤ code && code ≤ 0x200A) || code == 0x2028 || code == 0x2029 || code == 0x202F ||
    code == 0x205F || code == 0x3000

def trimStart (text : Text) : Text := text.dropWhile isBlank

def trimEnd (text : Text) : Text := (text.reverse.dropWhile isBlank).reverse

/-- The text without the blanks at its two ends. -/
def trim (text : Text) : Text := trimEnd (trimStart text)

/-- Upper case of the ASCII letters; every other character stays. -/
def upper (text : Text) : Text := text.map Char.toUpper

/-- Two texts with the same letters, ASCII case set aside. -/
def sameLetters (a b : Text) : Bool := upper a == upper b

/-- Puts a character in front of the first piece. -/
def consFirst (c : Char) : List Text → List Text
  | [] => [[c]]
  | piece :: rest => (c :: piece) :: rest

/-- The pieces between separators, empty ones included: one more than there are separators. -/
def pieces (isSeparator : Char → Bool) : Text → List Text
  | [] => [[]]
  | c :: rest =>
    if isSeparator c then [] :: pieces isSeparator rest else consFirst c (pieces isSeparator rest)

/-- The lines of a text, without their newlines. A final newline leaves one empty line behind it. -/
def lines (text : Text) : List Text := pieces (· == '\n') text

/-- The lines in order, each ended by a newline. -/
def ofLines (lines : List Text) : Text := lines.flatMap fun line => line ++ ['\n']

/-- Joins the parts with `separator` between neighbours. -/
def join (separator : Text) (parts : List Text) : Text := (parts.intersperse separator).flatten

end Text

end SimtAsm
