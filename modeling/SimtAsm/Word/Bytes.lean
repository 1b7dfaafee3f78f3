import SimtAsm.Text.Numeral
import SimtAsm.Word.Field

namespace SimtAsm

namespace Word

def binary (word : Word) : Text := Numeral.padded 2 16 word.toNat

def hex (word : Word) : Text := Numeral.padded 16 4 word.toNat

def lowByte (word : Word) : UInt8 := UInt8.ofNat word.toNat

def highByte (word : Word) : UInt8 := UInt8.ofNat (word.toNat / 256)

def ofBytes (low high : UInt8) : Word := BitVec.ofNat 16 (low.toNat + 256 * high.toNat)

/-- The words one after the other, each with its low byte first. -/
def toBytes (words : List Word) : List UInt8 := words.flatMap fun word => [word.lowByte, word.highByte]

/-- Reads pairs of bytes; a byte without a partner at the end is left out. -/
def listOfBytes : List UInt8 → List Word
  | low :: high :: rest => ofBytes low high :: listOfBytes rest
  | _ => []

theorem ofBytes_lowByte_highByte (word : Word) : ofBytes word.lowByte word.highByte = word := by
  apply BitVec.eq_of_toNat_eq
  have bound := word.isLt
  simp only [ofBytes, lowByte, highByte, BitVec.toNat_ofNat, UInt8.toNat_ofNat']
  omega

theorem listOfBytes_toBytes (words : List Word) : listOfBytes (toBytes words) = words := by
  induction words with
  | nil => rfl
  | cons word rest ih =>
    simp only [toBytes, List.flatMap_cons, List.cons_append, List.nil_append, listOfBytes,
      ofBytes_lowByte_highByte] at ih ⊢
    rw [ih]

end Word

end SimtAsm
