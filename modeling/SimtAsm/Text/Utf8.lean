import SimtAsm.Text.Basic

namespace SimtAsm

namespace Text

def toUtf8 (text : Text) : List UInt8 := (String.ofList text).toUTF8.data.toList

/-- The text of the bytes, unless they are no UTF-8. -/
def ofUtf8? (bytes : List UInt8) : Option Text := (String.fromUTF8? ⟨bytes.toArray⟩).map String.toList

end Text

end SimtAsm
