/-!
# Text as bytes

Sources are read and outputs are written as UTF-8. These functions go between texts and their
bytes; `decode?` refuses what no text encodes to.
-/

namespace StackScript.Text

/-- The UTF-8 bytes of a text. -/
def encode (text : String) : List UInt8 :=
  text.toUTF8.data.toList

/-- The text whose UTF-8 bytes are given, if there is one. -/
def decode? (bytes : List UInt8) : Option String :=
  String.fromUTF8? ⟨bytes.toArray⟩

/-- The character whose encoding stands at the front; no encoding is longer than four bytes. -/
def firstChar? (bytes : List UInt8) : Option Char :=
  ByteArray.utf8DecodeChar? ⟨(bytes.take 4).toArray⟩ 0

end StackScript.Text
