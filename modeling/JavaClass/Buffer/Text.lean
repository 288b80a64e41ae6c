import JavaClass.Buffer.Word
import JavaClass.Text.ModifiedUtf8

/-!
# Text in byte buffers
-/

namespace JavaClass.Buffer

open ModifiedUtf8

/-- Appends the modified UTF-8 form of `text`, without a length. Plain bytes are copied up to the
first byte that is zero or above 0x7F, and the character that starts there is the first one that is
encoded. Room for as many bytes as plain UTF-8 takes is reserved first, and twice the rest before
the encoding starts. -/
def putText (b : ByteBuffer) (text : String) : ByteBuffer :=
  let plain := text.toByteArray.data
  let b := b.reserve plain.size
  match plain.findIdx? fun byte => !isPlainByte byte with
  | none => b.write plain.toList
  | some first =>
    let b := b.write (plain.extract 0 first).toList
    let rest := String.Pos.Raw.extract text ⟨first⟩ text.rawEndPos
    let b := b.reserve (2 * rest.utf8ByteSize)
    b.write ((Utf16.encode rest.toList).flatMap ofUnit)

/-- As `putText`, and answers how many bytes have been appended. -/
def putTextCounted (b : ByteBuffer) (text : String) : Nat × ByteBuffer :=
  let written := b.putText text
  (written.size - b.size, written)

end JavaClass.Buffer
