import JavaClass.Buffer
import JavaClass.Packing

/-!
# Words in byte buffers

The fixed sequences of big-endian words that a class file is made of, each appended after one
reservation, and words patched or read at absolute offsets.
-/

namespace JavaClass.Buffer

/-- Appends `n` zero bytes, to be patched later. Their offset is the old size. -/
def skip (b : ByteBuffer) (n : Nat) : ByteBuffer :=
  (b.reserve n).write (List.replicate n 0)

/-- Appends a sequence of bytes known beforehand, after reserving room for all of it. -/
def put (b : ByteBuffer) (values : List UInt8) : ByteBuffer :=
  (b.reserve values.length).write values

def put8 (b : ByteBuffer) (v : UInt8) : ByteBuffer := b.push v
def put16 (b : ByteBuffer) (v : UInt16) : ByteBuffer := b.put (bytes16 v)
def put32 (b : ByteBuffer) (v : UInt32) : ByteBuffer := b.put (bytes32 v)
def put64 (b : ByteBuffer) (v : UInt64) : ByteBuffer := b.put (bytes64 v)

/-- Access flags, name and descriptor of a member, or any other three 16-bit words. -/
def putMemberHeader (b : ByteBuffer) (flags name descriptor : UInt16) : ByteBuffer :=
  b.put (bytes16 flags ++ bytes16 name ++ bytes16 descriptor)

/-- Name and length of an attribute. -/
def putAttributeHeader (b : ByteBuffer) (name : UInt16) (length : UInt32) : ByteBuffer :=
  b.put (bytes16 name ++ bytes32 length)

/-- Name, length and content of an attribute that holds one 16-bit word. -/
def putWordAttribute (b : ByteBuffer) (name : UInt16) (length : UInt32) (value : UInt16) :
    ByteBuffer :=
  b.put (bytes16 name ++ bytes32 length ++ bytes16 value)

/-- Tag and index of a constant that refers to one other. -/
def putReference (b : ByteBuffer) (tag : UInt8) (index : UInt16) : ByteBuffer :=
  b.put (tag :: bytes16 index)

/-- Tag, kind and index of a method handle. -/
def putHandle (b : ByteBuffer) (tag kind : UInt8) (index : UInt16) : ByteBuffer :=
  b.put (tag :: kind :: bytes16 index)

/-- Replaces the bytes from `offset` on. -/
def overwrite (b : ByteBuffer) (offset : Nat) (values : List UInt8) : ByteBuffer :=
  { b with data := Bytes.overwrite b.data offset values }

/-- As `overwrite`, but all of `values` must lie inside. -/
def patch (b : ByteBuffer) (offset : Nat) (values : List UInt8) : Except Error ByteBuffer :=
  if offset + values.length ≤ b.size then .ok (b.overwrite offset values) else .error .outOfRange

def set16 (b : ByteBuffer) (offset : Nat) (v : UInt16) : Except Error ByteBuffer :=
  b.patch offset (bytes16 v)

def set32 (b : ByteBuffer) (offset : Nat) (v : UInt32) : Except Error ByteBuffer :=
  b.patch offset (bytes32 v)

def set64 (b : ByteBuffer) (offset : Nat) (v : UInt64) : Except Error ByteBuffer :=
  b.patch offset (bytes64 v)

def get16 (b : ByteBuffer) (offset : Nat) : Except Error UInt16 := Bytes.get16 b.data offset
def get32 (b : ByteBuffer) (offset : Nat) : Except Error UInt32 := Bytes.get32 b.data offset
def get64 (b : ByteBuffer) (offset : Nat) : Except Error UInt64 := Bytes.get64 b.data offset

def holds16 (b : ByteBuffer) (offset : Nat) (v : UInt16) : Except Error Bool :=
  Bytes.holds16 b.data offset v

def holds32 (b : ByteBuffer) (offset : Nat) (v : UInt32) : Except Error Bool :=
  Bytes.holds32 b.data offset v

def holds64 (b : ByteBuffer) (offset : Nat) (v : UInt64) : Except Error Bool :=
  Bytes.holds64 b.data offset v

end JavaClass.Buffer
