import JavaClass.Constant.Payload
import JavaClass.Text.ModifiedUtf8

/-!
# Constant tables

Encoded constants together with where each of them starts: what a pool under construction and a
parsed class file have in common. The typed reads trust the index. Given one whose entry has
another tag they read whatever bytes stand there; given one without an entry they are out of range.
-/

namespace JavaClass

structure ConstantTable where
  /-- bytes that hold the entries, and maybe more around them -/
  bytes : Bytes
  /-- offset of the tag byte of each index; `none` where the index has no entry -/
  starts : Array (Option Nat)

namespace ConstantTable

/-- One more than the number of slots in use, because index 0 is reserved. -/
def count (t : ConstantTable) : Nat := t.starts.size

/-- Where the entry of an index starts. -/
def start? (t : ConstantTable) (index : UInt16) : Option Nat := t.starts[index.toNat]?.join

/-- The tag of the entry; `none` for index 0, the second slot of a wide constant, and indexes
beyond the count. -/
def tag? (t : ConstantTable) (index : UInt16) : Option Tag :=
  (t.start? index).bind fun start => t.bytes[start]?.bind Tag.ofByte?

/-- Where the payload of an entry starts. -/
def payloadOffset (t : ConstantTable) (index : UInt16) : Except Error Nat :=
  match t.start? index with
  | some start => .ok (start + 1)
  | none => .error .outOfRange

/-! ## Typed reads -/

/-- The encoded text at an offset: a 16-bit length, then that many bytes. -/
def textAt (t : ConstantTable) (offset : Nat) : Except Error Bytes := do
  let length ← t.bytes.get16 offset
  t.bytes.slice (offset + 2) (offset + 2 + length.toNat)

/-- The encoded text of a text constant. -/
def textBytes (t : ConstantTable) (index : UInt16) : Except Error Bytes := do
  t.textAt (← t.payloadOffset index)

/-- The text of a text constant, read without checking its encoding. -/
def text (t : ConstantTable) (index : UInt16) : Except Error String :=
  ModifiedUtf8.decode <$> t.textBytes index

/-- The bits of an integer or float constant. -/
def word (t : ConstantTable) (index : UInt16) : Except Error UInt32 := do
  t.bytes.get32 (← t.payloadOffset index)

/-- The bits of a long or double constant. -/
def wide (t : ConstantTable) (index : UInt16) : Except Error UInt64 := do
  t.bytes.get64 (← t.payloadOffset index)

def int (t : ConstantTable) (index : UInt16) : Except Error Int32 :=
  UInt32.toInt32 <$> t.word index

def long (t : ConstantTable) (index : UInt16) : Except Error Int64 :=
  UInt64.toInt64 <$> t.wide index

/-- The index in a constant that refers to one other. -/
def reference (t : ConstantTable) (index : UInt16) : Except Error UInt16 := do
  t.bytes.get16 (← t.payloadOffset index)

/-- The indexes in a constant that refers to two others. -/
def references (t : ConstantTable) (index : UInt16) : Except Error (UInt16 × UInt16) := do
  let offset ← t.payloadOffset index
  let first ← t.bytes.get16 offset
  let second ← t.bytes.get16 (offset + 2)
  return (first, second)

/-- The reference kind and the index of a method handle. -/
def handle (t : ConstantTable) (index : UInt16) : Except Error (UInt8 × UInt16) := do
  let offset ← t.payloadOffset index
  let kind ← t.bytes.byteAt offset
  let target ← t.bytes.get16 (offset + 1)
  return (kind, target)

/-! ## Checked reads -/

/-- Fails unless the entry has the tag. -/
def expect (t : ConstantTable) (index : UInt16) (tag : Tag) : Except Error Unit :=
  if t.tag? index = some tag then .ok () else .error (.unexpectedEntry tag (t.tag? index))

/-- The text of an entry that must be a text constant. -/
def expectText (t : ConstantTable) (index : UInt16) : Except Error String := do
  t.expect index .utf8
  t.text index

/-- As `expectText`, and the encoding must be well-formed. -/
def checkedText (t : ConstantTable) (index : UInt16) : Except Error String := do
  t.expect index .utf8
  ModifiedUtf8.decode? (← t.textBytes index)

/-- The name that a class constant refers to. -/
def className (t : ConstantTable) (index : UInt16) : Except Error String := do
  t.expect index .classInfo
  t.expectText (← t.reference index)

/-! ## Searching -/

/-- The first index from `first` on whose entry has the tag. -/
def findTag? (t : ConstantTable) (tag : Tag) (first : UInt16) : Option UInt16 :=
  ((List.range' first.toNat (t.count - first.toNat)).map UInt16.ofNat).find? fun index =>
    t.tag? index = some tag

/-- Whether the entry of an index has the tag and passes the test on where its payload starts. -/
def isMatch (t : ConstantTable) (tag : Tag) (test : Nat → Except Error Bool) (index : Nat) :
    Except Error Bool :=
  match t.start? (UInt16.ofNat index) with
  | none => .ok false
  | some start =>
    if t.bytes[start]? = some tag.byte then test (start + 1) else .ok false

/-- The smallest of the `n` indexes from `index` on whose entry has the tag and passes the test. -/
def firstMatch (t : ConstantTable) (tag : Tag) (test : Nat → Except Error Bool) (index : Nat) :
    Nat → Except Error (Option UInt16)
  | 0 => .ok none
  | n + 1 => do
    if ← t.isMatch tag test index then return some (UInt16.ofNat index)
    else firstMatch t tag test (index + 1) n

/-- The greatest index below `n` whose entry has the tag and passes the test. -/
def lastMatch (t : ConstantTable) (tag : Tag) (test : Nat → Except Error Bool) :
    Nat → Except Error (Option UInt16)
  | 0 => .ok none
  | n + 1 => do
    if ← t.isMatch tag test n then return some (UInt16.ofNat n) else lastMatch t tag test n

end ConstantTable
end JavaClass
