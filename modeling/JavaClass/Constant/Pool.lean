import JavaClass.AttributeName
import JavaClass.Buffer.Text
import JavaClass.Constant.Table
import Std.Data.HashMap

/-!
# Constant pools under construction

Constants are interned: asking for one gives the index of the entry that has it, or appends an
entry. Text is written first, looked up by its encoded bytes in a hash map, and dropped again if it
is there; every other constant is looked for by a scan from the newest entry back. A call that fails
leaves the constants as they were; a call made of several keeps what its earlier parts have interned.
-/

namespace JavaClass

structure ConstantPool where
  /-- the encoded entries, in index order -/
  entries : ByteBuffer
  /-- where each entry starts; `none` where the index has no entry -/
  starts : Array (Option Nat)
  /-- the index of each encoded text -/
  texts : Std.HashMap Bytes UInt16
  /-- the indexes of the attribute names asked for so far -/
  names : NameCache

namespace ConstantPool

/-- A pool without constants, whose buffer starts at the given capacity. -/
def withPolicy (capacity : Nat) (growth : Growth) : ConstantPool where
  entries := Buffer.withPolicy capacity growth
  starts := #[none]
  texts := ∅
  names := ∅

def empty : ConstantPool := withPolicy 200 Growth.pool

instance : Inhabited ConstantPool := ⟨empty⟩

/-- The pool as a table to read from. -/
def table (p : ConstantPool) : ConstantTable := ⟨p.entries.data, p.starts⟩

/-- The greatest index whose entry has the tag and the payload. -/
def newest? (p : ConstantPool) (tag : Tag) (payload : Payload) : Except Error (Option UInt16) :=
  p.table.lastMatch tag (payload.isAt p.entries.data) p.starts.size

/-- One more than the number of slots in use. -/
def count (p : ConstantPool) : Nat := p.starts.size

/-- The count as the class file stores it. -/
def encodedCount (p : ConstantPool) : Except Error UInt16 :=
  if p.count < 65536 then .ok (UInt16.ofNat p.count) else .error (.poolOverflow p.count)

/-- The index that the next entry gets, unless the pool is full. -/
def nextIndex (p : ConstantPool) : Except Error UInt16 :=
  if p.count < 65536 then .ok (UInt16.ofNat p.count) else .error (.poolOverflow (p.count + 1))

/-- Takes the slots of an entry that starts at `start`. -/
def register (p : ConstantPool) (start slots : Nat) : ConstantPool :=
  { p with starts := (p.starts.push (some start)).appendList (List.replicate (slots - 1) none) }

/-- Fills in the length of the text whose entry starts at `start`. -/
def setTextLength (p : ConstantPool) (start length : Nat) : ConstantPool :=
  { p with entries := p.entries.overwrite (start + 1) (bytes16 (UInt16.ofNat length)) }

/-- Notes the index of an encoded text. -/
def remember (p : ConstantPool) (text : Bytes) (index : UInt16) : ConstantPool :=
  { p with texts := p.texts.insert text index }

/-- Drops the bytes from `start` on. -/
def dropFrom (p : ConstantPool) (start : Nat) : ConstantPool :=
  { p with entries := p.entries.truncate start }

end ConstantPool

/-- A call on a pool under construction. -/
abbrev PoolM (α : Type) := EStateM Error ConstantPool α

namespace PoolM

open ConstantPool

/-- Interns the text that has just been written at `start`, its length still zero, or drops it
again. -/
def internTextAt (start : Nat) : PoolM UInt16 := fun p =>
  let text := p.entries.data.extract (start + 3) p.entries.size
  if text.size > 65535 then
    .error (.textTooLong (ModifiedUtf8.excerpt (ModifiedUtf8.decode text)) text.size)
      (p.dropFrom start)
  else
    match p.texts[text]? with
    | some index => .ok index (p.dropFrom start)
    | none =>
      match p.nextIndex with
      | .error e => .error e (p.dropFrom start)
      | .ok index => .ok index ((p.setTextLength start text.size).register start 1 |>.remember text index)

/-- Writes a text with the given step and interns it. -/
def writtenText (write : ByteBuffer → ByteBuffer) : PoolM UInt16 :=
  fun ⟨entries, starts, texts, names⟩ =>
    let start := entries.size
    internTextAt start ⟨write (entries.putReference Tag.utf8.byte 0), starts, texts, names⟩

/-- Interns a text given in modified UTF-8. -/
def encodedText (text : Bytes) : PoolM UInt16 := writtenText (·.append text)

def text (value : String) : PoolM UInt16 := writtenText (·.putText value)

/-- Interns a constant whose payload has a fixed length. -/
def constant (tag : Tag) (payload : Payload) : PoolM UInt16 := fun p =>
  match p.newest? tag payload with
  | .error e => .error e p
  | .ok (some index) => .ok index p
  | .ok none =>
    match p.nextIndex with
    | .error e => .error e p
    | .ok index =>
      let start := p.entries.size
      let p := { p with entries := p.entries.put (tag.byte :: payload.encode) }
      .ok index (p.register start payload.slots)

/-- The index of an attribute name, remembered after the first call that succeeds. -/
def attributeName (name : AttributeName) : PoolM UInt16 := fun p =>
  match p.names.get? name with
  | some index => .ok index p
  | none =>
    match text name.text p with
    | .ok index p => .ok index { p with names := p.names.insert name index }
    | .error e p => .error e p

/-! ## Single constants -/

def reference (tag : Tag) (index : UInt16) : PoolM UInt16 := constant tag (.reference index)

def references (tag : Tag) (first second : UInt16) : PoolM UInt16 :=
  constant tag (.references first second)

def handle (kind : UInt8) (index : UInt16) : PoolM UInt16 :=
  constant .methodHandle (.handle kind index)

def int (value : Int32) : PoolM UInt16 := constant .integer (.word value.toUInt32)

/-- Interns a float given by its bits. -/
def float (bits : UInt32) : PoolM UInt16 := constant .float (.word bits)

def long (value : Int64) : PoolM UInt16 := constant .long (.wide value.toUInt64)

/-- Interns a double given by its bits. -/
def double (bits : UInt64) : PoolM UInt16 := constant .double (.wide bits)

/-! ## Constants with the texts they refer to -/

/-- Interns a text and a constant that refers to it. -/
def textReference (tag : Tag) (value : String) : PoolM UInt16 := do
  reference tag (← text value)

def classInfo (name : String) : PoolM UInt16 := textReference .classInfo name

def string (value : String) : PoolM UInt16 := textReference .string value

def methodType (descriptor : String) : PoolM UInt16 := textReference .methodType descriptor

def nameAndType (name descriptor : String) : PoolM UInt16 := do
  let nameIndex ← text name
  let descriptorIndex ← text descriptor
  references .nameAndType nameIndex descriptorIndex

/-- Interns a reference to a field or method: the class first, then name and descriptor. -/
def memberRef (tag : Tag) (owner name descriptor : String) : PoolM UInt16 := do
  let classIndex ← classInfo owner
  let memberIndex ← nameAndType name descriptor
  references tag classIndex memberIndex

def fieldRef (owner name descriptor : String) : PoolM UInt16 :=
  memberRef .fieldRef owner name descriptor

def methodRef (owner name descriptor : String) : PoolM UInt16 :=
  memberRef .methodRef owner name descriptor

def interfaceMethodRef (owner name descriptor : String) : PoolM UInt16 :=
  memberRef .interfaceMethodRef owner name descriptor

end PoolM
end JavaClass
