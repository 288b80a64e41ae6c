import JavaClass.Attribute
import JavaClass.Constant.Pool

/-!
# Attribute lists under construction

Attributes are appended to a buffer whose counts and lengths are not known yet. Each of them is
reserved as zero bytes when its section starts and patched when the section is finished. A section
started later is finished first.
-/

namespace JavaClass

/-- A buffer to append to, and the pool that its indexes refer to. -/
structure Draft where
  buffer : ByteBuffer
  pool : ConstantPool

instance : Inhabited Draft := ⟨⟨default, default⟩⟩

/-- A step of writing. -/
abbrev DraftM (α : Type) := EStateM Error Draft α

namespace DraftM

variable {α : Type}

/-- A call on the pool. -/
def onPool (call : PoolM α) : DraftM α := fun ⟨buffer, pool⟩ =>
  match call pool with
  | .ok a pool => .ok a ⟨buffer, pool⟩
  | .error e pool => .error e ⟨buffer, pool⟩

/-- A change of the buffer. -/
def onBuffer (change : ByteBuffer → ByteBuffer) : DraftM Unit := fun ⟨buffer, pool⟩ =>
  .ok () ⟨change buffer, pool⟩

/-- How many bytes the buffer holds. -/
def size : DraftM Nat := fun d => .ok d.buffer.size d

/-- Replaces bytes that the buffer already holds. -/
def patch (offset : Nat) (values : List UInt8) : DraftM Unit := fun d =>
  if offset + values.length ≤ d.buffer.size then onBuffer (·.overwrite offset values) d
  else .error .outOfRange d

/-- Reserves `n` zero bytes and answers their offset. -/
def skip (n : Nat) : DraftM Nat := do
  let offset ← size
  onBuffer (·.skip n)
  return offset

end DraftM

/-! ## Reserved lengths and counts -/

/-- The reserved length of an attribute: four bytes at `offset`. -/
structure LengthSlot where
  offset : Nat
  deriving DecidableEq, Repr

namespace LengthSlot

/-- Writes an attribute's name and reserves its length. -/
def start (name : UInt16) : DraftM LengthSlot := do
  DraftM.onBuffer (·.put16 name)
  return ⟨← DraftM.skip 4⟩

/-- Patches the length with the number of bytes behind it, which must fit its 32 bits. A buffer
that has been cut off before the end of the slot has no such number. -/
def finish (slot : LengthSlot) : DraftM Unit := do
  let size ← DraftM.size
  let content := slot.offset + 4
  if content ≤ size ∧ size - content < UInt32.size then
    DraftM.patch slot.offset (bytes32 (UInt32.ofNat (size - content)))
  else throw (.countOverflow .attributeLength (UInt32.size - 1))

end LengthSlot

/-- A 32-bit count as 16 bits, which it must fit. -/
def count16 (what : Counted) (count : UInt32) : Except Error UInt16 :=
  if count < 65536 then .ok count.toUInt16 else .error (.countOverflow what count.toNat)

/-- A reserved count: two bytes at `offset`, for what has been counted so far. The counter has 32
bits and starts again at zero when they are used up. -/
structure CountSlot where
  offset : Nat
  count : UInt32
  deriving DecidableEq, Repr

namespace CountSlot

def start : DraftM CountSlot := do
  return ⟨← DraftM.skip 2, 0⟩

/-- Patches the count, which must fit its 16 bits. -/
def finish (slot : CountSlot) (what : Counted) : DraftM Unit := do
  let count ← count16 what slot.count
  DraftM.patch slot.offset (bytes16 count)

end CountSlot

/-! ## Attribute lists -/

/-- Where an attribute list keeps its count while it is written. -/
inductive AttributeList
  /-- the count is written elsewhere -/
  | tallied (count : UInt32)
  /-- nothing is written yet; the count is reserved right before the first attribute -/
  | pending
  | reserved (slot : CountSlot)
  deriving DecidableEq, Repr

namespace AttributeList

/-- An attribute list whose count is reserved at once. -/
def start : DraftM AttributeList := do
  return .reserved (← CountSlot.start)

/-- How many attributes the list holds. -/
def count : AttributeList → UInt32
  | tallied n => n
  | pending => 0
  | reserved slot => slot.count

/-- Reserves the count if that is still to be done. -/
def settle : AttributeList → DraftM AttributeList
  | pending => start
  | list => pure list

/-- Counts one more attribute, which is to be written right after. The first one of a pending list
has the count reserved in front of it. -/
def grow : AttributeList → DraftM AttributeList
  | tallied n => return .tallied (n + 1)
  | pending => return .reserved { (← CountSlot.start) with count := 1 }
  | reserved slot => return .reserved { slot with count := slot.count + 1 }

/-- Ends the list: its count is patched, or written as 0 if there never was an attribute. -/
def finish (list : AttributeList) (what : Counted) : DraftM Unit :=
  match list with
  | tallied _ => pure ()
  | pending => DraftM.onBuffer (·.put16 0)
  | reserved slot => slot.finish what

/-- An attribute that holds a single 16-bit word. -/
def putWord (list : AttributeList) (name value : UInt16) : DraftM AttributeList := do
  let list ← list.grow
  DraftM.onBuffer (·.putWordAttribute name 2 value)
  return list

/-- An attribute without content. -/
def putEmpty (list : AttributeList) (name : UInt16) : DraftM AttributeList := do
  let list ← list.grow
  DraftM.onBuffer (·.putAttributeHeader name 0)
  return list

/-- An attribute whose content is already encoded. -/
def putRaw (list : AttributeList) (name : UInt16) (info : Bytes) : DraftM AttributeList := do
  let list ← list.grow
  DraftM.onBuffer fun b => (b.putAttributeHeader name (UInt32.ofNat info.size)).append info
  return list

/-- Starts an attribute whose content is written next. -/
def startAttribute (list : AttributeList) (name : UInt16) :
    DraftM (AttributeList × LengthSlot) := do
  let list ← list.grow
  let slot ← LengthSlot.start name
  return (list, slot)

end AttributeList

/-- An attribute under construction whose content ends with an attribute list of its own. -/
structure CompositeAttribute where
  length : LengthSlot
  nested : AttributeList
  deriving DecidableEq, Repr

namespace CompositeAttribute

/-- Starts such an attribute. Its content comes first, then the nested list. -/
def start (list : AttributeList) (name : UInt16) :
    DraftM (AttributeList × CompositeAttribute) := do
  let (list, length) ← list.startAttribute name
  return (list, ⟨length, .pending⟩)

/-- Ends the content, so that the nested list follows. -/
def startNested (a : CompositeAttribute) : DraftM CompositeAttribute := do
  return { a with nested := ← a.nested.settle }

def finish (a : CompositeAttribute) : DraftM Unit := do
  a.nested.finish .nestedAttributes
  a.length.finish

end CompositeAttribute
end JavaClass
