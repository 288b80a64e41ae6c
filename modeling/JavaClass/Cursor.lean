import JavaClass.Walk

/-!
# Checked reading

A cursor walks over bytes from front to back. Every primitive read first checks that enough bytes
remain; where they do not, the cursor stays and the error tells the offset, the bytes needed and
the bytes there are.
-/

namespace JavaClass

structure Cursor where
  bytes : Bytes
  position : Nat

namespace Cursor

def start (bytes : Bytes) : Cursor := ⟨bytes, 0⟩

/-- How many bytes lie ahead. -/
def remaining (c : Cursor) : Nat := c.bytes.size - c.position

end Cursor

/-- Something that reads from a cursor. -/
abbrev Decoder (α : Type) := EStateM Error Cursor α

namespace Decoder

variable {α : Type}

/-- Passes over `n` bytes. -/
def skip (n : Nat) : Decoder Unit := fun c =>
  if c.remaining < n then .error (.truncated c.position n c.bytes.size) c
  else .ok () { c with position := c.position + n }

/-- The next `n` bytes. -/
def take (n : Nat) : Decoder Bytes := fun c =>
  if c.remaining < n then .error (.truncated c.position n c.bytes.size) c
  else
    .ok (c.bytes.extract c.position (c.position + n)) { c with position := c.position + n }

/-- How far the cursor has come. -/
def position : Decoder Nat := fun c => .ok c.position c

def u8 : Decoder UInt8 := do
  return UInt8.ofNat (BigEndian.decode (← take 1).toList)

def u16 : Decoder UInt16 := do
  return UInt16.ofNat (BigEndian.decode (← take 2).toList)

def u32 : Decoder UInt32 := do
  return UInt32.ofNat (BigEndian.decode (← take 4).toList)

/-- Reads `n` items and appends them to `items`. -/
def manyInto (items : Array α) (item : Decoder α) : Nat → Decoder (Array α)
  | 0 => pure items
  | n + 1 => do
    let a ← item
    manyInto (items.push a) item n

/-- The next `n` items. -/
def many (n : Nat) (item : Decoder α) : Decoder (List α) := do
  return (← manyInto #[] item n).toList

/-- As many items as the 16-bit count in front of them says. -/
def counted (item : Decoder α) : Decoder (List α) := do
  let n ← u16
  many n.toNat item

/-- Does a step `n` times. -/
def times (step : Decoder Unit) : Nat → Decoder Unit
  | 0 => pure ()
  | n + 1 => do
    step
    times step n

/-- Passes over as many items as the 16-bit count in front of them says. -/
def skipCounted (step : Decoder Unit) : Decoder Unit := do
  let n ← u16
  times step n.toNat

/-- Passes over an attribute. -/
def attributeInfo : Decoder Unit := do
  skip 2
  let length ← u32
  skip length.toNat

/-- Passes over a field or a method. -/
def memberInfo : Decoder Unit := do
  skip 6
  skipCounted attributeInfo

/-- Passes over an attribute list, then reads the attributes. -/
def attributes : Decoder (List Attribute) := do
  let start ← position
  let count ← u16
  times attributeInfo count.toNat
  let span ← (← get).bytes.span (start + 2) (← position)
  span.attributes count

def exceptionHandler : Decoder ExceptionHandler := do
  let startPc ← u16
  let endPc ← u16
  let handlerPc ← u16
  let catchType ← u16
  return { startPc, endPc, handlerPc, catchType }

/-- The content of a `Code` attribute; bytes behind it are left alone. -/
def code : Decoder Code := do
  let maxStack ← u16
  let maxLocals ← u16
  let length ← u32
  let instructions ← take length.toNat
  let handlers ← counted exceptionHandler
  let attributes ← attributes
  return { maxStack, maxLocals, instructions, handlers, attributes }

/-- What the decoder reads from the start of `bytes`. -/
def run (d : Decoder α) (bytes : Bytes) : Except Error α :=
  match d (Cursor.start bytes) with
  | .ok a _ => .ok a
  | .error e _ => .error e

end Decoder
end JavaClass
