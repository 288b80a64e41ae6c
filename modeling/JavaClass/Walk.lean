import JavaClass.Attribute
import JavaClass.Packing

/-!
# Walks without checks

Members and attributes are read out of bytes that a checked walk has passed over before. These
reads look for the end of each item on their own and ask for nothing but what a byte array asks
for: a read beyond the end of its span is out of range.
-/

namespace JavaClass

/-- A stretch of a byte array. -/
structure Span where
  bytes : Bytes
  start : Nat
  stop : Nat
  start_le_stop : start ≤ stop
  stop_le_size : stop ≤ bytes.size

/-- The stretch from `start` up to `stop`. -/
def Bytes.span (bytes : Bytes) (start stop : Nat) : Except Error Span :=
  if h : start ≤ stop ∧ stop ≤ bytes.size then .ok ⟨bytes, start, stop, h.1, h.2⟩
  else .error .outOfRange

namespace Span

variable {α : Type}

def size (s : Span) : Nat := s.stop - s.start

/-- A copy of the bytes. -/
def content (s : Span) : Bytes := s.bytes.extract s.start s.stop

def get16 (s : Span) (offset : Nat) : Except Error UInt16 :=
  if offset + 2 ≤ s.size then s.bytes.get16 (s.start + offset) else .error .outOfRange

def get32 (s : Span) (offset : Nat) : Except Error UInt32 :=
  if offset + 4 ≤ s.size then s.bytes.get32 (s.start + offset) else .error .outOfRange

/-- The part from `first` up to `last`. -/
def part (s : Span) (first last : Nat) : Except Error Span :=
  if last ≤ s.size then s.bytes.span (s.start + first) (s.start + last) else .error .outOfRange

/-- Takes `n` items off the front and appends them to `items`; what lies behind them is left. -/
def collectInto (next : Span → Except Error (α × Span)) (items : Array α) :
    Nat → Span → Except Error (Array α)
  | 0, _ => .ok items
  | n + 1, s => do
    let (a, rest) ← next s
    collectInto next (items.push a) n rest

/-- The first `n` items. -/
def collect (next : Span → Except Error (α × Span)) (n : Nat) (s : Span) :
    Except Error (List α) :=
  Array.toList <$> collectInto next #[] n s

/-- The attribute at the front, and what follows it. -/
def nextAttribute (s : Span) : Except Error (Attribute × Span) := do
  let name ← s.get16 0
  let length ← s.get32 2
  let stop := 6 + length.toNat
  let info ← s.part 6 stop
  let rest ← s.part stop s.size
  return (⟨name, info.content⟩, rest)

def attributes (s : Span) (count : UInt16) : Except Error (List Attribute) :=
  s.collect nextAttribute count.toNat

/-- Where the `n` attributes that start at `offset` end. -/
def attributesEnd (s : Span) (offset : Nat) : Nat → Except Error Nat
  | 0 => .ok offset
  | n + 1 => do
    let length ← s.get32 (offset + 2)
    s.attributesEnd (offset + (6 + length.toNat)) n

/-- The field or method at the front, and what follows it. -/
def nextMember (s : Span) : Except Error (Member × Span) := do
  let flags ← s.get16 0
  let name ← s.get16 2
  let descriptor ← s.get16 4
  let count ← s.get16 6
  let stop ← s.attributesEnd 8 count.toNat
  let attributes ← (← s.part 8 stop).attributes count
  let rest ← s.part stop s.size
  return (⟨⟨flags⟩, name, descriptor, attributes⟩, rest)

def members (s : Span) (count : UInt16) : Except Error (List Member) :=
  s.collect nextMember count.toNat

end Span

namespace Bytes

/-- The fields or methods whose count stands at `start` and whose bytes end at `stop`. -/
def members (bytes : Bytes) (start stop : Nat) : Except Error (List Member) := do
  let count ← bytes.get16 start
  (← bytes.span (start + 2) stop).members count

/-- The attributes whose count stands at `start`. -/
def attributes (bytes : Bytes) (start : Nat) : Except Error (List Attribute) := do
  let count ← bytes.get16 start
  (← bytes.span (start + 2) bytes.size).attributes count

/-- The `n` 16-bit words from `start` on. -/
def words (bytes : Bytes) (start n : Nat) : Except Error (List UInt16) :=
  (List.range n).mapM fun i => bytes.get16 (start + 2 * i)

end Bytes
end JavaClass
