import JavaClass.Bytes

/-!
# Growable buffers

An array that is appended to, with a capacity that grows by a rule of its own. Every appending
operation first reserves room for all it is about to write, and only `reserve` changes the
capacity.
-/

namespace JavaClass

/-- How a buffer picks its next capacity once it runs out of room. -/
inductive Growth
  /-- twice the capacity, or what is required if that is more -/
  | doubling
  /-- as `doubling` up to `threshold` elements, `increment` elements at a time after that -/
  | capped (threshold increment : Nat)
  deriving DecidableEq, Repr

namespace Growth

/-- The rule of a constant pool's buffer. -/
def pool : Growth := capped 10000 3200

instance : Inhabited Growth := ⟨doubling⟩

/-- The capacity of a buffer of `size` elements that needs room for `required`. -/
def newCapacity (rule : Growth) (size capacity required : Nat) : Nat :=
  match rule with
  | doubling => max required (capacity * 2)
  | capped threshold increment =>
    if size > threshold then max required (size + increment) else max required (capacity * 2)

end Growth

structure Buffer (α : Type) where
  data : Array α
  capacity : Nat
  growth : Growth

abbrev ByteBuffer := Buffer UInt8

namespace Buffer

variable {α : Type}

/-- An empty buffer with room for `capacity` elements. -/
def withPolicy (capacity : Nat) (growth : Growth) : Buffer α :=
  ⟨#[], capacity, growth⟩

/-- A buffer with room for `capacity` elements that grows by doubling. -/
def withCapacity (capacity : Nat) : Buffer α := withPolicy capacity .doubling

def empty : Buffer α := withCapacity 0

instance : Inhabited (Buffer α) := ⟨empty⟩

def size (b : Buffer α) : Nat := b.data.size

def isEmpty (b : Buffer α) : Bool := b.data.isEmpty

/-- Makes room for `n` more elements; answers whether the capacity had to change. -/
def tryReserve (b : Buffer α) (n : Nat) : Bool × Buffer α :=
  let required := b.size + n
  if required ≤ b.capacity then (false, b)
  else (true, { b with capacity := b.growth.newCapacity b.size b.capacity required })

/-- Makes room for `n` more elements. -/
def reserve (b : Buffer α) (n : Nat) : Buffer α := (b.tryReserve n).2

/-- Writes at the end, into room that has been reserved before. -/
def write (b : Buffer α) (values : List α) : Buffer α :=
  { b with data := b.data.appendList values }

def push (b : Buffer α) (v : α) : Buffer α :=
  let b := b.reserve 1
  { b with data := b.data.push v }

def append (b : Buffer α) (values : Array α) : Buffer α :=
  let b := b.reserve values.size
  { b with data := b.data ++ values }

/-- Appends the elements of `values` from `start` up to `stop`. -/
def appendRange (b : Buffer α) (values : Array α) (start stop : Nat) : Except Error (Buffer α) :=
  if start ≤ stop ∧ stop ≤ values.size then .ok (b.append (values.extract start stop))
  else .error .outOfRange

def get (b : Buffer α) (i : Nat) : Except Error α :=
  match b.data[i]? with
  | some v => .ok v
  | none => .error .outOfRange

def set (b : Buffer α) (i : Nat) (v : α) : Except Error (Buffer α) :=
  if i < b.size then .ok { b with data := b.data.setIfInBounds i v } else .error .outOfRange

def last? (b : Buffer α) : Option α := b.data.back?

/-- Takes the last element off. -/
def pop (b : Buffer α) : Buffer α := { b with data := b.data.pop }

/-- Keeps the first `n` elements; the capacity stays. -/
def truncate (b : Buffer α) (n : Nat) : Buffer α := { b with data := b.data.shrink n }

def clear (b : Buffer α) : Buffer α := { b with data := #[] }

end Buffer
end JavaClass
