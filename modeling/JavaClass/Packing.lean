import JavaClass.Bytes

/-!
# Words at absolute offsets

Reading, writing and comparing big-endian words inside a byte array, in two ways: `windowed` cuts
out the whole word and converts it as a number, `bytewise` spells out every shift. On words that
fit they agree; a word that does not fit is out of range, except that a bytewise comparison of four
or eight bytes may already have answered `false` at an earlier byte.
-/

namespace JavaClass

/-- One way to keep big-endian words in a byte array. -/
structure Packing where
  get16 : Bytes → Nat → Except Error UInt16
  get32 : Bytes → Nat → Except Error UInt32
  get64 : Bytes → Nat → Except Error UInt64
  set16 : Bytes → Nat → UInt16 → Except Error Bytes
  set32 : Bytes → Nat → UInt32 → Except Error Bytes
  set64 : Bytes → Nat → UInt64 → Except Error Bytes
  /-- whether the word at the offset is the given one -/
  holds16 : Bytes → Nat → UInt16 → Except Error Bool :=
    fun bytes offset v => (· == v) <$> get16 bytes offset
  holds32 : Bytes → Nat → UInt32 → Except Error Bool :=
    fun bytes offset v => (· == v) <$> get32 bytes offset
  holds64 : Bytes → Nat → UInt64 → Except Error Bool :=
    fun bytes offset v => (· == v) <$> get64 bytes offset

namespace Packing

/-- Converts the whole window at once. -/
def windowed : Packing where
  get16 bytes offset := (UInt16.ofNat ∘ BigEndian.decode) <$> bytes.window offset 2
  get32 bytes offset := (UInt32.ofNat ∘ BigEndian.decode) <$> bytes.window offset 4
  get64 bytes offset := (UInt64.ofNat ∘ BigEndian.decode) <$> bytes.window offset 8
  set16 bytes offset v := bytes.patch offset (bytes16 v)
  set32 bytes offset v := bytes.patch offset (bytes32 v)
  set64 bytes offset v := bytes.patch offset (bytes64 v)

namespace Bytewise

def get16 (bytes : Bytes) (offset : Nat) : Except Error UInt16 := do
  let b0 ← bytes.byteAt offset
  let b1 ← bytes.byteAt (offset + 1)
  return b0.toUInt16 <<< 8 ||| b1.toUInt16

def get32 (bytes : Bytes) (offset : Nat) : Except Error UInt32 := do
  let b0 ← bytes.byteAt offset
  let b1 ← bytes.byteAt (offset + 1)
  let b2 ← bytes.byteAt (offset + 2)
  let b3 ← bytes.byteAt (offset + 3)
  return b0.toUInt32 <<< 24 ||| b1.toUInt32 <<< 16 ||| b2.toUInt32 <<< 8 ||| b3.toUInt32

def get64 (bytes : Bytes) (offset : Nat) : Except Error UInt64 := do
  let high ← get32 bytes offset
  let low ← get32 bytes (offset + 4)
  return high.toUInt64 <<< 32 ||| low.toUInt64

/-- Replaces one byte. -/
def set8 (bytes : Bytes) (offset : Nat) (v : UInt8) : Except Error Bytes :=
  if h : offset < bytes.size then .ok (bytes.set offset v h) else .error .outOfRange

def set16 (bytes : Bytes) (offset : Nat) (v : UInt16) : Except Error Bytes := do
  let bytes ← set8 bytes offset (v >>> 8).toUInt8
  set8 bytes (offset + 1) v.toUInt8

def set32 (bytes : Bytes) (offset : Nat) (v : UInt32) : Except Error Bytes := do
  let bytes ← set8 bytes offset (v >>> 24).toUInt8
  let bytes ← set8 bytes (offset + 1) (v >>> 16).toUInt8
  let bytes ← set8 bytes (offset + 2) (v >>> 8).toUInt8
  set8 bytes (offset + 3) v.toUInt8

def set64 (bytes : Bytes) (offset : Nat) (v : UInt64) : Except Error Bytes := do
  let bytes ← set32 bytes offset (v >>> 32).toUInt32
  set32 bytes (offset + 4) v.toUInt32

/-- Compares byte after byte from `offset` on and stops at the first that differs. -/
def holds (bytes : Bytes) (offset : Nat) : List UInt8 → Except Error Bool
  | [] => .ok true
  | v :: rest => do
    let b ← bytes.byteAt offset
    if b == v then holds bytes (offset + 1) rest else return false

def holds32 (bytes : Bytes) (offset : Nat) (v : UInt32) : Except Error Bool :=
  holds bytes offset
    [(v >>> 24).toUInt8, (v >>> 16).toUInt8, (v >>> 8).toUInt8, v.toUInt8]

def holds64 (bytes : Bytes) (offset : Nat) (v : UInt64) : Except Error Bool := do
  if ← holds32 bytes offset (v >>> 32).toUInt32 then holds32 bytes (offset + 4) v.toUInt32
  else return false

end Bytewise

/-- Shifts and masks one byte after the other. -/
def bytewise : Packing where
  get16 := Bytewise.get16
  get32 := Bytewise.get32
  get64 := Bytewise.get64
  set16 := Bytewise.set16
  set32 := Bytewise.set32
  set64 := Bytewise.set64
  holds32 := Bytewise.holds32
  holds64 := Bytewise.holds64

end Packing

namespace Bytes

def get16 (bytes : Bytes) (offset : Nat) : Except Error UInt16 := Packing.windowed.get16 bytes offset
def get32 (bytes : Bytes) (offset : Nat) : Except Error UInt32 := Packing.windowed.get32 bytes offset
def get64 (bytes : Bytes) (offset : Nat) : Except Error UInt64 := Packing.windowed.get64 bytes offset

def holds16 (bytes : Bytes) (offset : Nat) (v : UInt16) : Except Error Bool :=
  Packing.windowed.holds16 bytes offset v

def holds32 (bytes : Bytes) (offset : Nat) (v : UInt32) : Except Error Bool :=
  Packing.windowed.holds32 bytes offset v

def holds64 (bytes : Bytes) (offset : Nat) (v : UInt64) : Except Error Bool :=
  Packing.windowed.holds64 bytes offset v

end Bytes
end JavaClass
