import JavaClass.Error

/-!
# Byte strings

Big-endian numbers, and checked windows into a byte array.
-/

namespace JavaClass

abbrev Bytes := Array UInt8

namespace BigEndian

/-- The low `width` bytes of `n`, most significant first. -/
def encode : Nat → Nat → List UInt8
  | 0, _ => []
  | width + 1, n => UInt8.ofNat (n >>> (8 * width)) :: encode width n

/-- The number that the bytes spell, most significant first. -/
def decode (bytes : List UInt8) : Nat :=
  bytes.foldl (fun n b => 256 * n + b.toNat) 0

end BigEndian

/-- Two bytes, most significant first. -/
def bytes16 (v : UInt16) : List UInt8 := BigEndian.encode 2 v.toNat

/-- Four bytes, most significant first. -/
def bytes32 (v : UInt32) : List UInt8 := BigEndian.encode 4 v.toNat

/-- Eight bytes, most significant first. -/
def bytes64 (v : UInt64) : List UInt8 := BigEndian.encode 8 v.toNat

namespace Bytes

/-- The byte at `offset`. -/
def byteAt (bytes : Bytes) (offset : Nat) : Except Error UInt8 :=
  match bytes[offset]? with
  | some b => .ok b
  | none => .error .outOfRange

/-- The bytes from `start` up to `stop`. -/
def slice (bytes : Bytes) (start stop : Nat) : Except Error Bytes :=
  if start ≤ stop ∧ stop ≤ bytes.size then .ok (bytes.extract start stop) else .error .outOfRange

/-- The `width` bytes from `offset` on. -/
def window (bytes : Bytes) (offset width : Nat) : Except Error (List UInt8) :=
  Array.toList <$> bytes.slice offset (offset + width)

/-- `bytes` with the bytes from `offset` on replaced by `values`. -/
def overwrite (bytes : Bytes) (offset : Nat) : List UInt8 → Bytes
  | [] => bytes
  | b :: rest => overwrite (bytes.setIfInBounds offset b) (offset + 1) rest

/-- As `overwrite`, but all of `values` must lie inside. -/
def patch (bytes : Bytes) (offset : Nat) (values : List UInt8) : Except Error Bytes :=
  if offset + values.length ≤ bytes.size then .ok (overwrite bytes offset values)
  else .error .outOfRange

end Bytes
end JavaClass
