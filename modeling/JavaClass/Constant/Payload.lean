import JavaClass.Packing

/-!
# Payloads of fixed length

What stands behind the tag of every constant but text.
-/

namespace JavaClass

inductive Payload
  | reference (index : UInt16)
  | handle (kind : UInt8) (index : UInt16)
  | word (value : UInt32)
  | wide (value : UInt64)
  deriving DecidableEq, Repr

namespace Payload

/-- Two pool indexes in one word. -/
def references (first second : UInt16) : Payload :=
  word (first.toUInt32 <<< 16 ||| second.toUInt32)

def encode : Payload → List UInt8
  | reference index => bytes16 index
  | handle kind index => kind :: bytes16 index
  | word value => bytes32 value
  | wide value => bytes64 value

/-- Pool slots of an entry with this payload. -/
def slots : Payload → Nat
  | wide _ => 2
  | _ => 1

/-- Whether the payload stands at `offset`; there the bytes must reach far enough to tell. -/
def isAt (bytes : Bytes) (offset : Nat) : Payload → Except Error Bool
  | reference index => bytes.holds16 offset index
  | handle kind index => do
    let found ← bytes.byteAt offset
    if found == kind then bytes.holds16 (offset + 1) index else return false
  | word value => bytes.holds32 offset value
  | wide value => bytes.holds64 offset value

end Payload
end JavaClass
