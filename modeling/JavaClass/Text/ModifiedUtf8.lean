import JavaClass.Bytes
import JavaClass.Text.Utf16

/-!
# Modified UTF-8

The text encoding of constant pools: each UTF-16 unit stands on its own in one, two or three bytes,
and U+0000 takes two, so that encoded text holds no zero byte. `decode` reads anything, `decode?`
refuses what is malformed and says where.
-/

namespace JavaClass.ModifiedUtf8

/-- The bytes of one unit. -/
def ofUnit (u : UInt16) : List UInt8 :=
  let n := u.toNat
  if 0x800 ≤ n then
    [UInt8.ofNat (0xE0 + n / 4096), UInt8.ofNat (0x80 + n / 64 % 64), UInt8.ofNat (0x80 + n % 64)]
  else if 0x80 ≤ n ∨ n = 0 then [UInt8.ofNat (0xC0 + n / 64), UInt8.ofNat (0x80 + n % 64)]
  else [UInt8.ofNat n]

/-- How many bytes one unit takes. -/
def unitLength (u : UInt16) : Nat :=
  if u.toNat = 0 then 2 else if u.toNat < 0x80 then 1 else if u.toNat < 0x800 then 2 else 3

def encode (text : String) : Bytes := ((Utf16.encode text.toList).flatMap ofUnit).toArray

/-- How many bytes `encode` gives. -/
def encodedLength (text : String) : Nat :=
  (Utf16.encode text.toList).foldl (fun total u => total + unitLength u) 0

/-- A byte of plain UTF-8 that stays as it is: it is not zero and no part of a longer character. -/
def isPlainByte (b : UInt8) : Bool := b != 0 && b < 0x80

/-! ## Reading trusted text -/

/-- The unit of a two-byte sequence, whatever the bits that mark its bytes. -/
def twoByteUnit (lead : UInt8) (next : Option UInt8) : UInt16 :=
  UInt16.ofNat (lead.toNat % 32 * 64 + (next.getD 0).toNat % 64)

/-- The unit of a three-byte sequence, whatever the bits that mark its bytes. -/
def threeByteUnit (lead : UInt8) (next last : Option UInt8) : UInt16 :=
  UInt16.ofNat
    (lead.toNat % 16 * 4096 + (next.getD 0).toNat % 64 * 64 + (last.getD 0).toNat % 64)

/-- Appends the units that a walk over the bytes reads. The lead byte alone decides how many bytes
a unit takes; bytes missing at the end count as zero. -/
def unitsInto (read : Array UInt16) : List UInt8 → Array UInt16
  | [] => read
  | b :: rest =>
    if b.toNat < 0x80 then unitsInto (read.push b.toUInt16) rest
    else if b.toNat / 32 % 2 = 1 then
      unitsInto (read.push (threeByteUnit b rest[0]? rest[1]?)) (rest.drop 2)
    else unitsInto (read.push (twoByteUnit b rest[0]?)) (rest.drop 1)
termination_by bytes => bytes.length

/-- The text of bytes that are not checked: malformed sequences give some character, unpaired
surrogates the replacement character. Bytes up to the first above 0x7F are copied. The units are
collected in a scratch array that callers may use again, whatever it holds. -/
def decodeReusing (scratch : Array UInt16) (bytes : Bytes) : String × Array UInt16 :=
  match bytes.findIdx? (fun b => 0x80 ≤ b.toNat) with
  | none => (String.ofList (bytes.toList.map fun b => Char.ofNat b.toNat), scratch)
  | some first =>
    let copied := scratch.shrink 0 ++ (bytes.extract 0 first).map UInt8.toUInt16
    let units := unitsInto copied (bytes.toList.drop first)
    (Utf16.decodeLossy units.toList, units)

/-- As `decodeReusing`, with a scratch array of its own. -/
def decode (bytes : Bytes) : String := (decodeReusing #[] bytes).1

/-! ## Reading checked text -/

def isContinuation (b : UInt8) : Bool := 0x80 ≤ b.toNat && b.toNat < 0xC0

/-- Appends the units of well-formed sequences; `offset` is where the bytes start. Malformed bytes
are reported at the first offset that cannot go on, and the units read up to there stay. -/
def checkedUnitsInto (read : Array UInt16) (offset : Nat) :
    List UInt8 → EStateM.Result Error (Array UInt16) Unit
  | [] => .ok () read
  | b :: rest =>
    let n := b.toNat
    if 0 < n ∧ n < 0x80 then checkedUnitsInto (read.push b.toUInt16) (offset + 1) rest
    else if 0xC0 ≤ n ∧ n < 0xE0 then
      match rest with
      | [] => .error (.malformedText (offset + 1)) read
      | next :: rest =>
        if isContinuation next then
          checkedUnitsInto (read.push (twoByteUnit b (some next))) (offset + 2) rest
        else .error (.malformedText (offset + 1)) read
    else if 0xE0 ≤ n ∧ n < 0xF0 then
      match rest with
      | [] => .error (.malformedText (offset + 1)) read
      | [next] =>
        .error (.malformedText (if isContinuation next then offset + 2 else offset + 1)) read
      | next :: last :: rest =>
        if !isContinuation next then .error (.malformedText (offset + 1)) read
        else if !isContinuation last then .error (.malformedText (offset + 2)) read
        else
          checkedUnitsInto (read.push (threeByteUnit b (some next) (some last))) (offset + 3) rest
    else .error (.malformedText offset) read

/-- The text of the bytes, if they are well-formed sequences and every surrogate is paired. The
units are collected in a scratch array, as those of `decodeReusing` are. -/
def decodeReusing? (bytes : Bytes) : EStateM Error (Array UInt16) String := fun scratch =>
  match checkedUnitsInto (scratch.shrink 0) 0 bytes.toList with
  | .error e units => .error e units
  | .ok () units =>
    match Utf16.decode? units.toList with
    | some text => .ok text units
    | none => .error .unpairedSurrogate units

/-- As `decodeReusing?`, with a scratch array of its own. -/
def decode? (bytes : Bytes) : Except Error String :=
  match decodeReusing? bytes #[] with
  | .ok text _ => .ok text
  | .error e _ => .error e

/-- A long text cut down to its first and last eight characters. -/
def excerpt (text : String) : String :=
  let chars := text.toList
  if chars.length ≤ 16 then text
  else
    String.ofList (chars.take 8) ++ "..." ++ String.ofList (chars.drop (chars.length - 8))

end JavaClass.ModifiedUtf8
