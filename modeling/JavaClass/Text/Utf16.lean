/-!
# UTF-16

Characters as 16-bit units and back. A character above U+FFFF is a pair of surrogates, the high
one first; a surrogate outside such a pair spells no character.
-/

namespace JavaClass.Utf16

def isHigh (u : UInt16) : Bool := 0xD800 ≤ u.toNat && u.toNat < 0xDC00

def isLow (u : UInt16) : Bool := 0xDC00 ≤ u.toNat && u.toNat < 0xE000

/-- The units of one character. -/
def ofChar (c : Char) : List UInt16 :=
  let n := c.toNat
  if n < 0x10000 then [UInt16.ofNat n]
  else
    [UInt16.ofNat (0xD800 + (n - 0x10000) / 0x400), UInt16.ofNat (0xDC00 + (n - 0x10000) % 0x400)]

def encode (text : List Char) : List UInt16 := text.flatMap ofChar

/-- The character of a surrogate pair. -/
def pair (high low : UInt16) : Char :=
  Char.ofNat (0x10000 + (high.toNat - 0xD800) * 0x400 + (low.toNat - 0xDC00))

/-- Appends to `read` the characters that the units spell, `none` for each unpaired surrogate. -/
def scalarsInto (read : Array (Option Char)) : List UInt16 → Array (Option Char)
  | [] => read
  | [u] => read.push (if isHigh u || isLow u then none else some (Char.ofNat u.toNat))
  | u :: v :: rest =>
    if isHigh u && isLow v then scalarsInto (read.push (some (pair u v))) rest
    else if isHigh u || isLow u then scalarsInto (read.push none) (v :: rest)
    else scalarsInto (read.push (some (Char.ofNat u.toNat))) (v :: rest)

/-- The characters that the units spell, `none` for each unpaired surrogate. -/
def scalars (units : List UInt16) : List (Option Char) := (scalarsInto #[] units).toList

/-- Stands for what cannot be decoded. -/
def replacement : Char := '\uFFFD'

/-- The text of the units, with a replacement character for each unpaired surrogate. -/
def decodeLossy (units : List UInt16) : String :=
  String.ofList ((scalars units).map (·.getD replacement))

/-- The text of the units, unless a surrogate among them is unpaired. -/
def decode? (units : List UInt16) : Option String :=
  if (scalars units).all (·.isSome) then some (decodeLossy units) else none

end JavaClass.Utf16
