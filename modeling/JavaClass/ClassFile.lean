import JavaClass.ClassDraft
import JavaClass.Constant.Lookup
import JavaClass.Cursor

/-!
# Class files

Reading a whole class file. One checked walk finds where each constant and each section starts;
header, members and attributes are then read from there without checks. Bytes behind the last
attribute are left alone.
-/

namespace JavaClass

structure ClassFile where
  version : Version
  /-- the pool, over the bytes of the whole file -/
  pool : ConstantTable
  flags : AccessFlags
  thisClass : UInt16
  /-- 0 for a class without a super class -/
  superClass : UInt16
  interfaces : List UInt16
  fields : List Member
  methods : List Member
  attributes : List Attribute
  /-- where the pool ends and the class header starts -/
  headerOffset : Nat
  /-- where the number of methods stands -/
  methodsOffset : Nat
  /-- how many bytes the class takes -/
  size : Nat

/-- Where the sections behind the pool stand. -/
structure Sections where
  /-- where the pool ends and the class header starts -/
  header : Nat
  /-- where the number of fields stands -/
  fields : Nat
  /-- where the number of methods stands -/
  methods : Nat
  /-- where the number of attributes stands -/
  attributes : Nat
  /-- where the last attribute ends -/
  stop : Nat

/-- Where the parts of a class file stand in its bytes. -/
structure Layout extends Sections where
  version : Version
  /-- where the constant of each index starts -/
  starts : Array (Option Nat)

namespace Decoder

/-- The tag of the next constant. -/
def tag : Decoder Tag := do
  let byte ← u8
  match Tag.ofByte? byte with
  | some tag => return tag
  | none => throw (.invalidTag byte)

/-- Passes over the payload of a constant. -/
def skipPayload (tag : Tag) : Decoder Unit := do
  match tag.payloadLength? with
  | some length => skip length
  | none =>
    let length ← u16
    skip length.toNat

/-- Passes over constants until they have taken `n` slots, and appends where each of them starts.
A wide constant in the last slot has no second one. -/
def constantsInto (starts : Array (Option Nat)) : Nat → Decoder (Array (Option Nat))
  | 0 => pure starts
  | n + 1 => do
    let start ← position
    let tag ← tag
    skipPayload tag
    let starts := starts.push (some start)
    if tag.slots = 2 then
      match n with
      | 0 => return starts
      | n + 1 => constantsInto (starts.push none) n
    else constantsInto starts n

/-- Passes over what every class file starts with. -/
def magicNumber : Decoder Unit := do
  let found ← u32
  if found = magic then pure () else throw (.invalidMagic found)

/-- The version, its minor number first. -/
def version : Decoder Version := do
  let minor ← u16
  let major ← u16
  return { major, minor }

/-- Passes over the pool and its count. -/
def constants : Decoder (Array (Option Nat)) := do
  let count ← u16
  constantsInto #[none] (count.toNat - 1)

/-- Passes over the class header. -/
def classHeader : Decoder Unit := do
  skip 6
  let interfaceCount ← u16
  skip (2 * interfaceCount.toNat)

/-- Walks over all that stands behind the pool. -/
def sections : Decoder Sections := do
  let header ← position
  classHeader
  let fields ← position
  skipCounted memberInfo
  let methods ← position
  skipCounted memberInfo
  let attributes ← position
  skipCounted attributeInfo
  let stop ← position
  return { header, fields, methods, attributes, stop }

/-- Walks over a whole class file, from its first byte on. -/
def layout : Decoder Layout := do
  magicNumber
  let version ← version
  let starts ← constants
  let sections ← sections
  return { sections with version, starts }

end Decoder

/-- The class file whose parts stand where the layout says. -/
def Layout.read (l : Layout) (bytes : Bytes) : Except Error ClassFile := do
  let flags ← bytes.get16 l.header
  let thisClass ← bytes.get16 (l.header + 2)
  let superClass ← bytes.get16 (l.header + 4)
  let interfaceCount ← bytes.get16 (l.header + 6)
  let interfaces ← bytes.words (l.header + 8) interfaceCount.toNat
  let fields ← bytes.members l.fields l.methods
  let methods ← bytes.members l.methods l.attributes
  let attributes ← bytes.attributes l.attributes
  return {
    version := l.version, pool := ⟨bytes, l.starts⟩, flags := ⟨flags⟩, thisClass, superClass,
    interfaces, fields, methods, attributes, headerOffset := l.header, methodsOffset := l.methods,
    size := l.stop }

namespace ClassFile

/-- Checks all of the bytes in one walk, then reads them where that walk found them. -/
def parse (bytes : Bytes) : Except Error ClassFile := do
  let layout ← Decoder.layout.run bytes
  layout.read bytes

/-- The bytes of the whole file, with what follows the class. -/
def bytes (c : ClassFile) : Bytes := c.pool.bytes

/-- Length of the encoded constants. -/
def poolLength (c : ClassFile) : Nat := c.headerOffset - 10

/-- Length of the class header and the fields. -/
def bodyLength (c : ClassFile) : Nat := c.methodsOffset - c.headerOffset

def thisName (c : ClassFile) : Except Error String := c.pool.className c.thisClass

/-- The name of the super class; `none` for a class without one. -/
def superName (c : ClassFile) : Except Error (Option String) :=
  if c.superClass = 0 then .ok none else some <$> c.pool.className c.superClass

/-- From where to where the whole entry of an index reaches, its tag included. -/
def entryRange (c : ClassFile) (index : UInt16) : Except Error (Option (Nat × Nat)) := do
  match c.pool.tag? index with
  | none => return none
  | some tag =>
    let offset ← c.pool.payloadOffset index
    match tag.payloadLength? with
    | some length => return some (offset - 1, offset + length)
    | none => return some (offset - 1, offset + 2 + (← c.pool.bytes.get16 offset).toNat)

end ClassFile

/-! ## Attributes by name -/

/-- Whether the attribute's name is a text constant with the given text. -/
def Attribute.isNamed (pool : ConstantTable) (name : String) (a : Attribute) :
    Except Error Bool := do
  if pool.tag? a.name = some .utf8 then return (← pool.text a.name) == name else return false

/-- The first attribute of the given name. -/
def findAttribute? (pool : ConstantTable) (attributes : List Attribute) (name : String) :
    Except Error (Option Attribute) :=
  attributes.findM? (Attribute.isNamed pool name)

/-- The content of the first attribute named `Code`, if there is one. -/
def findCode? (pool : ConstantTable) (attributes : List Attribute) : Except Error (Option Code) := do
  match ← findAttribute? pool attributes AttributeName.code.text with
  | some a => some <$> Decoder.code.run a.info
  | none => return none

end JavaClass
