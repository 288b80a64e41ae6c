/-!
# Constant tags

The byte that opens every constant pool entry, the shape of the payload behind it, and the number
of pool slots the entry takes.
-/

namespace JavaClass

/-- What kind of constant an entry holds. -/
inductive Tag
  | utf8
  | integer
  | float
  | long
  | double
  | classInfo
  | string
  | fieldRef
  | methodRef
  | interfaceMethodRef
  | nameAndType
  | methodHandle
  | methodType
  | dynamic
  | invokeDynamic
  | moduleInfo
  | packageInfo
  deriving DecidableEq, Repr

/-- How the payload behind a tag is laid out. -/
inductive Shape
  /-- a 16-bit length, then that many bytes of text -/
  | text
  /-- one pool index -/
  | reference
  /-- a reference kind and one pool index -/
  | handle
  /-- four bytes: a number or two pool indexes -/
  | word
  /-- eight bytes, and a second slot that stays unusable -/
  | wide
  deriving DecidableEq, Repr

namespace Tag

/-- Every tag, in the order of its byte. -/
def all : List Tag :=
  [utf8, integer, float, long, double, classInfo, string, fieldRef, methodRef, interfaceMethodRef,
    nameAndType, methodHandle, methodType, dynamic, invokeDynamic, moduleInfo, packageInfo]

/-- The byte that stands for the tag in a class file. -/
def byte : Tag → UInt8
  | utf8 => 1
  | integer => 3
  | float => 4
  | long => 5
  | double => 6
  | classInfo => 7
  | string => 8
  | fieldRef => 9
  | methodRef => 10
  | interfaceMethodRef => 11
  | nameAndType => 12
  | methodHandle => 15
  | methodType => 16
  | dynamic => 17
  | invokeDynamic => 18
  | moduleInfo => 19
  | packageInfo => 20

/-- The tag a byte stands for; 2, 13, 14 and everything above 20 stand for none. -/
def ofByte? (b : UInt8) : Option Tag :=
  all.find? fun t => t.byte == b

/-- The layout of the payload. -/
def shape : Tag → Shape
  | utf8 => .text
  | classInfo | string | methodType | moduleInfo | packageInfo => .reference
  | methodHandle => .handle
  | long | double => .wide
  | integer | float | fieldRef | methodRef | interfaceMethodRef | nameAndType | dynamic
  | invokeDynamic => .word

/-- Bytes behind the tag; `none` for text, whose own length field says. -/
def payloadLength? (t : Tag) : Option Nat :=
  match t.shape with
  | .text => none
  | .reference => some 2
  | .handle => some 3
  | .word => some 4
  | .wide => some 8

/-- Pool slots the entry takes. -/
def slots (t : Tag) : Nat :=
  match t.shape with
  | .wide => 2
  | _ => 1

/-- The name the class file specification gives the constant. -/
def name : Tag → String
  | utf8 => "Utf8"
  | integer => "Integer"
  | float => "Float"
  | long => "Long"
  | double => "Double"
  | classInfo => "Class"
  | string => "String"
  | fieldRef => "Fieldref"
  | methodRef => "Methodref"
  | interfaceMethodRef => "InterfaceMethodref"
  | nameAndType => "NameAndType"
  | methodHandle => "MethodHandle"
  | methodType => "MethodType"
  | dynamic => "Dynamic"
  | invokeDynamic => "InvokeDynamic"
  | moduleInfo => "Module"
  | packageInfo => "Package"

/-- The name used in error messages: as `name`, with every word of it capitalised. -/
def label : Tag → String
  | fieldRef => "FieldRef"
  | methodRef => "MethodRef"
  | interfaceMethodRef => "InterfaceMethodRef"
  | t => t.name

theorem ofByte?_byte (t : Tag) : ofByte? t.byte = some t := by
  cases t <;> rfl

end Tag
end JavaClass
