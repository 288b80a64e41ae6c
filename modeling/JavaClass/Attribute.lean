import JavaClass.AccessFlags
import JavaClass.Bytes

/-!
# Attributes and members

The parts of a class file that repeat: attributes, fields and methods, and the one attribute that
has a layout of its own here, `Code`.
-/

namespace JavaClass

/-- A named piece of bytes. The name is the index of a text in the pool. -/
structure Attribute where
  name : UInt16
  info : Bytes
  deriving DecidableEq, Repr

namespace Attribute

/-- A short text that tells the name and how long the content is. -/
def describe (a : Attribute) : String :=
  s!"RawAttribute \x7b name_index: {a.name.toNat}, info: \"({a.info.size} bytes)\" \x7d"

end Attribute

/-- A field or a method. -/
structure Member where
  flags : AccessFlags
  name : UInt16
  descriptor : UInt16
  attributes : List Attribute
  deriving DecidableEq, Repr

/-- A stretch of code and where to go when it throws. -/
structure ExceptionHandler where
  startPc : UInt16
  endPc : UInt16
  handlerPc : UInt16
  catchType : UInt16
  deriving DecidableEq, Repr

/-- The content of a `Code` attribute. -/
structure Code where
  maxStack : UInt16
  maxLocals : UInt16
  instructions : Bytes
  handlers : List ExceptionHandler
  attributes : List Attribute
  deriving DecidableEq, Repr

end JavaClass
