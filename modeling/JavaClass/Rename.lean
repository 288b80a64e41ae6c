import JavaClass.ClassFile

/-!
# Renaming a class

The name of a class stands in one text constant. Renaming replaces the bytes of that entry and
copies all others, so indexes stay valid, and whatever else refers to the same text changes too.
-/

namespace JavaClass

inductive RenameError
  | classFile (error : Error)
  | markerNotFound (name marker : String)
  | nameTooLong (length : Nat)
  deriving DecidableEq, Repr

def RenameError.message : RenameError → String
  | classFile error => error.message
  | markerNotFound name marker => "Class " ++ name ++ " has no " ++ marker ++ " marker"
  | nameTooLong length => s!"New class name is {length} bytes long, at most 65535 allowed"

instance : MonadLift (Except Error) (Except RenameError) := ⟨Except.mapError .classFile⟩

namespace Rename

/-- Separates the real name of a class from a suffix, as in `Strings$$$$9`. -/
def defaultMarker : String := "$$$$"

/-- The name of the class in `bytes`. -/
def className (bytes : Bytes) : Except Error String := do
  (← ClassFile.parse bytes).thisName

/-- The index of the text that holds the class name. -/
def nameIndex (c : ClassFile) : Except Error UInt16 := do
  c.pool.expect c.thisClass .classInfo
  let index ← c.pool.reference c.thisClass
  c.pool.expect index .utf8
  return index

/-- The whole entry of an encoded text. -/
def textEntry (text : Bytes) : Bytes :=
  (Tag.utf8.byte :: bytes16 (UInt16.ofNat text.size)).toArray ++ text

/-- Replaces the bytes from `range.1` up to `range.2`. -/
def splice (bytes : Bytes) (range : Nat × Nat) (replacement : Bytes) : Bytes :=
  bytes.extract 0 range.1 ++ replacement ++ bytes.extract range.2 bytes.size

/-- A copy of `bytes` in which the class has a new name. -/
def renameClass (bytes : Bytes) (newName : String) : Except RenameError Bytes := do
  let c ← ClassFile.parse bytes
  let index ← nameIndex c
  match ← c.entryRange index with
  | none => throw (.classFile (.unexpectedEntry .utf8 none))
  | some range =>
    let name := ModifiedUtf8.encode newName
    if name.size > 65535 then throw (.nameTooLong name.size)
    return splice bytes range (textEntry name)

/-- The characters in front of the first occurrence of `marker` in `text`; `seen` are the
characters already passed, the last one first. -/
def beforeMarker? (marker seen : List Char) : List Char → Option (List Char)
  | [] => if marker.isEmpty then some seen.reverse else none
  | c :: rest =>
    if marker.isPrefixOf (c :: rest) then some seen.reverse
    else beforeMarker? marker (c :: seen) rest

/-- A class with its new name. -/
structure Renamed where
  name : String
  bytes : Bytes
  deriving DecidableEq, Repr

/-- The file of a class: the name after the last slash, with an extension. -/
def Renamed.fileName (r : Renamed) : String :=
  String.ofList (r.name.toList.reverse.takeWhile (· ≠ '/')).reverse ++ ".class"

/-- Renames a class to what stands before the marker in its name. -/
def stripMarker (bytes : Bytes) (marker : String) : Except RenameError Renamed := do
  let origin ← className bytes
  match beforeMarker? marker.toList [] origin.toList with
  | none => throw (.markerNotFound origin marker)
  | some kept =>
    let name := String.ofList kept
    return ⟨name, ← renameClass bytes name⟩

end Rename
end JavaClass
