import JavaClass.AccessFlags
import JavaClass.Hex
import JavaClass.Tag
import JavaClass.Version

/-!
# Errors

Why an operation on a class file fails, and the wording of each cause.
-/

namespace JavaClass

/-- What a 16-bit count in the class file counts, or a length that has to fit its field. -/
inductive Counted
  | interfaces
  | fields
  | methods
  | attributes
  | nestedAttributes
  | attributeLength
  deriving DecidableEq, Repr

def Counted.name : Counted → String
  | interfaces => "interfaces"
  | fields => "fields"
  | methods => "methods"
  | attributes => "attributes"
  | nestedAttributes => "nested attributes"
  | attributeLength => "attribute length"

/-- Something that only exists from some version on. -/
inductive Feature
  | constant (tag : Tag)
  | moduleAccess
  deriving DecidableEq, Repr

def Feature.name : Feature → String
  | constant tag => tag.name
  | moduleAccess => "ACC_MODULE"

/-- A rule that a set of access flags breaks. -/
inductive FlagRule
  | oneVisibility
  | moduleAlone
  | classVisibility
  | interfaceIsAbstract
  | interfaceExclusions
  | annotationIsInterface
  | finalNotAbstract
  | finalNotVolatile
  | instanceInitializer
  | staticInitializer
  | abstractExclusions
  | abstractNotStrict
  deriving DecidableEq, Repr

def FlagRule.reason : FlagRule → String
  | oneVisibility => "more than one visibility flag"
  | moduleAlone => "ACC_MODULE must stand alone"
  | classVisibility => "classes are either public or package-private"
  | interfaceIsAbstract => "ACC_INTERFACE requires ACC_ABSTRACT"
  | interfaceExclusions => "ACC_INTERFACE excludes ACC_FINAL, ACC_SUPER and ACC_ENUM"
  | annotationIsInterface => "ACC_ANNOTATION requires ACC_INTERFACE"
  | finalNotAbstract => "ACC_FINAL and ACC_ABSTRACT are exclusive"
  | finalNotVolatile => "ACC_FINAL and ACC_VOLATILE are exclusive"
  | instanceInitializer => "not allowed on an instance initializer"
  | staticInitializer => "<clinit> must be ACC_STATIC"
  | abstractExclusions =>
    "ACC_ABSTRACT excludes ACC_PRIVATE, ACC_STATIC, ACC_FINAL, ACC_SYNCHRONIZED and ACC_NATIVE"
  | abstractNotStrict => "ACC_ABSTRACT excludes ACC_STRICT"

/-- A class file that is laid out correctly but not legal. -/
inductive Violation
  | accessFlags (flags : AccessFlags) (rule : FlagRule)
  | referenceKind (kind : UInt8)
  /-- a constant that only `module-info` may hold -/
  | outsideModule (index : UInt16) (tag : Tag)
  /-- a rule of the caller's own -/
  | other (text : String)
  deriving DecidableEq, Repr

def Violation.message : Violation → String
  | accessFlags flags rule =>
    "0x" ++ hexUpper flags.bits.toNat 4 ++ " is an invalid access flags value: " ++ rule.reason
  | referenceKind kind => toString kind.toNat ++ " is not a method handle reference kind"
  | outsideModule index tag =>
    "#" ++ toString index.toNat ++ ": " ++ tag.name ++ " constants only appear in module-info"
  | other text => text

/-- Why an operation on a class file fails. -/
inductive Error
  | unexpectedEntry (expected : Tag) (found : Option Tag)
  | invalidTag (byte : UInt8)
  | invalidMagic (magic : UInt32)
  /-- `needed` bytes were due at `offset`, but the data end at `length` -/
  | truncated (offset needed length : Nat)
  | textTooLong (excerpt : String) (length : Nat)
  | poolOverflow (slots : Nat)
  | countOverflow (what : Counted) (count : Nat)
  | indexesMoved (count : Nat)
  | versionGated (feature : Feature) (required : UInt16) (found : Version)
  | invalid (violation : Violation)
  | malformedText (offset : Nat)
  | unpairedSurrogate
  /-- the destination or the file system refused -/
  | io
  /-- an offset or index that the caller vouched for lies outside the data -/
  | outOfRange
  deriving DecidableEq, Repr

namespace Error

private def foundLabel : Option Tag → String
  | none => "None"
  | some tag => "Some(" ++ tag.label ++ ")"

/-- The wording of each cause. -/
def message : Error → String
  | unexpectedEntry expected found =>
    "Expected " ++ expected.label ++ ", found " ++ foundLabel found
  | invalidTag byte => s!"Invalid cp info tag: {byte.toNat}"
  | invalidMagic magic => "Invalid magic identifier: 0x" ++ hexUpper magic.toNat 1
  | truncated offset needed length =>
    s!"Truncated class file: {needed} bytes needed at offset {offset}, only {length} available"
  | textTooLong excerpt length => s!"Utf8 ({excerpt}) too long: {length} bytes"
  | poolOverflow slots => s!"Constant pool too large: {slots} slots, at most 65535 allowed"
  | countOverflow what count => s!"Too many {what.name}: {count}, at most 65535 allowed"
  | indexesMoved count => s!"{count} constants changed index while copying the constant pool"
  | versionGated feature required found =>
    s!"{feature.name} require ClassFile V{required.toNat}, found {found}"
  | invalid violation => violation.message
  | malformedText offset => s!"Malformed modified UTF-8 at byte {offset}"
  | unpairedSurrogate => "Modified UTF-8 encodes an unpaired surrogate"
  | io => "Input or output failed"
  | outOfRange => "Index or offset out of range"

end Error

/-- A computation that may fail, as a step that leaves the state alone. -/
instance {σ : Type} : MonadLift (Except Error) (EStateM Error σ) where
  monadLift result s :=
    match result with
    | .ok a => .ok a s
    | .error e => .error e s

end JavaClass
