import JavaClass.Constant.Table
import JavaClass.Validity.Access

/-!
# Legal constant pools

Each constant must exist in the version, and its references must lead to constants of the tags it
needs. The first constant that breaks a rule decides the error.
-/

namespace JavaClass.Validity

/-- The tag that a method handle of the kind refers to. -/
def handleTarget (kind : UInt8) : Tag :=
  if kind ≤ ReferenceKind.putStatic then .fieldRef
  else if kind = ReferenceKind.invokeInterface then .interfaceMethodRef
  else .methodRef

/-- Whether a handle of the kind may also refer to an interface method in the version. -/
def allowsInterfaceMethod (kind : UInt8) (version : Version) : Bool :=
  (kind == ReferenceKind.invokeStatic || kind == ReferenceKind.invokeSpecial) &&
    decide (Version.v1_8 ≤ version)

/-- Whether a handle of the kind may refer to an entry with the tag. -/
def handleAccepts (kind : UInt8) (version : Version) (found : Option Tag) : Bool :=
  found == some (handleTarget kind) ||
    (allowsInterfaceMethod kind version && found == some .interfaceMethodRef)

def checkHandle (t : ConstantTable) (version : Version) (kind : UInt8) (target : UInt16) :
    Except Error Unit := do
  checkReferenceKind kind
  let found := t.tag? target
  if handleAccepts kind version found then .ok ()
  else .error (.unexpectedEntry (handleTarget kind) found)

/-- Follows the references of an entry whose tag is known. -/
def checkReferences (t : ConstantTable) (version : Version) (index : UInt16) (tag : Tag) :
    Except Error Unit := do
  match tag with
  | .classInfo | .string | .methodType | .moduleInfo | .packageInfo =>
    t.expect (← t.reference index) .utf8
  | .nameAndType =>
    let (name, descriptor) ← t.references index
    t.expect name .utf8
    t.expect descriptor .utf8
  | .fieldRef | .methodRef | .interfaceMethodRef =>
    let (owner, member) ← t.references index
    t.expect owner .classInfo
    t.expect member .nameAndType
  | .dynamic | .invokeDynamic =>
    let (_, member) ← t.references index
    t.expect member .nameAndType
  | .methodHandle =>
    let (kind, target) ← t.handle index
    checkHandle t version kind target
  | .utf8 | .integer | .float | .long | .double => .ok ()

/-- Whether constants with the tag belong into `module-info` only. -/
def isModuleOnly (tag : Tag) : Bool := tag == .moduleInfo || tag == .packageInfo

def checkEntry (t : ConstantTable) (version : Version) (inModule : Bool) (index : UInt16) :
    Except Error Unit :=
  match t.tag? index with
  | none => .ok ()
  | some tag => do
    checkTag tag version
    if isModuleOnly tag && !inModule then .error (.invalid (.outsideModule index tag))
    else checkReferences t version index tag

/-- Checks every constant that a 16-bit count can reach. -/
def checkPool (t : ConstantTable) (version : Version) (inModule : Bool) : Except Error Unit :=
  (List.range' 1 (t.count % 65536 - 1)).forM fun index =>
    checkEntry t version inModule (UInt16.ofNat index)

end JavaClass.Validity
