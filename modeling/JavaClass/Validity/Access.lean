import JavaClass.Error
import JavaClass.ReferenceKind

/-!
# Legal tags, reference kinds and access flags

Checks that a caller may make between the steps of building or after reading a class. Nothing else
in the library makes them by itself.
-/

namespace JavaClass.Validity

/-- Fails for a version older than the one that brought the feature. -/
def require (feature : Feature) (required found : Version) : Except Error Unit :=
  if found.major < required.major then .error (.versionGated feature required.major found)
  else .ok ()

/-- The version that brought a constant; `none` for those that were always there. -/
def tagSince? : Tag → Option Version
  | .methodHandle | .methodType | .invokeDynamic => some .v1_7
  | .moduleInfo | .packageInfo => some .v9
  | .dynamic => some .v11
  | _ => none

/-- Fails if constants with the tag did not exist in the version. -/
def checkTag (tag : Tag) (version : Version) : Except Error Unit :=
  match tagSince? tag with
  | some required => require (.constant tag) required version
  | none => .ok ()

def checkReferenceKind (kind : UInt8) : Except Error Unit :=
  if ReferenceKind.getField ≤ kind ∧ kind ≤ ReferenceKind.invokeInterface then .ok ()
  else .error (.invalid (.referenceKind kind))

open AccessFlags

/-- Fails with the rule if the flags break it. -/
def forbid (flags : AccessFlags) (broken : Bool) (rule : FlagRule) : Except Error Unit :=
  if broken then .error (.invalid (.accessFlags flags rule)) else .ok ()

def checkVisibility (flags : AccessFlags) : Except Error Unit :=
  forbid flags (decide (flags.visibilityCount > 1)) .oneVisibility

def checkClass (flags : AccessFlags) (version : Version) : Except Error Unit := do
  if flags.contains moduleFlag then
    require .moduleAccess .v9 version
    forbid flags (flags - syntheticFlag != moduleFlag) .moduleAlone
  else
    forbid flags (flags.intersects (privateFlag ||| protectedFlag)) .classVisibility
    if flags.contains interfaceFlag then
      forbid flags (!flags.contains abstractFlag) .interfaceIsAbstract
      forbid flags (flags.intersects (finalFlag ||| superFlag ||| enumFlag)) .interfaceExclusions
    else
      forbid flags (flags.contains annotationFlag) .annotationIsInterface
      forbid flags (flags.contains (finalFlag ||| abstractFlag)) .finalNotAbstract

def checkField (flags : AccessFlags) : Except Error Unit := do
  checkVisibility flags
  forbid flags (flags.contains (finalFlag ||| volatileFlag)) .finalNotVolatile

/-- Flags that an instance initializer may not have. -/
def initializerExclusions : AccessFlags :=
  staticFlag ||| finalFlag ||| synchronizedFlag ||| bridgeFlag ||| nativeFlag ||| abstractFlag

/-- Flags that an abstract method may not have. -/
def abstractExclusions : AccessFlags :=
  privateFlag ||| staticFlag ||| finalFlag ||| synchronizedFlag ||| nativeFlag

/-- Method flags, with the further rules for the two kinds of initializer. -/
def checkMethod (flags : AccessFlags) (name : String) (version : Version) : Except Error Unit := do
  checkVisibility flags
  if name = "<init>" then
    forbid flags (flags.intersects initializerExclusions) .instanceInitializer
  else if name = "<clinit>" ∧ Version.v1_7 ≤ version then
    forbid flags (!flags.contains staticFlag) .staticInitializer
  if flags.contains abstractFlag then
    forbid flags (flags.intersects abstractExclusions) .abstractExclusions
    if Version.v1_2 ≤ version ∧ version < .v17 then
      forbid flags (flags.contains strictFlag) .abstractNotStrict

end JavaClass.Validity
