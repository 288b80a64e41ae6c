/-!
# Well-known attribute names

The attribute names that a pool remembers once they have been interned, and the table that it keeps
them in.
-/

namespace JavaClass

inductive AttributeName
  | constantValue
  | code
  | stackMapTable
  | bootstrapMethods
  | exceptions
  | innerClasses
  | synthetic
  | signature
  | sourceFile
  | lineNumberTable
  | localVariableTable
  | deprecated
  | runtimeVisibleAnnotations
  | runtimeInvisibleAnnotations
  | runtimeVisibleParameterAnnotations
  | runtimeInvisibleParameterAnnotations
  | runtimeVisibleTypeAnnotations
  | runtimeInvisibleTypeAnnotations
  | annotationDefault
  | methodParameters
  deriving DecidableEq, Repr

namespace AttributeName

def all : List AttributeName :=
  [constantValue, code, stackMapTable, bootstrapMethods, exceptions, innerClasses, synthetic,
    signature, sourceFile, lineNumberTable, localVariableTable, deprecated,
    runtimeVisibleAnnotations, runtimeInvisibleAnnotations, runtimeVisibleParameterAnnotations,
    runtimeInvisibleParameterAnnotations, runtimeVisibleTypeAnnotations,
    runtimeInvisibleTypeAnnotations, annotationDefault, methodParameters]

/-- How many names there are. -/
def count : Nat := 20

/-- The position of the name in the order above. -/
def place (name : AttributeName) : Fin count := ⟨name.ctorIdx, by cases name <;> decide⟩

theorem place_inj {a b : AttributeName} : a.place = b.place ↔ a = b := by
  refine ⟨fun h => ?_, congrArg place⟩
  have hctor : a.ctorIdx = b.ctorIdx := congrArg Fin.val h
  rw [← ofNat_ctorIdx a, hctor, ofNat_ctorIdx]

/-- The name as it stands in the pool. -/
def text : AttributeName → String
  | constantValue => "ConstantValue"
  | code => "Code"
  | stackMapTable => "StackMapTable"
  | bootstrapMethods => "BootstrapMethods"
  | exceptions => "Exceptions"
  | innerClasses => "InnerClasses"
  | synthetic => "Synthetic"
  | signature => "Signature"
  | sourceFile => "SourceFile"
  | lineNumberTable => "LineNumberTable"
  | localVariableTable => "LocalVariableTable"
  | deprecated => "Deprecated"
  | runtimeVisibleAnnotations => "RuntimeVisibleAnnotations"
  | runtimeInvisibleAnnotations => "RuntimeInvisibleAnnotations"
  | runtimeVisibleParameterAnnotations => "RuntimeVisibleParameterAnnotations"
  | runtimeInvisibleParameterAnnotations => "RuntimeInvisibleParameterAnnotations"
  | runtimeVisibleTypeAnnotations => "RuntimeVisibleTypeAnnotations"
  | runtimeInvisibleTypeAnnotations => "RuntimeInvisibleTypeAnnotations"
  | annotationDefault => "AnnotationDefault"
  | methodParameters => "MethodParameters"

end AttributeName

/-- The index of each attribute name in a pool. No text has index 0, so zero stands for a name that
has not been asked for yet. -/
structure NameCache where
  indexes : Vector UInt16 AttributeName.count

namespace NameCache

instance : EmptyCollection NameCache := ⟨⟨.replicate AttributeName.count 0⟩⟩

def get? (cache : NameCache) (name : AttributeName) : Option UInt16 :=
  let index := cache.indexes[name.place]
  if index = 0 then none else some index

def insert (cache : NameCache) (name : AttributeName) (index : UInt16) : NameCache :=
  ⟨cache.indexes.set name.place index⟩

@[simp] theorem get?_empty (name : AttributeName) : (∅ : NameCache).get? name = none := by
  show (if (Vector.replicate AttributeName.count (0 : UInt16))[name.place] = 0 then _ else _) = _
  simp

theorem get?_insert (cache : NameCache) (name other : AttributeName) (index : UInt16) :
    (cache.insert name index).get? other =
      if name = other then (if index = 0 then none else some index) else cache.get? other := by
  unfold get? insert
  by_cases h : name = other
  · subst h
    simp
  · have hplace : (name.place : Nat) ≠ other.place := fun heq =>
      h (AttributeName.place_inj.mp (Fin.ext heq))
    simp [h, hplace]

end NameCache
end JavaClass
