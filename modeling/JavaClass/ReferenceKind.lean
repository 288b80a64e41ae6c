/-!
# Reference kinds

The byte in a method handle that says what the handle does with its reference.
-/

namespace JavaClass.ReferenceKind

def getField : UInt8 := 1
def getStatic : UInt8 := 2
def putField : UInt8 := 3
def putStatic : UInt8 := 4
def invokeVirtual : UInt8 := 5
def invokeStatic : UInt8 := 6
def invokeSpecial : UInt8 := 7
def newInvokeSpecial : UInt8 := 8
def invokeInterface : UInt8 := 9

/-- The nine kinds in the order of their bytes. -/
def all : List UInt8 :=
  [getField, getStatic, putField, putStatic, invokeVirtual, invokeStatic, invokeSpecial,
    newInvokeSpecial, invokeInterface]

end JavaClass.ReferenceKind
