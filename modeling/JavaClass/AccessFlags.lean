/-!
# Access flags

Sixteen bits on a class, field or method. Some bits have two names and are told apart by where they
stand: the bit `super` on a class is `synchronized` on a method.
-/

namespace JavaClass

structure AccessFlags where
  bits : UInt16
  deriving DecidableEq, Repr

namespace AccessFlags

def publicFlag : AccessFlags := ⟨0x0001⟩
def privateFlag : AccessFlags := ⟨0x0002⟩
def protectedFlag : AccessFlags := ⟨0x0004⟩
def staticFlag : AccessFlags := ⟨0x0008⟩
def finalFlag : AccessFlags := ⟨0x0010⟩
def superFlag : AccessFlags := ⟨0x0020⟩
def synchronizedFlag : AccessFlags := ⟨0x0020⟩
def volatileFlag : AccessFlags := ⟨0x0040⟩
def bridgeFlag : AccessFlags := ⟨0x0040⟩
def transientFlag : AccessFlags := ⟨0x0080⟩
def varargsFlag : AccessFlags := ⟨0x0080⟩
def nativeFlag : AccessFlags := ⟨0x0100⟩
def interfaceFlag : AccessFlags := ⟨0x0200⟩
def abstractFlag : AccessFlags := ⟨0x0400⟩
def strictFlag : AccessFlags := ⟨0x0800⟩
def syntheticFlag : AccessFlags := ⟨0x1000⟩
def annotationFlag : AccessFlags := ⟨0x2000⟩
def enumFlag : AccessFlags := ⟨0x4000⟩
def moduleFlag : AccessFlags := ⟨0x8000⟩
def mandatedFlag : AccessFlags := ⟨0x8000⟩

/-- The three bits of which a member may carry at most one. -/
def visibility : AccessFlags := ⟨0x0007⟩

def empty : AccessFlags := ⟨0⟩

/-- All sixteen bits; each of them has a name. -/
def all : AccessFlags := ⟨0xFFFF⟩

/-- The names, in the order in which they are listed. -/
def named : List (String × AccessFlags) :=
  [("PUBLIC", publicFlag), ("PRIVATE", privateFlag), ("PROTECTED", protectedFlag),
    ("STATIC", staticFlag), ("FINAL", finalFlag), ("SUPER", superFlag),
    ("SYNCHRONIZED", synchronizedFlag), ("VOLATILE", volatileFlag), ("BRIDGE", bridgeFlag),
    ("TRANSIENT", transientFlag), ("VARARGS", varargsFlag), ("NATIVE", nativeFlag),
    ("INTERFACE", interfaceFlag), ("ABSTRACT", abstractFlag), ("STRICT", strictFlag),
    ("SYNTHETIC", syntheticFlag), ("ANNOTATION", annotationFlag), ("ENUM", enumFlag),
    ("MODULE", moduleFlag), ("MANDATED", mandatedFlag), ("VISIBILITY", visibility)]

def union (a b : AccessFlags) : AccessFlags := ⟨a.bits ||| b.bits⟩
def inter (a b : AccessFlags) : AccessFlags := ⟨a.bits &&& b.bits⟩
/-- The bits of `a` that are not in `b`. -/
def diff (a b : AccessFlags) : AccessFlags := ⟨a.bits &&& ~~~b.bits⟩
/-- The bits that are in exactly one of the two. -/
def symmDiff (a b : AccessFlags) : AccessFlags := ⟨a.bits ^^^ b.bits⟩
def complement (a : AccessFlags) : AccessFlags := ⟨~~~a.bits⟩

instance : OrOp AccessFlags := ⟨union⟩
instance : AndOp AccessFlags := ⟨inter⟩
instance : XorOp AccessFlags := ⟨symmDiff⟩
instance : Sub AccessFlags := ⟨diff⟩
instance : Complement AccessFlags := ⟨complement⟩

def isEmpty (a : AccessFlags) : Bool := a.bits == 0
def isAll (a : AccessFlags) : Bool := a.bits == all.bits
/-- Every bit of `b` is in `a`. -/
def contains (a b : AccessFlags) : Bool := a.bits &&& b.bits == b.bits
/-- Some bit is in both. -/
def intersects (a b : AccessFlags) : Bool := a.bits &&& b.bits != 0

/-- How many of the visibility bits are set. -/
def visibilityCount (a : AccessFlags) : Nat :=
  [publicFlag, privateFlag, protectedFlag].countP a.contains

/-- All names whose bits are set; a bit with two names is listed under both. -/
def describe (a : AccessFlags) : String :=
  if a.isEmpty then "(empty)"
  else " | ".intercalate ((named.filter fun entry => a.contains entry.2).map Prod.fst)

end AccessFlags
end JavaClass
