import JavaClass.Draft

/-!
# Classes under construction

Each section of a class grows in a buffer of its own: the constant pool, the header with the
fields, the methods, and the attributes of the class. They are put together only when the class is
serialized, so fields, methods, attributes and constants may come in any order.
-/

namespace JavaClass

/-- What every class file starts with. -/
def magic : UInt32 := 0xCAFEBABE

structure ClassDraft where
  version : Version
  pool : ConstantPool
  /-- the class header, then the fields -/
  body : ByteBuffer
  methods : ByteBuffer
  attributes : ByteBuffer
  /-- the reserved number of fields; `none` before the header and after the end -/
  fields : Option CountSlot
  methodCount : UInt32
  attributeCount : UInt32

/-- Initial sizes of the buffers. -/
structure DraftOptions where
  poolGrowth : Growth := .pool
  poolCapacity : Nat := 200
  bodyCapacity : Nat := 75
  methodCapacity : Nat := 0
  attributeCapacity : Nat := 100

/-- The buffers that attributes are written into. -/
inductive Section
  | body
  | methods
  | attributes
  deriving DecidableEq, Repr

/-- A field or method under construction. -/
structure MemberDraft where
  place : Section
  attributes : AttributeList
  deriving DecidableEq, Repr

namespace ClassDraft

def withOptions (options : DraftOptions) : ClassDraft where
  version := .v1_8
  pool := .withPolicy options.poolCapacity options.poolGrowth
  body := .withCapacity options.bodyCapacity
  methods := .withCapacity options.methodCapacity
  attributes := .withCapacity options.attributeCapacity
  fields := none
  methodCount := 0
  attributeCount := 0

def empty : ClassDraft := withOptions {}

instance : Inhabited ClassDraft := ⟨empty⟩

/-- A section together with the pool. -/
def draft (c : ClassDraft) : Section → Draft
  | .body => ⟨c.body, c.pool⟩
  | .methods => ⟨c.methods, c.pool⟩
  | .attributes => ⟨c.attributes, c.pool⟩

/-- Replaces a section and the pool. -/
def withDraft (c : ClassDraft) (s : Section) (d : Draft) : ClassDraft :=
  match s with
  | .body => { c with body := d.buffer, pool := d.pool }
  | .methods => { c with methods := d.buffer, pool := d.pool }
  | .attributes => { c with attributes := d.buffer, pool := d.pool }

/-! ## Serializing -/

/-- Length of the serialized class. -/
def encodedLength (c : ClassDraft) : Nat :=
  10 + c.pool.entries.size + c.body.size + 2 + c.methods.size + 2 + c.attributes.size

/-- The serialized class in the pieces that are written one after the other. All counts are
checked before the first piece. -/
def pieces (c : ClassDraft) : Except Error (List Bytes) := do
  let poolCount ← c.pool.encodedCount
  let methodCount ← count16 .methods c.methodCount
  let attributeCount ← count16 .attributes c.attributeCount
  return [(bytes32 magic).toArray, (bytes16 c.version.minor).toArray,
    (bytes16 c.version.major).toArray, (bytes16 poolCount).toArray, c.pool.entries.data,
    c.body.data, (bytes16 methodCount).toArray, c.methods.data, (bytes16 attributeCount).toArray,
    c.attributes.data]

/-- Writes the serialized class to a destination that may refuse. -/
def writeTo {σ : Type} (c : ClassDraft) (write : Bytes → EStateM Error σ Unit) :
    EStateM Error σ Unit := do
  let pieces ← c.pieces
  pieces.forM write

/-- A destination with room for `limit` bytes. What fits of a piece is accepted, then it refuses. -/
def limitedWrite (limit : Nat) (piece : Bytes) : EStateM Error Bytes Unit := do
  let room := limit - (← get).size
  modify (· ++ piece.extract 0 room)
  if room < piece.size then throw .io

/-- The serialized class. -/
def toBytes (c : ClassDraft) : Except Error Bytes :=
  match c.writeTo (fun piece => modify (· ++ piece)) (#[] : Bytes) with
  | .ok _ bytes => .ok bytes
  | .error e _ => .error e

end ClassDraft

/-- A step of building a class. -/
abbrev ClassM (α : Type) := EStateM Error ClassDraft α

namespace ClassM

variable {α : Type}

/-- A step of writing in one of the sections. -/
def within (s : Section) (step : DraftM α) : ClassM α := fun c =>
  let draft := c.draft s
  let c := c.withDraft s default
  match step draft with
  | .ok a draft => .ok a (c.withDraft s draft)
  | .error e draft => .error e (c.withDraft s draft)

/-- A call on the pool. -/
def onPool (call : PoolM α) : ClassM α := fun c =>
  let pool := c.pool
  let c := { c with pool := default }
  match call pool with
  | .ok a pool => .ok a { c with pool }
  | .error e pool => .error e { c with pool }

/-- Writes version and class header, and reserves the number of fields. Indexes are those of the
class's own pool. The interfaces are counted in 32 bits before their number is checked. -/
def header (version : Version) (flags : AccessFlags) (thisClass superClass : UInt16)
    (interfaces : List UInt16) : ClassM Unit := do
  let interfaceCount ← count16 .interfaces (UInt32.ofNat interfaces.length)
  modify fun c => { c with version }
  let slot ← within .body do
    DraftM.onBuffer (·.putMemberHeader flags.bits thisClass superClass)
    DraftM.onBuffer (·.put16 interfaceCount)
    DraftM.onBuffer fun b => interfaces.foldl (·.put16 ·) b
    CountSlot.start
  modify fun c => { c with fields := some slot }

/-- As `header`, with names in the place of indexes. A class without a super class has index 0
there. -/
def namedHeader (version : Version) (flags : AccessFlags) (thisClass : String)
    (superClass : Option String) (interfaces : List String) : ClassM Unit := do
  let thisIndex ← onPool (PoolM.classInfo thisClass)
  let superIndex ← match superClass with
    | some name => onPool (PoolM.classInfo name)
    | none => pure 0
  let indexes ← interfaces.mapM fun name => onPool (PoolM.classInfo name)
  header version flags thisIndex superIndex indexes

/-- Writes the words in front of a member's attributes, and starts those. -/
def startMember (place : Section) (flags : AccessFlags) (name descriptor : UInt16) :
    ClassM MemberDraft :=
  within place do
    DraftM.onBuffer (·.putMemberHeader flags.bits name descriptor)
    return ⟨place, ← AttributeList.start⟩

/-- Counts one more field; the number of fields is reserved now if there was no header. -/
def countField : ClassM Unit := do
  let slot ← match (← get).fields with
    | some slot => pure slot
    | none => within .body CountSlot.start
  modify fun c => { c with fields := some { slot with count := slot.count + 1 } }

def startField (flags : AccessFlags) (name descriptor : UInt16) : ClassM MemberDraft := do
  countField
  startMember .body flags name descriptor

def startMethod (flags : AccessFlags) (name descriptor : UInt16) : ClassM MemberDraft := do
  modify fun c => { c with methodCount := c.methodCount + 1 }
  startMember .methods flags name descriptor

/-- As `startField`, with texts in the place of indexes. -/
def addField (flags : AccessFlags) (name descriptor : String) : ClassM MemberDraft := do
  let nameIndex ← onPool (PoolM.text name)
  let descriptorIndex ← onPool (PoolM.text descriptor)
  startField flags nameIndex descriptorIndex

/-- As `startMethod`, with texts in the place of indexes. -/
def addMethod (flags : AccessFlags) (name descriptor : String) : ClassM MemberDraft := do
  let nameIndex ← onPool (PoolM.text name)
  let descriptorIndex ← onPool (PoolM.text descriptor)
  startMethod flags nameIndex descriptorIndex

/-- A step on the attribute list of a member. -/
def onMember (m : MemberDraft) (step : AttributeList → DraftM (α × AttributeList)) :
    ClassM (α × MemberDraft) := do
  let (a, attributes) ← within m.place (step m.attributes)
  return (a, { m with attributes })

def finishMember (m : MemberDraft) : ClassM Unit :=
  within m.place (m.attributes.finish .attributes)

/-- A step on the attribute list of the class itself. -/
def onAttributes (step : AttributeList → DraftM (α × AttributeList)) : ClassM α := do
  let count := (← get).attributeCount
  let (a, attributes) ← within .attributes (step (.tallied count))
  modify fun c => { c with attributeCount := attributes.count }
  return a

/-- Patches the number of fields and checks every count that serializing needs. -/
def finish : ClassM Unit := do
  if let some slot := (← get).fields then
    modify fun c => { c with fields := none }
    within .body (slot.finish .fields)
  let _ ← (← get).pieces

end ClassM
end JavaClass
