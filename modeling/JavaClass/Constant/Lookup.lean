import JavaClass.Constant.Table

/-!
# Looking constants up

The index of a constant in a table, if it is there. Of several equal entries the first is found. A
constant that refers to texts is found only by the first entries of those texts.
-/

namespace JavaClass.ConstantTable

/-- The smallest index whose entry has the tag and the payload. -/
def find? (t : ConstantTable) (tag : Tag) (payload : Payload) : Except Error (Option UInt16) :=
  t.firstMatch tag (payload.isAt t.bytes) 0 t.count

/-- The index of a text. -/
def findText? (t : ConstantTable) (value : String) : Except Error (Option UInt16) :=
  let encoded := ModifiedUtf8.encode value
  t.firstMatch .utf8 (fun offset => (· == encoded) <$> t.textAt offset) 0 t.count

def findReferences? (t : ConstantTable) (tag : Tag) (first second : UInt16) :
    Except Error (Option UInt16) :=
  t.find? tag (.references first second)

def findHandle? (t : ConstantTable) (kind : UInt8) (index : UInt16) :
    Except Error (Option UInt16) :=
  t.find? .methodHandle (.handle kind index)

def findInt? (t : ConstantTable) (value : Int32) : Except Error (Option UInt16) :=
  t.find? .integer (.word value.toUInt32)

/-- The index of a float given by its bits. -/
def findFloat? (t : ConstantTable) (bits : UInt32) : Except Error (Option UInt16) :=
  t.find? .float (.word bits)

def findLong? (t : ConstantTable) (value : Int64) : Except Error (Option UInt16) :=
  t.find? .long (.wide value.toUInt64)

/-- The index of a double given by its bits. -/
def findDouble? (t : ConstantTable) (bits : UInt64) : Except Error (Option UInt16) :=
  t.find? .double (.wide bits)

/-- The index of a constant that refers to a text. -/
def findTextReference? (t : ConstantTable) (tag : Tag) (value : String) :
    Except Error (Option UInt16) := do
  match ← t.findText? value with
  | some index => t.find? tag (.reference index)
  | none => return none

def findClass? (t : ConstantTable) (name : String) : Except Error (Option UInt16) :=
  t.findTextReference? .classInfo name

def findString? (t : ConstantTable) (value : String) : Except Error (Option UInt16) :=
  t.findTextReference? .string value

def findMethodType? (t : ConstantTable) (descriptor : String) : Except Error (Option UInt16) :=
  t.findTextReference? .methodType descriptor

def findNameAndType? (t : ConstantTable) (name descriptor : String) :
    Except Error (Option UInt16) := do
  match ← t.findText? name with
  | none => return none
  | some nameIndex =>
    match ← t.findText? descriptor with
    | none => return none
    | some descriptorIndex => t.findReferences? .nameAndType nameIndex descriptorIndex

end JavaClass.ConstantTable
