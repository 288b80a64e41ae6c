import JavaClass.ClassFile.Replay

/-!
# Rebuilding a class

Copying the pool of a class file into a pool under construction, and building the whole class
again from its file. Indexes carry over only if no constant occurs twice.
-/

namespace JavaClass

/-- Interns the constant of an index, if the index has one, and answers its new index. -/
def ConstantTable.copyEntry (t : ConstantTable) (index : UInt16) (tag : Tag) : PoolM UInt16 := do
  match tag.shape with
  | .text => PoolM.encodedText (← t.textBytes index)
  | .reference => PoolM.constant tag (.reference (← t.reference index))
  | .handle =>
    let (kind, target) ← t.handle index
    PoolM.constant tag (.handle kind target)
  | .word => PoolM.constant tag (.word (← t.word index))
  | .wide => PoolM.constant tag (.wide (← t.wide index))

/-- Copies the constant of an index, if the index has one, and counts it if its new index is
another. -/
def ConstantTable.copyIndex (t : ConstantTable) (moved i : Nat) : PoolM Nat := do
  let index := UInt16.ofNat i
  match t.tag? index with
  | none => return moved
  | some tag =>
    let copied ← t.copyEntry index tag
    return if copied = index then moved else moved + 1

/-- Interns every constant in index order and answers how many got another index. -/
def ConstantTable.copyInto (t : ConstantTable) : PoolM Nat :=
  (List.range' 1 (t.count - 1)).foldlM t.copyIndex 0

namespace ClassFile

/-- Buffers that start at the sizes of the file. -/
def draftOptions (c : ClassFile) : DraftOptions :=
  { poolCapacity := c.poolLength, bodyCapacity := c.bodyLength }

/-- The class of the file as a class under construction that has just been finished. -/
def rebuild (c : ClassFile) : Except Error ClassDraft :=
  let build : ClassM Unit := do
    let moved ← ClassM.onPool c.pool.copyInto
    if moved ≠ 0 then throw (.indexesMoved moved)
    c.replayInto fun _ => false
  match build (ClassDraft.withOptions c.draftOptions) with
  | .ok _ draft => .ok draft
  | .error e _ => .error e

end ClassFile
end JavaClass
