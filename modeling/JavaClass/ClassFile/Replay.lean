import JavaClass.ClassFile

/-!
# Replaying a class

A class file is a sequence of events: the class header, each member with its attributes, the
attributes of the class, the end. Replaying hands them one by one to a listener, in file order, and
stops where the listener fails. A class under construction is such a listener.
-/

namespace JavaClass

/-- One step through a class. Indexes and attribute names are those of the file. -/
inductive ClassEvent
  | header (version : Version) (flags : AccessFlags) (thisClass superClass : UInt16)
    (interfaces : List UInt16)
  | field (flags : AccessFlags) (name descriptor : UInt16)
  | method (flags : AccessFlags) (name descriptor : UInt16)
  | memberAttribute (a : Attribute)
  | memberEnd
  | classAttribute (a : Attribute)
  | classEnd
  deriving DecidableEq, Repr

/-- What to do at each event. -/
abbrev ClassListener (m : Type → Type) := ClassEvent → m Unit

/-- A listener that does not hear of the attributes that `drop` names. -/
def ClassListener.without {m : Type → Type} [Monad m] (listener : ClassListener m)
    (drop : UInt16 → Bool) : ClassListener m
  | .memberAttribute a => if drop a.name then pure () else listener (.memberAttribute a)
  | .classAttribute a => if drop a.name then pure () else listener (.classAttribute a)
  | event => listener event

namespace ClassFile

variable {m : Type → Type} [Monad m]

/-- Replays one member after its opening event. -/
def replayMember (listener : ClassListener m) (opening : ClassEvent) (member : Member) : m Unit := do
  listener opening
  member.attributes.forM fun a => listener (.memberAttribute a)
  listener .memberEnd

/-- Replays the class, without its pool. -/
def replay (c : ClassFile) (listener : ClassListener m) : m Unit := do
  listener (.header c.version c.flags c.thisClass c.superClass c.interfaces)
  c.fields.forM fun f => replayMember listener (.field f.flags f.name f.descriptor) f
  c.methods.forM fun f => replayMember listener (.method f.flags f.name f.descriptor) f
  c.attributes.forM fun a => listener (.classAttribute a)
  listener .classEnd

end ClassFile

/-! ## Building by replay -/

/-- A class under construction together with the member that is open in it. -/
structure ReplayState where
  draft : ClassDraft
  member : Option MemberDraft

abbrev ReplayM (α : Type) := EStateM Error ReplayState α

namespace ReplayM

variable {α : Type}

/-- A step of building the class. -/
def onClass (step : ClassM α) : ReplayM α := fun ⟨draft, member⟩ =>
  match step draft with
  | .ok a draft => .ok a ⟨draft, member⟩
  | .error e draft => .error e ⟨draft, member⟩

/-- Opens a member. -/
def startMember (step : ClassM MemberDraft) : ReplayM Unit := do
  let member ← onClass step
  modify fun s => { s with member := some member }

/-- Appends an attribute whose content is already encoded. -/
def appendRaw (a : Attribute) (list : AttributeList) : DraftM (Unit × AttributeList) := do
  return ((), ← list.putRaw a.name a.info)

/-- A class under construction as a listener. Attributes of members go to the one that is open. -/
def builder : ClassListener (EStateM Error ReplayState)
  | .header version flags thisClass superClass interfaces =>
    onClass (ClassM.header version flags thisClass superClass interfaces)
  | .field flags name descriptor => startMember (ClassM.startField flags name descriptor)
  | .method flags name descriptor => startMember (ClassM.startMethod flags name descriptor)
  | .memberAttribute a => do
    if let some member := (← get).member then
      let (_, member) ← onClass (ClassM.onMember member (appendRaw a))
      modify fun s => { s with member := some member }
  | .memberEnd => do
    if let some member := (← get).member then
      modify fun s => { s with member := none }
      onClass (ClassM.finishMember member)
  | .classAttribute a => onClass (ClassM.onAttributes (appendRaw a))
  | .classEnd => onClass ClassM.finish

end ReplayM

/-- Replays the class into a class under construction, which hears of no attribute that `drop`
names. -/
def ClassFile.replayInto (c : ClassFile) (drop : UInt16 → Bool) : ClassM Unit := fun draft =>
  match c.replay (ClassListener.without ReplayM.builder drop) ⟨draft, none⟩ with
  | .ok _ s => .ok () s.draft
  | .error e s => .error e s.draft

end JavaClass
