import JavaClass.Proofs.AttributeForests
import JavaClass.Proofs.Building
import Mathlib.Data.List.Forall2

/-!
# Scripts of classes

A whole run of building a class: calls on the pool, a header, then fields, methods, attributes of
the class and more calls in any order, then the end. If every end in it is good, what a reader finds
in the serialized class is what the script has visited, as long as no count has used up the 32 bits
it is kept in.
-/

namespace JavaClass

open Constant

/-! ## Names and the constants they become -/

namespace ConstantTable

/-- The index is that of the text. -/
def HasText (t : ConstantTable) (index : UInt16) (text : String) : Prop :=
  t.tag? index = some .utf8 ∧ t.textBytes index = .ok (ModifiedUtf8.encode text)

/-- The index is that of a class with the name. -/
def HasClass (t : ConstantTable) (index : UInt16) (name : String) : Prop :=
  t.tag? index = some .classInfo ∧ ∃ i, t.reference index = .ok i ∧ t.HasText i name

end ConstantTable

namespace Constant

/-- The index is that of the text in the list of constants. -/
def SaysText (cs : List Constant) (index : UInt16) (text : String) : Prop :=
  ∃ start c, at? 0 cs index.toNat = some (start, c) ∧ c.tag = .utf8 ∧
    c.payload = (ModifiedUtf8.encode text).toList

/-- The index is that of a class with the name in the list of constants. -/
def SaysClass (cs : List Constant) (index : UInt16) (name : String) : Prop :=
  ∃ start c i, at? 0 cs index.toNat = some (start, c) ∧ c.tag = .classInfo ∧
    c.payload = bytes16 i ∧ SaysText cs i name

variable {cs ds : List Constant} {index : UInt16} {text : String} {offset : Nat}

theorem SaysText.extend (hds : cs <+: ds) (h : SaysText cs index text) :
    SaysText ds index text := by
  obtain ⟨more, rfl⟩ := hds
  obtain ⟨start, c, hc, hnamed⟩ := h
  exact ⟨start, c, at?_append_of_eq_some more hc, hnamed⟩

theorem SaysClass.extend (hds : cs <+: ds) (h : SaysClass cs index text) :
    SaysClass ds index text := by
  obtain ⟨start, c, i, hc, htag, hpayload, htext⟩ := h
  have htext' := htext.extend hds
  obtain ⟨more, rfl⟩ := hds
  exact ⟨start, c, i, at?_append_of_eq_some more hc, htag, hpayload, htext'⟩

variable {t : ConstantTable}

theorem SaysText.hasText (ht : t.Holds offset cs) (h : SaysText cs index text) :
    t.HasText index text := by
  obtain ⟨start, c, hc, htag, hpayload⟩ := h
  have hat : at? offset cs index.toNat = some (offset + start, c) := by
    rw [at?_shift, hc]
    rfl
  refine ⟨?_, ?_⟩
  · rw [ht.tag?, hat, Option.map_some, htag]
  · rw [ht.textBytes hat htag, hpayload]

theorem SaysClass.hasClass (ht : t.Holds offset cs) (h : SaysClass cs index text) :
    t.HasClass index text := by
  obtain ⟨start, c, i, hc, htag, hpayload, htext⟩ := h
  have hat : at? offset cs index.toNat = some (offset + start, c) := by
    rw [at?_shift, hc]
    rfl
  refine ⟨?_, i, ?_, htext.hasText ht⟩
  · rw [ht.tag?, hat, Option.map_some, htag]
  · have hspell := ht.spell_hasAt hat
    rw [htag, hpayload, Tag.spell_of_length rfl] at hspell
    unfold ConstantTable.reference
    rw [ht.payloadOffset hat]
    exact Bytes.get16_eq_ok.mpr hspell

end Constant

namespace PoolM

variable {p p' : ConstantPool} {cs : List Constant} {index : UInt16}

theorem text_eq_ok {value : String} (h : p.Represents cs) (hrun : text value p = .ok index p') :
    ∃ ds, cs <+: ds ∧ p'.Represents ds ∧ SaysText ds index value := by
  obtain ⟨ds, hspec, h'⟩ := (PoolCall.text value).run_eq_ok h hrun
  obtain ⟨short, hintern⟩ := internText_eq_ok hspec
  obtain ⟨hgrows, hmem, rfl⟩ := intern_eq_ok hintern
  obtain ⟨start, hc⟩ := at?_indexOf 0 hmem
  refine ⟨ds, hgrows, h', start, ofText _ short, ?_, rfl, rfl⟩
  rw [UInt16.toNat_ofNat_of_lt' (h'.indexed _ hmem)]
  exact hc

theorem classInfo_eq_ok {name : String} (h : p.Represents cs)
    (hrun : classInfo name p = .ok index p') :
    ∃ ds, cs <+: ds ∧ p'.Represents ds ∧ SaysClass ds index name := by
  obtain ⟨i, q, htext, hreference⟩ := bind_eq_ok.mp hrun
  obtain ⟨ds, hds, hq, hnamed⟩ := text_eq_ok h htext
  obtain ⟨es, hspec, h'⟩ := (PoolCall.reference .classInfo rfl i).run_eq_ok hq hreference
  obtain ⟨hgrows, hmem, rfl⟩ := intern_eq_ok hspec
  obtain ⟨start, hc⟩ := at?_indexOf 0 hmem
  refine ⟨es, hds.trans hgrows, h', start,
    ofPayload .classInfo (.reference i) (Payload.suits_reference rfl i), i, ?_, rfl, rfl,
    hnamed.extend hgrows⟩
  rw [UInt16.toNat_ofNat_of_lt' (h'.indexed _ hmem)]
  exact hc

end PoolM

/-! ## The header -/

/-- How a header refers to classes: by their indexes, or by names to be interned first. -/
inductive HeaderNames
  | indexes (thisClass superClass : UInt16) (interfaces : List UInt16)
  | names (thisClass : String) (superClass : Option String) (interfaces : List String)

namespace HeaderNames

def visit (version : Version) (flags : AccessFlags) : HeaderNames → ClassM Unit
  | indexes thisClass superClass interfaces =>
    ClassM.header version flags thisClass superClass interfaces
  | names thisClass superClass interfaces =>
    ClassM.namedHeader version flags thisClass superClass interfaces

/-- The indexes that are found in a class are those of the header, where `hasClass` tells the
classes that indexes have. -/
def ToldAs (hasClass : UInt16 → String → Prop) (thisClass superClass : UInt16)
    (interfaces : List UInt16) : HeaderNames → Prop
  | indexes this super list => thisClass = this ∧ superClass = super ∧ interfaces = list
  | names this super list => hasClass thisClass this ∧
    (match super with
      | some name => hasClass superClass name
      | none => superClass = 0) ∧ List.Forall₂ hasClass interfaces list

def interfaceCount : HeaderNames → Nat
  | indexes _ _ interfaces => interfaces.length
  | names _ _ interfaces => interfaces.length

theorem ToldAs.length_eq {P : UInt16 → String → Prop} {names : HeaderNames}
    {thisClass superClass : UInt16} {interfaces : List UInt16}
    (h : names.ToldAs P thisClass superClass interfaces) :
    interfaces.length = names.interfaceCount := by
  cases names with
  | indexes this super list =>
    obtain ⟨-, -, rfl⟩ := h
    rfl
  | names this super list => exact h.2.2.length_eq

theorem ToldAs.mono {P Q : UInt16 → String → Prop} (hPQ : ∀ i name, P i name → Q i name)
    {names : HeaderNames} {thisClass superClass : UInt16} {interfaces : List UInt16}
    (h : names.ToldAs P thisClass superClass interfaces) :
    names.ToldAs Q thisClass superClass interfaces := by
  cases names with
  | indexes => exact h
  | names this super list =>
    obtain ⟨hthis, hsuper, hlist⟩ := h
    refine ⟨hPQ _ _ hthis, ?_, hlist.imp hPQ⟩
    cases super with
    | none => exact hsuper
    | some name => exact hPQ _ _ hsuper

end HeaderNames

namespace ClassM

variable {c c' : ClassDraft} {cs : List Constant}

theorem onPool_classInfo_eq_ok {name : String} {index : UInt16} (h : c.Fresh cs)
    (hrun : onPool (PoolM.classInfo name) c = .ok index c') :
    ∃ ds, cs <+: ds ∧ c'.Fresh ds ∧ SaysClass ds index name := by
  obtain ⟨p, hp, rfl⟩ := onPool_eq_ok.mp hrun
  obtain ⟨ds, hds, h', hnamed⟩ := PoolM.classInfo_eq_ok h.pool hp
  exact ⟨ds, hds, h.withPool h', hnamed⟩

theorem mapM_classInfo_eq_ok {names : List String} {indexes : List UInt16} (h : c.Fresh cs)
    (hrun : (names.mapM fun name => onPool (PoolM.classInfo name)) c = .ok indexes c') :
    ∃ ds, cs <+: ds ∧ c'.Fresh ds ∧ List.Forall₂ (SaysClass ds) indexes names := by
  induction names generalizing c cs indexes with
  | nil =>
    rw [List.mapM_nil] at hrun
    obtain ⟨rfl, rfl⟩ := pure_eq_ok.mp hrun
    exact ⟨cs, List.prefix_rfl, h, .nil⟩
  | cons name names ih =>
    rw [List.mapM_cons] at hrun
    obtain ⟨index, c₁, hfirst, hrest⟩ := bind_eq_ok.mp hrun
    obtain ⟨rest, c₂, hmap, hpure⟩ := bind_eq_ok.mp hrest
    obtain ⟨rfl, rfl⟩ := pure_eq_ok.mp hpure
    obtain ⟨ds, hds, h₁, hnamed⟩ := onPool_classInfo_eq_ok h hfirst
    obtain ⟨es, hes, h₂, hall⟩ := ih h₁ hmap
    exact ⟨es, hds.trans hes, h₂, .cons (hnamed.extend hes) hall⟩

/-- What a fresh class has become when its header is there. -/
structure Opened (c : ClassDraft) (names : HeaderNames) (version : Version) (flags : AccessFlags)
    (s : ClassSyntax) : Prop where
  holds : c.Holds s
  version : s.version = version
  flags : s.flags = flags
  names : names.ToldAs (SaysClass s.constants) s.thisClass s.superClass s.interfaces
  interfaces : count32 s.interfaces.length < 65536
  members : ∀ kind, s.members kind = []
  attributes : s.attributes = []

theorem header_opens {version : Version} {flags : AccessFlags} {thisClass superClass : UInt16}
    {interfaces : List UInt16} {names : HeaderNames} (h : c.Fresh cs)
    (hnames : names.ToldAs (SaysClass cs) thisClass superClass interfaces)
    (hrun : header version flags thisClass superClass interfaces c = .ok () c') :
    ∃ s, Opened c' names version flags s := by
  by_cases hcount : count32 interfaces.length < 65536
  · obtain ⟨c₁, hok, hholds⟩ :=
      header_eq_ok h version flags thisClass superClass interfaces hcount
    rw [hrun] at hok
    obtain ⟨-, rfl⟩ := EStateM.Result.ok.inj hok
    exact ⟨_, hholds, rfl, rfl, hnames, hcount, fun kind => by cases kind <;> rfl, rfl⟩
  · obtain ⟨e, herror⟩ := header_error version flags thisClass superClass interfaces hcount c
    rw [hrun] at herror
    cases herror

theorem visitHeader_opens {names : HeaderNames} {version : Version} {flags : AccessFlags}
    (h : c.Fresh cs) (hrun : names.visit version flags c = .ok () c') :
    ∃ s, Opened c' names version flags s := by
  cases names with
  | indexes thisClass superClass interfaces => exact header_opens h ⟨rfl, rfl, rfl⟩ hrun
  | names thisClass superClass interfaces =>
    obtain ⟨thisIndex, c₁, hthis, hrest⟩ := bind_eq_ok.mp hrun
    obtain ⟨ds, -, h₁, hsaysThis⟩ := onPool_classInfo_eq_ok h hthis
    cases superClass with
    | none =>
      obtain ⟨superIndex, c₂, hsuper, hinterfaces⟩ := bind_eq_ok.mp hrest
      obtain ⟨rfl, rfl⟩ := pure_eq_ok.mp hsuper
      obtain ⟨indexes, c₃, hmap, hheader⟩ := bind_eq_ok.mp hinterfaces
      obtain ⟨es, hes, h₂, hall⟩ := mapM_classInfo_eq_ok h₁ hmap
      exact header_opens h₂ ⟨hsaysThis.extend hes, rfl, hall⟩ hheader
    | some name =>
      obtain ⟨superIndex, c₂, hsuper, hinterfaces⟩ := bind_eq_ok.mp hrest
      obtain ⟨es, hes, h₂, hsaysSuper⟩ := onPool_classInfo_eq_ok h₁ hsuper
      obtain ⟨indexes, c₃, hmap, hheader⟩ := bind_eq_ok.mp hinterfaces
      obtain ⟨fs, hfs, h₃, hall⟩ := mapM_classInfo_eq_ok h₂ hmap
      exact header_opens h₃ ⟨hsaysThis.extend (hes.trans hfs), hsaysSuper.extend hfs, hall⟩
        hheader

end ClassM

/-! ## Members -/

/-- How a member refers to its name and descriptor: by indexes, or by texts to be interned. -/
inductive MemberNames
  | indexes (name descriptor : UInt16)
  | texts (name descriptor : String)

/-- The indexes of a member are those of the visit, where `hasText` tells the texts that indexes
have. -/
def MemberNames.ToldAs (hasText : UInt16 → String → Prop) (nameIndex descriptorIndex : UInt16) :
    MemberNames → Prop
  | indexes name descriptor => nameIndex = name ∧ descriptorIndex = descriptor
  | texts name descriptor => hasText nameIndex name ∧ hasText descriptorIndex descriptor

theorem MemberNames.ToldAs.mono {P Q : UInt16 → String → Prop}
    (hPQ : ∀ i text, P i text → Q i text) {names : MemberNames} {i j : UInt16}
    (h : names.ToldAs P i j) : names.ToldAs Q i j := by
  cases names with
  | indexes => exact h
  | texts => exact ⟨hPQ _ _ h.1, hPQ _ _ h.2⟩

theorem ClassM.outcome_within (place : Section) (step : DraftM Unit) :
    outcome (within place step) = within place (outcome step) := by
  funext c
  unfold outcome within
  dsimp only
  cases step (c.draft place) <;> rfl

/-- A visit of a field or method. -/
structure MemberVisit where
  flags : AccessFlags
  names : MemberNames
  attributes : AttributeForest

namespace MemberVisit

def start (v : MemberVisit) (kind : MemberKind) : ClassM MemberDraft :=
  match kind, v.names with
  | .field, .indexes name descriptor => ClassM.startField v.flags name descriptor
  | .field, .texts name descriptor => ClassM.addField v.flags name descriptor
  | .method, .indexes name descriptor => ClassM.startMethod v.flags name descriptor
  | .method, .texts name descriptor => ClassM.addMethod v.flags name descriptor

/-- Writes the attributes of the open member and ends it. Tells what all these ends answered. -/
def complete (v : MemberVisit) (m : MemberDraft) : ClassM (List (Except Error Unit)) := do
  let (answers, m) ← ClassM.onMember m v.attributes.extend
  let last ← outcome (ClassM.finishMember m)
  return answers ++ [last]

def visit (v : MemberVisit) (kind : MemberKind) : ClassM (List (Except Error Unit)) := do
  v.complete (← v.start kind)

def ends (v : MemberVisit) : List (Except Error Unit) :=
  v.attributes.ends ++ [countEnd .attributes (count32 v.attributes.attributes.length)]

def EndsWell (v : MemberVisit) : Prop := ∀ answer ∈ v.ends, answer = .ok ()

/-- All attributes of the member can be counted in 32 bits. -/
def Bounded (v : MemberVisit) : Prop :=
  v.attributes.attributes.length < 2 ^ 32 ∧ v.attributes.Bounded

instance : DecidablePred Bounded := fun v =>
  inferInstanceAs (Decidable (v.attributes.attributes.length < 2 ^ 32 ∧ v.attributes.Bounded))

/-- The member is the visited one. -/
structure ToldAs (hasText : UInt16 → String → Prop) (v : MemberVisit) (m : Member) : Prop where
  flags : m.flags = v.flags
  names : v.names.ToldAs hasText m.name m.descriptor
  attributes : m.attributes = v.attributes.attributes

theorem ToldAs.mono {P Q : UInt16 → String → Prop} (hPQ : ∀ i text, P i text → Q i text)
    {v : MemberVisit} {m : Member} (h : v.ToldAs P m) : v.ToldAs Q m where
  __ := h
  names := h.names.mono hPQ

theorem endsWell_iff {v : MemberVisit} :
    v.EndsWell ↔ v.attributes.EndsWell ∧ count32 v.attributes.attributes.length < 65536 := by
  unfold EndsWell ends AttributeForest.EndsWell
  rw [List.forall_mem_append, List.forall_mem_singleton, countEnd_eq_ok]

theorem ToldAs.fits {P : UInt16 → String → Prop} {v : MemberVisit} {m : Member} (h : v.ToldAs P m)
    (hwell : v.EndsWell) (hb : v.Bounded) : m.Fits := by
  obtain ⟨hforest, hcount⟩ := endsWell_iff.mp hwell
  rw [count32_of_lt hb.1] at hcount
  constructor
  case count => rwa [h.attributes]
  case attributes => exact h.attributes ▸ hforest.fits hb.2

variable {c c' : ClassDraft} {cs : List Constant} {d : Draft} {list : AttributeList}
  {base : List UInt8} {flags : AccessFlags} {name descriptor : UInt16} {v : MemberVisit}
  {m : MemberDraft} {answers : List (Except Error Unit)}

theorem texts_eq_ok {start : UInt16 → UInt16 → ClassM MemberDraft}
    {nameText descriptorText : String} (h : c.pool.Represents cs) (hrun : (do
      let i ← ClassM.onPool (PoolM.text nameText)
      let j ← ClassM.onPool (PoolM.text descriptorText)
      start i j) c = .ok m c') :
    ∃ i j p ds, cs <+: ds ∧ p.Represents ds ∧
      (MemberNames.texts nameText descriptorText).ToldAs (SaysText ds) i j ∧
      start i j { c with pool := p } = .ok m c' := by
  obtain ⟨i, _, hname, hrest⟩ := bind_eq_ok.mp hrun
  obtain ⟨p, hp, rfl⟩ := ClassM.onPool_eq_ok.mp hname
  obtain ⟨j, _, hdescriptor, hstart⟩ := bind_eq_ok.mp hrest
  obtain ⟨q, hq, rfl⟩ := ClassM.onPool_eq_ok.mp hdescriptor
  obtain ⟨ds, hds, hpool, hsaysName⟩ := PoolM.text_eq_ok h hp
  obtain ⟨es, hes, hpool', hsaysDescriptor⟩ := PoolM.text_eq_ok hpool hq
  exact ⟨i, j, q, es, hds.trans hes, hpool', ⟨hsaysName.extend hes, hsaysDescriptor⟩, hstart⟩

theorem start_resolves (kind : MemberKind) (h : c.pool.Represents cs)
    (hrun : v.start kind c = .ok m c') :
    ∃ i j p ds, cs <+: ds ∧ p.Represents ds ∧ v.names.ToldAs (SaysText ds) i j ∧
      ClassM.startKind kind v.flags i j { c with pool := p } = .ok m c' := by
  unfold start at hrun
  cases hnames : v.names with
  | indexes name descriptor =>
    refine ⟨name, descriptor, c.pool, cs, List.prefix_rfl, h, ⟨rfl, rfl⟩, ?_⟩
    rw [hnames] at hrun
    cases kind <;> exact hrun
  | texts name descriptor =>
    rw [hnames] at hrun
    cases kind <;> exact texts_eq_ok h hrun

theorem complete_eq_ok {place : Section} (h : list.Holds true
      (base ++ (bytes16 flags.bits ++ bytes16 name ++ bytes16 descriptor)) [] d.bytes)
    (hrun : v.complete ⟨place, list⟩ (c.withDraft place d) = .ok answers c')
    (hwell : ∀ answer ∈ answers, answer = .ok ()) :
    ∃ d', c' = c.withDraft place d' ∧ v.EndsWell ∧
      d'.bytes = base ++ Member.encode ⟨flags, name, descriptor, v.attributes.attributes⟩ ∧
      d.pool.GrowsTo d'.pool := by
  -- the attributes
  obtain ⟨⟨_, _⟩, _, hmember, hrest⟩ := bind_eq_ok.mp hrun
  obtain ⟨⟨_, list₁⟩, _, hwithin, hpure⟩ := bind_eq_ok.mp hmember
  obtain ⟨hopened, rfl⟩ := pure_eq_ok.mp hpure
  obtain ⟨rfl, rfl⟩ := Prod.mk.inj hopened
  obtain ⟨d₁, hextend, rfl⟩ := ClassM.within_withDraft_eq_ok.mp hwithin
  -- their count
  obtain ⟨last, _, hlast, hpure⟩ := bind_eq_ok.mp hrest
  obtain ⟨rfl, rfl⟩ := pure_eq_ok.mp hpure
  rw [ClassM.finishMember, ClassM.outcome_within] at hlast
  obtain ⟨d₂, hend, rfl⟩ := ClassM.within_withDraft_eq_ok.mp hlast
  obtain ⟨rfl, hgrows₁, hlist₁⟩ := AttributeForest.extend_eq_ok h hextend
  obtain ⟨hforest, hok⟩ := List.forall_mem_append.mp hwell
  obtain ⟨slot, hslot, hwrites⟩ := writes_countEnd .attributes (hlist₁ hforest)
  obtain ⟨rfl, hbytes, hgrows₂⟩ := hwrites.eq_of_ok hend
  rw [List.length_nil, Nat.zero_add] at hslot hok
  have hcount := countEnd_eq_ok.mp (hok _ (List.mem_singleton_self _))
  refine ⟨d₂, rfl, endsWell_iff.mpr ⟨hforest, hcount⟩, ?_, hgrows₁.trans hgrows₂⟩
  rw [hbytes, hslot.eq hcount]
  simp [Member.encode, encodeCounted]

theorem visit_apply_ok {kind : MemberKind} {forest : AttributeForest} {list' : AttributeList}
    {d' : Draft} {last : Except Error Unit}
    (hstart : ClassM.startKind kind flags name descriptor c =
      .ok ⟨kind.place, list⟩ ((c.countMember kind).withDraft kind.place d))
    (hextend : forest.extend list d = .ok (answers, list') d')
    (hlast : outcome (ClassM.finishMember ⟨kind.place, list'⟩)
      ((c.countMember kind).withDraft kind.place d') = .ok last c') :
    (mk flags (.indexes name descriptor) forest).visit kind c = .ok (answers ++ [last]) c' := by
  have hopen : (mk flags (.indexes name descriptor) forest).start kind c =
      .ok ⟨kind.place, list⟩ ((c.countMember kind).withDraft kind.place d) := by
    cases kind <;> exact hstart
  have hmember : ClassM.onMember ⟨kind.place, list⟩ forest.extend
      ((c.countMember kind).withDraft kind.place d) =
        .ok (answers, ⟨kind.place, list'⟩) ((c.countMember kind).withDraft kind.place d') :=
    bind_apply_ok (ClassM.within_withDraft_eq_ok.mpr ⟨d', hextend, rfl⟩)
  exact (bind_apply_ok hopen).trans ((bind_apply_ok hmember).trans (bind_apply_ok hlast))

end MemberVisit

/-! ## Steps -/

/-- The second class is the first one with more constants and parts. -/
structure ClassSyntax.GrowsTo (s s' : ClassSyntax) : Prop where
  version : s'.version = s.version
  flags : s'.flags = s.flags
  thisClass : s'.thisClass = s.thisClass
  superClass : s'.superClass = s.superClass
  interfaces : s'.interfaces = s.interfaces
  constants : s.constants <+: s'.constants

namespace ClassSyntax.GrowsTo

variable {s s' s'' : ClassSyntax} {ds : List Constant}

theorem refl (s : ClassSyntax) : s.GrowsTo s := ⟨rfl, rfl, rfl, rfl, rfl, List.prefix_rfl⟩

theorem trans (h : s.GrowsTo s') (h' : s'.GrowsTo s'') : s.GrowsTo s'' where
  version := h'.version.trans h.version
  flags := h'.flags.trans h.flags
  thisClass := h'.thisClass.trans h.thisClass
  superClass := h'.superClass.trans h.superClass
  interfaces := h'.interfaces.trans h.interfaces
  constants := h.constants.trans h'.constants

theorem addMember (kind : MemberKind) (m : Member) (h : s.constants <+: ds) :
    s.GrowsTo (({ s with constants := ds } : ClassSyntax).addMember kind m) := by
  cases kind <;> exact ⟨rfl, rfl, rfl, rfl, rfl, h⟩

end ClassSyntax.GrowsTo

/-- What a caller may do between the header and the end. -/
inductive ClassStep
  | pool (call : PoolCall)
  | member (kind : MemberKind) (visit : MemberVisit)
  | attributes (forest : AttributeForest)

namespace ClassStep

/-- Does the step, and tells what the ends in it answered. -/
def run : ClassStep → ClassM (List (Except Error Unit))
  | pool call => do
    ClassM.onPool call.attempt
    return []
  | member kind visit => visit.visit kind
  | attributes forest => ClassM.onAttributes forest.extend

def runAll : List ClassStep → ClassM (List (Except Error Unit))
  | [] => pure []
  | step :: steps => do
    let answers ← step.run
    return answers ++ (← runAll steps)

/-- The visit, if the step is one of a member of the kind. -/
@[simp] def member? (kind : MemberKind) : ClassStep → Option MemberVisit
  | member other visit => if other = kind then some visit else none
  | _ => none

@[simp] def attributes? : ClassStep → Option AttributeForest
  | attributes forest => some forest
  | _ => none

/-- What steps that end well have added to the parts of the class. -/
structure Adds (steps : List ClassStep) (s s' : ClassSyntax) : Prop extends s.GrowsTo s' where
  members : ∀ kind, ∃ new, s'.members kind = s.members kind ++ new ∧
    List.Forall₂ (MemberVisit.ToldAs (SaysText s'.constants)) (steps.filterMap (member? kind)) new
  attributes : s'.attributes = s.attributes ++
    (steps.filterMap attributes?).flatMap AttributeForest.attributes
  memberEnds : ∀ kind, ∀ v ∈ steps.filterMap (member? kind), v.EndsWell
  classEnds : ∀ forest ∈ steps.filterMap attributes?, forest.EndsWell

theorem adds_nil (s : ClassSyntax) : Adds [] s s where
  toGrowsTo := .refl s
  members _ := ⟨[], by simp, .nil⟩
  attributes := by simp
  memberEnds := by simp
  classEnds := by simp

variable {steps more : List ClassStep} {s s' s'' : ClassSyntax} {c c' : ClassDraft}
  {answers : List (Except Error Unit)}

theorem Adds.append (h : Adds steps s s') (h' : Adds more s' s'') : Adds (steps ++ more) s s'' where
  toGrowsTo := h.toGrowsTo.trans h'.toGrowsTo
  members kind := by
    obtain ⟨new, hnew, htold⟩ := h.members kind
    obtain ⟨new', hnew', htold'⟩ := h'.members kind
    refine ⟨new ++ new', by rw [hnew', hnew, List.append_assoc], ?_⟩
    rw [List.filterMap_append]
    refine List.rel_append (htold.imp fun v m hv => ?_) htold'
    exact hv.mono fun _ _ => SaysText.extend h'.constants
  attributes := by
    rw [h'.attributes, h.attributes, List.filterMap_append, List.flatMap_append, List.append_assoc]
  memberEnds kind := by
    rw [List.filterMap_append, List.forall_mem_append]
    exact ⟨h.memberEnds kind, h'.memberEnds kind⟩
  classEnds := by
    rw [List.filterMap_append, List.forall_mem_append]
    exact ⟨h.classEnds, h'.classEnds⟩

theorem pool_adds {call : PoolCall} (h : c.Holds s) (hrun : (pool call).run c = .ok answers c') :
    ∃ s', c'.Holds s' ∧ Adds [pool call] s s' := by
  obtain ⟨_, _, hcall, hpure⟩ := bind_eq_ok.mp hrun
  obtain ⟨-, rfl⟩ := pure_eq_ok.mp hpure
  obtain ⟨p, hp, rfl⟩ := ClassM.onPool_eq_ok.mp hcall
  obtain ⟨-, rfl⟩ := EStateM.Result.ok.inj hp
  obtain ⟨ds, hds, hpool⟩ := call.after_represents h.pool
  refine ⟨_, h.withPool hpool, ⟨rfl, rfl, rfl, rfl, rfl, hds⟩, ?_, by simp, by simp, by simp⟩
  intro kind
  exact ⟨[], by cases kind <;> exact (List.append_nil _).symm, by simp⟩

theorem member_adds {kind : MemberKind} {v : MemberVisit} (h : c.Holds s)
    (hrun : v.visit kind c = .ok answers c') (hwell : ∀ answer ∈ answers, answer = .ok ()) :
    ∃ s', c'.Holds s' ∧ Adds [member kind v] s s' := by
  obtain ⟨m, _, hstart, hcomplete⟩ := bind_eq_ok.mp hrun
  obtain ⟨i, j, p, ds, hds, hp, hnames, hkind⟩ := MemberVisit.start_resolves kind h.pool hstart
  have h₁ := h.withPool hp
  obtain ⟨list, d, hok, hlist, hpool⟩ := ClassM.startKind_eq_ok kind h₁ v.flags i j
  rw [hok] at hkind
  obtain ⟨rfl, rfl⟩ := EStateM.Result.ok.inj hkind
  obtain ⟨d', rfl, hends, hbytes, hgrows⟩ := MemberVisit.complete_eq_ok hlist hcomplete hwell
  obtain ⟨es, hes, hpool'⟩ := hgrows ds (hpool ▸ h₁.pool)
  have htold : v.ToldAs (SaysText es) ⟨v.flags, i, j, v.attributes.attributes⟩ :=
    ⟨rfl, hnames.mono fun _ _ => SaysText.extend hes, rfl⟩
  refine ⟨_, h₁.addMember kind _ hbytes hpool', .addMember kind _ (hds.trans hes), fun other => ?_,
    by cases kind <;> simp [ClassSyntax.addMember], fun other => ?_, by simp⟩
  · rw [ClassSyntax.members_addMember]
    by_cases heq : other = kind
    · subst heq
      rw [if_pos rfl]
      refine ⟨_, by cases other <;> rfl, ?_⟩
      simpa using htold
    · rw [if_neg heq]
      refine ⟨[], by cases other <;> rfl, ?_⟩
      simp [Ne.symm heq]
  · by_cases heq : kind = other
    · simpa [heq] using hends
    · simp [heq]

theorem attributes_adds {forest : AttributeForest} (h : c.Holds s)
    (hrun : (attributes forest).run c = .ok answers c')
    (hwell : ∀ answer ∈ answers, answer = .ok ()) :
    ∃ s', c'.Holds s' ∧ Adds [attributes forest] s s' := by
  obtain ⟨_, _, hget, hrest⟩ := bind_eq_ok.mp hrun
  obtain ⟨rfl, rfl⟩ := EStateM.Result.ok.inj hget
  obtain ⟨⟨_, list⟩, _, hwithin, hset⟩ := bind_eq_ok.mp hrest
  obtain ⟨d, hextend, rfl⟩ := ClassM.within_eq_ok.mp hwithin
  obtain ⟨rfl, rfl⟩ := EStateM.Result.ok.inj hset
  have htallied : (AttributeList.tallied c.attributeCount).HoldsBytes false [] s.attributes.length
      (s.written .attributes) (c.draft .attributes).bytes :=
    ⟨rfl, h.attributeCount, h.written .attributes⟩
  obtain ⟨rfl, hgrows, hlist⟩ := AttributeForest.extend_eq_ok htallied hextend
  obtain ⟨ds, hds, hpool⟩ := hgrows s.constants h.pool
  obtain ⟨hbytes, hcount⟩ := AttributeList.HoldsBytes.tally (hlist hwell)
  refine ⟨_, h.addAttributes hbytes hcount hpool, ⟨rfl, rfl, rfl, rfl, rfl, hds⟩, fun kind => ?_,
    by simp, by simp, by simpa [AttributeForest.EndsWell] using hwell⟩
  exact ⟨[], by cases kind <;> exact (List.append_nil _).symm, by simp⟩

/-- Each step that ends well keeps the class in form and adds what it visits. -/
theorem run_adds (step : ClassStep) (h : c.Holds s) (hrun : step.run c = .ok answers c')
    (hwell : ∀ answer ∈ answers, answer = .ok ()) : ∃ s', c'.Holds s' ∧ Adds [step] s s' := by
  cases step with
  | pool call => exact pool_adds h hrun
  | member kind visit => exact member_adds h hrun hwell
  | attributes forest => exact attributes_adds h hrun hwell

theorem runAll_adds (steps : List ClassStep) (h : c.Holds s)
    (hrun : runAll steps c = .ok answers c') (hwell : ∀ answer ∈ answers, answer = .ok ()) :
    ∃ s', c'.Holds s' ∧ Adds steps s s' := by
  induction steps generalizing c s answers with
  | nil =>
    obtain ⟨-, rfl⟩ := pure_eq_ok.mp hrun
    exact ⟨s, h, adds_nil s⟩
  | cons step steps ih =>
    obtain ⟨first, c₁, hstep, hrest⟩ := bind_eq_ok.mp hrun
    obtain ⟨rest, _, hsteps, hpure⟩ := bind_eq_ok.mp hrest
    obtain ⟨rfl, rfl⟩ := pure_eq_ok.mp hpure
    obtain ⟨hfirst, hrestWell⟩ := List.forall_mem_append.mp hwell
    obtain ⟨s₁, h₁, hadds⟩ := step.run_adds h hstep hfirst
    obtain ⟨s₂, h₂, hadds'⟩ := ih h₁ hsteps hrestWell
    exact ⟨s₂, h₂, hadds.append hadds'⟩

end ClassStep

/-! ## Whole runs -/

/-- Everything a caller does to build a class. -/
structure ClassScript where
  /-- calls on the pool in front of the header -/
  calls : List PoolCall
  version : Version
  flags : AccessFlags
  names : HeaderNames
  steps : List ClassStep

namespace ClassScript

/-- All that comes before the end of the class. Answers what the ends of members and attributes have
answered. -/
def build (script : ClassScript) : ClassM (List (Except Error Unit)) := do
  script.calls.forM fun call => ClassM.onPool call.attempt
  script.names.visit script.version script.flags
  ClassStep.runAll script.steps

def run (script : ClassScript) : ClassM (List (Except Error Unit)) := do
  let answers ← script.build
  ClassM.finish
  return answers

/-- The members of the kind, in the order of their own visits. -/
def members (script : ClassScript) (kind : MemberKind) : List MemberVisit :=
  script.steps.filterMap (ClassStep.member? kind)

/-- What is done to the attributes of the class. -/
def forests (script : ClassScript) : List AttributeForest :=
  script.steps.filterMap ClassStep.attributes?

def classAttributes (script : ClassScript) : List Attribute :=
  script.forests.flatMap AttributeForest.attributes

/-- Everything that the script visits can be counted in 32 bits. -/
structure Bounded (script : ClassScript) : Prop where
  interfaces : script.names.interfaceCount < 2 ^ 32
  members : ∀ kind, (script.members kind).length < 2 ^ 32
  attributes : script.classAttributes.length < 2 ^ 32
  inMembers : ∀ kind, ∀ v ∈ script.members kind, v.Bounded
  inForests : ∀ forest ∈ script.forests, forest.Bounded

/-- The parts of the class are what the script has visited, and all that has ended well. -/
structure Shows (script : ClassScript) (s : ClassSyntax) : Prop where
  version : s.version = script.version
  flags : s.flags = script.flags
  names : script.names.ToldAs (SaysClass s.constants) s.thisClass s.superClass s.interfaces
  interfaces : count32 s.interfaces.length < 65536
  members : ∀ kind, List.Forall₂ (MemberVisit.ToldAs (SaysText s.constants)) (script.members kind)
    (s.members kind)
  attributes : s.attributes = script.classAttributes
  memberEnds : ∀ kind, ∀ v ∈ script.members kind, v.EndsWell
  classEnds : ∀ forest ∈ script.forests, forest.EndsWell

variable {script : ClassScript} {c c' : ClassDraft} {cs : List Constant} {s : ClassSyntax}
  {answers : List (Except Error Unit)}

theorem calls_eq_ok (calls : List PoolCall) (h : c.Fresh cs)
    (hrun : (calls.forM fun call => ClassM.onPool call.attempt) c = .ok () c') :
    ∃ ds, c'.Fresh ds := by
  induction calls generalizing c cs with
  | nil =>
    obtain ⟨-, rfl⟩ := pure_eq_ok.mp hrun
    exact ⟨cs, h⟩
  | cons call calls ih =>
    obtain ⟨_, c₁, hcall, hcalls⟩ := bind_eq_ok.mp hrun
    obtain ⟨p, hp, rfl⟩ := ClassM.onPool_eq_ok.mp hcall
    obtain ⟨-, rfl⟩ := EStateM.Result.ok.inj hp
    obtain ⟨ds, -, hpool⟩ := call.after_represents h.pool
    exact ih (h.withPool hpool) hcalls

theorem build_eq_ok (h : c.Fresh cs) (hbuild : script.build c = .ok answers c')
    (hwell : ∀ answer ∈ answers, answer = .ok ()) : ∃ s, c'.Holds s ∧ script.Shows s := by
  obtain ⟨_, c₁, hcalls, hrest⟩ := bind_eq_ok.mp hbuild
  obtain ⟨ds, hfresh⟩ := calls_eq_ok script.calls h hcalls
  obtain ⟨_, c₂, hheader, hsteps⟩ := bind_eq_ok.mp hrest
  obtain ⟨s₀, hopened⟩ := ClassM.visitHeader_opens hfresh hheader
  obtain ⟨s, hholds, hadds⟩ := ClassStep.runAll_adds script.steps hopened.holds hsteps hwell
  have hnames := hopened.names.mono fun _ _ => SaysClass.extend hadds.constants
  refine ⟨s, hholds, hadds.version.trans hopened.version, hadds.flags.trans hopened.flags, ?_, ?_,
    fun kind => ?_, ?_, hadds.memberEnds, hadds.classEnds⟩
  · rw [hadds.thisClass, hadds.superClass, hadds.interfaces]
    exact hnames
  · rw [hadds.interfaces]
    exact hopened.interfaces
  · obtain ⟨new, hnew, htold⟩ := hadds.members kind
    rw [hopened.members, List.nil_append] at hnew
    exact hnew ▸ htold
  · rw [hadds.attributes, hopened.attributes, List.nil_append]
    rfl

theorem run_eq_ok (h : c.Fresh cs) (hrun : script.run c = .ok answers c')
    (hwell : ∀ answer ∈ answers, answer = .ok ()) :
    ∃ s, script.Shows s ∧ c'.Closed s ∧ count32 s.fields.length < 65536 ∧ s.Countable := by
  obtain ⟨_, c₁, hbuild, hrest⟩ := bind_eq_ok.mp hrun
  obtain ⟨_, c₂, hfinish, hpure⟩ := bind_eq_ok.mp hrest
  obtain ⟨rfl, rfl⟩ := pure_eq_ok.mp hpure
  obtain ⟨s, hholds, hshows⟩ := build_eq_ok h hbuild hwell
  obtain ⟨hclosed, hfields, hcountable⟩ := ClassM.closed_of_finish hholds hfinish
  exact ⟨s, hshows, hclosed, hfields, hcountable⟩

/-! ## Reading back -/

theorem forall_mem_of_forall₂ {α β : Type} {R : α → β → Prop} {P : β → Prop} {l : List α}
    {l' : List β} (h : List.Forall₂ R l l') (hP : ∀ a b, R a b → P b) : ∀ b ∈ l', P b := by
  induction h with
  | nil => simp
  | cons hab _ ih =>
    rw [List.forall_mem_cons]
    exact ⟨hP _ _ hab, ih⟩

theorem Shows.length_members (h : script.Shows s) (kind : MemberKind) :
    (s.members kind).length = (script.members kind).length :=
  (h.members kind).length_eq.symm

theorem Shows.wellFormed (h : script.Shows s) (hb : script.Bounded)
    (hfields : count32 s.fields.length < 65536) (hs : s.Countable) : s.counted.WellFormed := by
  have hmembers (kind : MemberKind) : ∀ m ∈ s.members kind, m.Fits := by
    have hgood : ∀ v ∈ script.members kind, v.EndsWell ∧ v.Bounded :=
      fun v hv => ⟨h.memberEnds kind v hv, hb.inMembers kind v hv⟩
    have htold := (List.forall₂_and_left _ _).mpr ⟨hgood, h.members kind⟩
    exact forall_mem_of_forall₂ htold fun v m hv => hv.2.fits hv.1.1 hv.1.2
  have hfieldCount : s.fields.length < 2 ^ 32 := (h.length_members .field).trans_lt (hb.members _)
  have hmethodCount : s.methods.length < 2 ^ 32 :=
    (h.length_members .method).trans_lt (hb.members _)
  have hattributeCount : s.attributes.length < 2 ^ 32 := h.attributes ▸ hb.attributes
  constructor
  case constants =>
    rw [hs.toNat_count, Nat.add_sub_cancel_left]
    exact fill_slotCount s.constants
  case interfaces =>
    have hinterfaces := h.interfaces
    rwa [count32_of_lt (h.names.length_eq.trans_lt hb.interfaces)] at hinterfaces
  case fieldCount => rwa [count32_of_lt hfieldCount] at hfields
  case fields => exact hmembers .field
  case methodCount => exact count32_of_lt hmethodCount ▸ hs.methods
  case methods => exact hmembers .method
  case attributeCount => exact count32_of_lt hattributeCount ▸ hs.attributes
  case attributes =>
    intro a ha
    have hlist : a ∈ script.classAttributes := h.attributes ▸ ha
    obtain ⟨forest, hforest, hin⟩ := List.mem_flatMap.mp hlist
    exact (h.classEnds forest hforest).fits (hb.inForests forest hforest) a hin

end ClassScript
end JavaClass
