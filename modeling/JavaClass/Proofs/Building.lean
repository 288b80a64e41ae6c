import JavaClass.Proofs.Drafting
import JavaClass.Proofs.Grammar
import JavaClass.Proofs.Interning

/-!
# What classes under construction hold

Each section of an open class holds the encodings of the parts visited so far, and the number of
fields is still zero. Finishing patches that number, and serializing then gives the encoding of the
whole class.
-/

namespace JavaClass

open Constant DraftM

/-! ## Steps in one section -/

namespace ClassDraft

@[simp] theorem draft_withDraft (c : ClassDraft) (place : Section) (d : Draft) :
    (c.withDraft place d).draft place = d := by
  cases place <;> rfl

@[simp] theorem withDraft_withDraft (c : ClassDraft) (place : Section) (d d' : Draft) :
    (c.withDraft place d).withDraft place d' = c.withDraft place d' := by
  cases place <;> rfl

end ClassDraft

namespace ClassM

variable {α : Type} {c c' : ClassDraft} {place : Section} {step : DraftM α} {d d' : Draft} {a : α}
  {bytes : List UInt8}

theorem within_apply_ok (h : step (c.draft place) = .ok a d) :
    within place step c = .ok a (c.withDraft place d) := by
  simp only [within, h, ClassDraft.withDraft_withDraft]

theorem within_apply_error {e : Error} (h : step (c.draft place) = .error e d) :
    within place step c = .error e (c.withDraft place d) := by
  simp only [within, h, ClassDraft.withDraft_withDraft]

theorem within_eq_ok : within place step c = .ok a c' ↔
    ∃ d, step (c.draft place) = .ok a d ∧ c' = c.withDraft place d := by
  constructor
  · intro h
    cases hstep : step (c.draft place) with
    | ok b d =>
      rw [within_apply_ok hstep] at h
      obtain ⟨rfl, rfl⟩ := EStateM.Result.ok.inj h
      exact ⟨d, rfl, rfl⟩
    | error e d =>
      rw [within_apply_error hstep] at h
      cases h
  · rintro ⟨d, hstep, rfl⟩
    exact within_apply_ok hstep

theorem within_withDraft_eq_ok : within place step (c.withDraft place d) = .ok a c' ↔
    ∃ d', step d = .ok a d' ∧ c' = c.withDraft place d' := by
  rw [within_eq_ok, ClassDraft.draft_withDraft]
  simp only [ClassDraft.withDraft_withDraft]

theorem onPool_apply_ok {call : PoolM α} {p : ConstantPool} (h : call c.pool = .ok a p) :
    onPool call c = .ok a { c with pool := p } := by
  simp only [onPool, h]

theorem onPool_apply_error {call : PoolM α} {e : Error} {p : ConstantPool}
    (h : call c.pool = .error e p) : onPool call c = .error e { c with pool := p } := by
  simp only [onPool, h]

theorem onPool_eq_ok {call : PoolM α} : onPool call c = .ok a c' ↔
    ∃ p, call c.pool = .ok a p ∧ c' = { c with pool := p } := by
  constructor
  · intro h
    cases hcall : call c.pool with
    | ok b p =>
      rw [onPool_apply_ok hcall] at h
      obtain ⟨rfl, rfl⟩ := EStateM.Result.ok.inj h
      exact ⟨p, rfl, rfl⟩
    | error e p =>
      rw [onPool_apply_error hcall] at h
      cases h
  · rintro ⟨p, hcall, rfl⟩
    exact onPool_apply_ok hcall

end ClassM

/-! ## Open classes -/

/-- The two lists of members that a class has. -/
inductive MemberKind
  | field
  | method
  deriving DecidableEq

/-- Where members of the kind are written. -/
def MemberKind.place : MemberKind → Section
  | field => .body
  | method => .methods

namespace ClassSyntax

def members (s : ClassSyntax) : MemberKind → List Member
  | .field => s.fields
  | .method => s.methods

def addMember (s : ClassSyntax) (kind : MemberKind) (m : Member) : ClassSyntax :=
  match kind with
  | .field => { s with fields := s.fields ++ [m] }
  | .method => { s with methods := s.methods ++ [m] }

/-- What a section of the open class holds. -/
def written (s : ClassSyntax) : Section → List UInt8
  | .body => s.encodeHeader ++ List.replicate 2 0 ++ s.fields.flatMap Member.encode
  | .methods => s.methods.flatMap Member.encode
  | .attributes => s.attributes.flatMap Attribute.encode

/-- The class with the count that its constants ask for. -/
def counted (s : ClassSyntax) : ClassSyntax :=
  { s with count := UInt16.ofNat (1 + slotCount s.constants) }

@[simp] theorem constants_addMember (s : ClassSyntax) (kind : MemberKind) (m : Member) :
    (s.addMember kind m).constants = s.constants := by
  cases kind <;> rfl

theorem members_addMember (s : ClassSyntax) (kind : MemberKind) (m : Member) (other : MemberKind) :
    (s.addMember kind m).members other =
      s.members other ++ if other = kind then [m] else [] := by
  cases kind <;> cases other <;> simp [addMember, members]

theorem written_addMember (s : ClassSyntax) (kind : MemberKind) (m : Member) (place : Section) :
    (s.addMember kind m).written place =
      s.written place ++ if place = kind.place then m.encode else [] := by
  cases kind <;> cases place <;> simp [addMember, written, MemberKind.place, encodeHeader]

end ClassSyntax

/-- One more member of the kind is counted. -/
def ClassDraft.countMember (c : ClassDraft) : MemberKind → ClassDraft
  | .field => { c with fields := c.fields.map fun slot => { slot with count := slot.count + 1 } }
  | .method => { c with methodCount := c.methodCount + 1 }

/-- The class is open, and its sections hold the encodings of the header and the parts. -/
structure ClassDraft.Holds (c : ClassDraft) (s : ClassSyntax) : Prop where
  version : c.version = s.version
  pool : c.pool.Represents s.constants
  written : ∀ place, (c.draft place).bytes = s.written place
  slot : c.fields = some ⟨s.encodeHeader.length, UInt32.ofNat s.fields.length⟩
  methodCount : c.methodCount = UInt32.ofNat s.methods.length
  attributeCount : c.attributeCount = UInt32.ofNat s.attributes.length

namespace ClassDraft.Holds

variable {c : ClassDraft} {s : ClassSyntax} {d : Draft} {ds : List Constant}

theorem withPool {p : ConstantPool} (h : c.Holds s) (hp : p.Represents ds) :
    ({ c with pool := p } : ClassDraft).Holds { s with constants := ds } where
  __ := h
  pool := hp
  written place := by
    have hplace := h.written place
    cases place <;> exact hplace

theorem addMember (kind : MemberKind) (m : Member) (h : c.Holds s)
    (hbytes : d.bytes = s.written kind.place ++ m.encode) (hpool : d.pool.Represents ds) :
    ((c.countMember kind).withDraft kind.place d).Holds
      (({ s with constants := ds } : ClassSyntax).addMember kind m) where
  version := by cases kind <;> exact h.version
  pool := by cases kind <;> exact hpool
  written place := by
    rw [ClassSyntax.written_addMember]
    have hplace := h.written place
    cases kind <;> cases place <;> first
      | exact hbytes
      | exact hplace.trans (List.append_nil _).symm
  slot := by
    cases kind
    · show c.fields.map _ = _
      rw [h.slot]
      simp [ClassSyntax.addMember, ClassSyntax.encodeHeader]
    · exact h.slot
  methodCount := by
    cases kind
    · exact h.methodCount
    · show c.methodCount + 1 = _
      rw [h.methodCount]
      simp [ClassSyntax.addMember]
  attributeCount := by cases kind <;> exact h.attributeCount

theorem addAttributes {l : List Attribute} {n : UInt32} (h : c.Holds s)
    (hbytes : d.bytes = s.written .attributes ++ l.flatMap Attribute.encode)
    (hn : n = UInt32.ofNat (s.attributes.length + l.length)) (hpool : d.pool.Represents ds) :
    ({ c.withDraft .attributes d with attributeCount := n } : ClassDraft).Holds
      { s with constants := ds, attributes := s.attributes ++ l } where
  __ := h
  pool := hpool
  written place := by
    cases place with
    | body => exact h.written .body
    | methods => exact h.written .methods
    | attributes =>
      show d.bytes = _
      rw [hbytes]
      simp [ClassSyntax.written]
  attributeCount := by
    show n = _
    rw [hn, List.length_append]

end ClassDraft.Holds

/-! ## The header -/

/-- Nothing is visited yet; only the pool may hold something. -/
structure ClassDraft.Fresh (c : ClassDraft) (cs : List Constant) : Prop where
  pool : c.pool.Represents cs
  unwritten : ∀ place, (c.draft place).bytes = []
  slot : c.fields = none
  methodCount : c.methodCount = 0
  attributeCount : c.attributeCount = 0

namespace ClassDraft

theorem fresh_withOptions (options : DraftOptions) : (withOptions options).Fresh [] where
  pool := .withPolicy _ _
  unwritten place := by cases place <;> rfl
  slot := rfl
  methodCount := rfl
  attributeCount := rfl

theorem Fresh.withPool {c : ClassDraft} {cs ds : List Constant} {p : ConstantPool} (h : c.Fresh cs)
    (hp : p.Represents ds) : ({ c with pool := p } : ClassDraft).Fresh ds where
  __ := h
  pool := hp
  unwritten place := by
    have := h.unwritten place
    cases place <;> exact this

end ClassDraft

namespace ClassM

variable {c c' : ClassDraft} {s : ClassSyntax} {cs : List Constant} {d : Draft}

theorem toList_foldl_put16 (words : List UInt16) (b : ByteBuffer) :
    (words.foldl (·.put16 ·) b).toList = b.toList ++ words.flatMap bytes16 := by
  induction words generalizing b with
  | nil => simp
  | cons w words ih => simp [ih]

theorem header_eq_ok (h : c.Fresh cs) (version : Version) (flags : AccessFlags)
    (thisClass superClass : UInt16) (interfaces : List UInt16)
    (hcount : count32 interfaces.length < 65536) :
    ∃ c', header version flags thisClass superClass interfaces c = .ok () c' ∧
      c'.Holds ⟨version, 0, cs, flags, thisClass, superClass, interfaces, [], [], []⟩ := by
  let s : ClassSyntax := ⟨version, 0, cs, flags, thisClass, superClass, interfaces, [], [], []⟩
  have hleaves : Leaves (do
      onBuffer (·.putMemberHeader flags.bits thisClass superClass)
      onBuffer (·.put16 (UInt16.ofNat interfaces.length))
      onBuffer fun b => interfaces.foldl (·.put16 ·) b
      CountSlot.start) (c.draft .body) ⟨s.encodeHeader.length, 0⟩
      (s.encodeHeader ++ List.replicate 2 0) := by
    refine (leaves_onBuffer _ fun b => Buffer.toList_putMemberHeader b _ _ _).bind fun d₁ h₁ => ?_
    refine (leaves_onBuffer _ fun b => Buffer.toList_put16 b _).bind fun d₂ h₂ => ?_
    refine (leaves_onBuffer _ fun b => toList_foldl_put16 interfaces b).bind fun d₃ h₃ => ?_
    have hbytes : d₃.bytes = s.encodeHeader := by
      rw [h₃, h₂, h₁, h.unwritten .body]
      simp [ClassSyntax.encodeHeader, encodeCounted, s]
    rw [← hbytes]
    exact CountSlot.leaves_start d₃
  obtain ⟨d, hd, hbytes, hpool⟩ := hleaves
  refine ⟨{ ({ c with version } : ClassDraft).withDraft .body d with
    fields := some ⟨s.encodeHeader.length, 0⟩ }, ?_, ?_⟩
  · have hchecked : count16 .interfaces (UInt32.ofNat interfaces.length) =
        .ok (UInt16.ofNat interfaces.length) := by rw [count16_counter, if_pos hcount]
    refine (bind_apply_ok (lift_eq_ok.mpr ⟨hchecked, rfl⟩)).trans ?_
    exact (bind_apply_ok rfl).trans (bind_apply_ok (within_apply_ok hd))
  · refine ⟨rfl, ?_, ?_, rfl, h.methodCount, h.attributeCount⟩
    · show d.pool.Represents cs
      rw [hpool]
      exact h.pool
    · intro place
      cases place with
      | body => exact hbytes.trans (List.append_nil _).symm
      | methods => exact h.unwritten .methods
      | attributes => exact h.unwritten .attributes

theorem header_error (version : Version) (flags : AccessFlags) (thisClass superClass : UInt16)
    (interfaces : List UInt16) (hcount : ¬ count32 interfaces.length < 65536) (c : ClassDraft) :
    ∃ e, header version flags thisClass superClass interfaces c = .error e c := by
  refine ⟨.countOverflow .interfaces (count32 interfaces.length), ?_⟩
  unfold header
  rw [count16_counter, if_neg hcount]
  rfl

/-- So many interfaces that their number is zero again in 32 bits are taken for none, and written
behind a count of none. -/
theorem header_of_wrapped (h : c.Fresh cs) (version : Version) (flags : AccessFlags)
    (thisClass superClass : UInt16) {interfaces : List UInt16}
    (hwrapped : interfaces.length = 2 ^ 32) :
    ∃ c', header version flags thisClass superClass interfaces c = .ok () c' ∧
      c'.body.toList = bytes16 flags.bits ++ bytes16 thisClass ++ bytes16 superClass ++ bytes16 0 ++
        interfaces.flatMap bytes16 ++ bytes16 0 := by
  obtain ⟨c', hok, hholds⟩ := header_eq_ok h version flags thisClass superClass interfaces
    (by rw [hwrapped]; decide)
  have hcount : UInt16.ofNat interfaces.length = 0 := by
    rw [hwrapped]
    rfl
  have hreserved : List.replicate 2 0 = bytes16 0 := rfl
  refine ⟨c', hok, (hholds.written .body).trans ?_⟩
  simp only [ClassSyntax.written, ClassSyntax.encodeHeader, encodeCounted, hcount, hreserved,
    List.flatMap_nil, List.append_nil, List.append_assoc]

end ClassM

/-! ## Members -/

namespace ClassM

variable {c c' : ClassDraft} {s : ClassSyntax} {d : Draft} {list : AttributeList}
  {base : List UInt8} {attributes : List Attribute}

theorem startMember_eq_ok (place : Section) (flags : AccessFlags) (name descriptor : UInt16)
    (c : ClassDraft) : ∃ list d,
      startMember place flags name descriptor c = .ok ⟨place, list⟩ (c.withDraft place d) ∧
      list.Holds true ((c.draft place).bytes ++
        (bytes16 flags.bits ++ bytes16 name ++ bytes16 descriptor)) [] d.bytes ∧
      d.pool = c.pool := by
  obtain ⟨d₁, h₁, hbytes₁, hpool₁⟩ := leaves_onBuffer (c.draft place)
    fun b => Buffer.toList_putMemberHeader b flags.bits name descriptor
  obtain ⟨list, ⟨d₂, h₂, hbytes₂, hpool₂⟩, hlist⟩ := AttributeList.holdsBytes_start d₁
  refine ⟨list, d₂, within_apply_ok ?_, ?_, ?_⟩
  · exact (bind_apply_ok h₁).trans (bind_apply_ok h₂)
  · rw [← hbytes₁, hbytes₂]
    exact hlist
  · rw [hpool₂, hpool₁]
    cases place <;> rfl

/-- Starts a member of the kind. -/
def startKind (kind : MemberKind) (flags : AccessFlags) (name descriptor : UInt16) :
    ClassM MemberDraft :=
  match kind with
  | .field => startField flags name descriptor
  | .method => startMethod flags name descriptor

theorem startKind_eq_ok (kind : MemberKind) (h : c.Holds s) (flags : AccessFlags)
    (name descriptor : UInt16) : ∃ list d,
      startKind kind flags name descriptor c =
        .ok ⟨kind.place, list⟩ ((c.countMember kind).withDraft kind.place d) ∧
      list.Holds true (s.written kind.place ++
        (bytes16 flags.bits ++ bytes16 name ++ bytes16 descriptor)) [] d.bytes ∧
      d.pool = c.pool := by
  obtain ⟨list, d, hstart, hlist, hpool⟩ :=
    startMember_eq_ok kind.place flags name descriptor (c.countMember kind)
  have hbytes : ((c.countMember kind).draft kind.place).bytes = s.written kind.place := by
    rw [← h.written]
    cases kind <;> rfl
  refine ⟨list, d, ?_, hbytes ▸ hlist, ?_⟩
  · cases kind with
    | field =>
      have hcount : countField c = .ok () (c.countMember .field) := by
        refine (bind_apply_ok rfl).trans ?_
        simp only [h.slot, ClassDraft.countMember]
        rfl
      exact (bind_apply_ok hcount).trans hstart
    | method => exact (bind_apply_ok rfl).trans hstart
  · rw [hpool]
    cases kind <;> rfl

theorem finishMember_eq_ok (c : ClassDraft) (place : Section) {flags : AccessFlags}
    {name descriptor : UInt16}
    (h : list.Holds true (base ++ (bytes16 flags.bits ++ bytes16 name ++ bytes16 descriptor))
      attributes d.bytes) (hcount : count32 attributes.length < 65536) :
    ∃ d', finishMember ⟨place, list⟩ (c.withDraft place d) = .ok () (c.withDraft place d') ∧
      d'.bytes = base ++ Member.encode ⟨flags, name, descriptor, attributes⟩ ∧
      d'.pool = d.pool := by
  obtain ⟨d', hd', hbytes, hpool⟩ := AttributeList.HoldsBytes.finish .attributes h hcount
  refine ⟨d', within_withDraft_eq_ok.mpr ⟨d', hd', rfl⟩, ?_, hpool⟩
  rw [hbytes, Member.encode, encodeCounted, List.append_assoc]

end ClassM

/-! ## Serializing -/

namespace ClassSyntax

variable {s : ClassSyntax}

/-- All that is checked at the end fits its count, as far as 32 bits show. -/
structure Countable (s : ClassSyntax) : Prop where
  room : 1 + slotCount s.constants < 65536
  methods : count32 s.methods.length < 65536
  attributes : count32 s.attributes.length < 65536

theorem Countable.toNat_count (h : s.Countable) :
    s.counted.count.toNat = 1 + slotCount s.constants :=
  UInt16.toNat_ofNat_of_lt' h.room

end ClassSyntax

namespace ClassDraft

theorem forM_modify (l : List Bytes) (written : Bytes) :
    l.forM (fun piece => (modify (· ++ piece) : EStateM Error Bytes Unit)) written =
      .ok () (l.foldl (· ++ ·) written) := by
  induction l generalizing written with
  | nil => rfl
  | cons piece l ih => exact (bind_apply_ok rfl).trans (ih (written ++ piece))

theorem toList_foldl_append (l : List Bytes) (written : Bytes) :
    (l.foldl (· ++ ·) written).toList = written.toList ++ l.flatMap Array.toList := by
  induction l generalizing written with
  | nil => simp
  | cons piece l ih => simp [ih]

theorem pieces_of_counts {c : ClassDraft} (hpool : c.pool.count < 65536)
    (hmethods : c.methodCount < 65536) (hattributes : c.attributeCount < 65536) : c.pieces =
      .ok [(bytes32 magic).toArray, (bytes16 c.version.minor).toArray,
        (bytes16 c.version.major).toArray, (bytes16 (UInt16.ofNat c.pool.count)).toArray,
        c.pool.entries.data, c.body.data, (bytes16 c.methodCount.toUInt16).toArray,
        c.methods.data, (bytes16 c.attributeCount.toUInt16).toArray, c.attributes.data] := by
  unfold pieces ConstantPool.encodedCount count16
  rw [if_pos hpool, if_pos hmethods, if_pos hattributes]
  rfl

theorem counts_of_pieces {c : ClassDraft} {l : List Bytes} (hl : c.pieces = .ok l) :
    c.pool.count < 65536 ∧ c.methodCount < 65536 ∧ c.attributeCount < 65536 := by
  obtain ⟨_, hpool, hrest⟩ := except_bind_eq_ok.mp hl
  obtain ⟨_, hmethods, hrest⟩ := except_bind_eq_ok.mp hrest
  obtain ⟨_, hattributes, -⟩ := except_bind_eq_ok.mp hrest
  unfold ConstantPool.encodedCount at hpool
  unfold count16 at hmethods hattributes
  refine ⟨?_, ?_, ?_⟩
  · by_contra hfull
    rw [if_neg hfull] at hpool
    cases hpool
  · by_contra hmany
    rw [if_neg hmany] at hmethods
    cases hmethods
  · by_contra hmany
    rw [if_neg hmany] at hattributes
    cases hattributes

theorem writeTo_of_pieces {c : ClassDraft} {l : List Bytes} (hl : c.pieces = .ok l) {σ : Type}
    (write : Bytes → EStateM Error σ Unit) : c.writeTo write = l.forM write := by
  funext t
  exact bind_apply_ok (lift_eq_ok.mpr ⟨hl, rfl⟩)

theorem toBytes_of_pieces {c : ClassDraft} {l : List Bytes} (hl : c.pieces = .ok l) :
    c.toBytes = .ok (l.flatMap Array.toList).toArray := by
  have hwrite : c.writeTo (fun piece => modify (· ++ piece)) (#[] : Bytes) =
      .ok () (l.foldl (· ++ ·) #[]) := by
    rw [writeTo_of_pieces hl]
    exact forM_modify l #[]
  have hlist : (l.foldl (· ++ ·) (#[] : Bytes)) = (l.flatMap Array.toList).toArray := by
    rw [← Array.toList_inj, toList_foldl_append]
    simp
  simp only [toBytes, hwrite, hlist]

theorem writeTo_of_error {c : ClassDraft} {e : Error} (he : c.pieces = .error e) {σ : Type}
    (write : Bytes → EStateM Error σ Unit) (t : σ) : c.writeTo write t = .error e t := by
  unfold writeTo
  rw [he]
  rfl

theorem toBytes_of_error {c : ClassDraft} {e : Error} (he : c.pieces = .error e) :
    c.toBytes = .error e := by
  unfold toBytes
  rw [writeTo_of_error he]

end ClassDraft

/-- The class is finished, and this number stands in front of the fields. -/
structure ClassDraft.ClosedWith (c : ClassDraft) (s : ClassSyntax) (fieldCount : UInt16) :
    Prop where
  version : c.version = s.version
  pool : c.pool.Represents s.constants
  body : c.body.toList = s.encodeHeader ++ bytes16 fieldCount ++ s.fields.flatMap Member.encode
  methods : c.methods.toList = s.methods.flatMap Member.encode
  attributes : c.attributes.toList = s.attributes.flatMap Attribute.encode
  methodCount : c.methodCount = UInt32.ofNat s.methods.length
  attributeCount : c.attributeCount = UInt32.ofNat s.attributes.length

/-- The number of fields stands in front of them. -/
abbrev ClassDraft.Closed (c : ClassDraft) (s : ClassSyntax) : Prop :=
  c.ClosedWith s (UInt16.ofNat s.fields.length)

/-- The class with this number in front of its fields. -/
def ClassSyntax.encodeWith (s : ClassSyntax) (fieldCount : UInt16) : List UInt8 :=
  s.encodePreamble ++ encodeAll s.constants ++ s.encodeHeader ++ bytes16 fieldCount ++
    s.fields.flatMap Member.encode ++ encodeCounted Member.encode s.methods ++
    encodeCounted Attribute.encode s.attributes

theorem ClassSyntax.encodeWith_length (s : ClassSyntax) :
    s.encodeWith (UInt16.ofNat s.fields.length) = s.encode := by
  simp [encodeWith, encode, encodeCounted]

namespace ClassDraft.ClosedWith

variable {c : ClassDraft} {s : ClassSyntax} {fieldCount : UInt16}

theorem pieces_eq_ok (h : c.ClosedWith s fieldCount) (hs : s.Countable) :
    ∃ l : List Bytes, c.pieces = .ok l ∧
      l.flatMap Array.toList = s.counted.encodeWith fieldCount := by
  have hentries : c.pool.entries.data.toList = encodeAll s.constants := h.pool.entries
  have hbody : c.body.data.toList = _ := h.body
  have hmethodBytes : c.methods.data.toList = _ := h.methods
  have hattributeBytes : c.attributes.data.toList = _ := h.attributes
  refine ⟨_, pieces_of_counts (h.pool.count ▸ hs.room)
    (h.methodCount ▸ counter_lt.mpr hs.methods)
    (h.attributeCount ▸ counter_lt.mpr hs.attributes), ?_⟩
  simp only [List.flatMap_cons, List.flatMap_nil, hentries, hbody, hmethodBytes, hattributeBytes,
    h.version, h.pool.count, h.methodCount, h.attributeCount]
  simp [ClassSyntax.counted, ClassSyntax.encodeWith, ClassSyntax.encodePreamble,
    ClassSyntax.encodeHeader, encodeCounted]

theorem countable_of_pieces (h : c.ClosedWith s fieldCount) {l : List Bytes}
    (hl : c.pieces = .ok l) : s.Countable := by
  obtain ⟨hpool, hmethods, hattributes⟩ := counts_of_pieces hl
  rw [h.pool.count] at hpool
  rw [h.methodCount] at hmethods
  rw [h.attributeCount] at hattributes
  exact ⟨hpool, counter_lt.mp hmethods, counter_lt.mp hattributes⟩

theorem pieces_error (h : c.ClosedWith s fieldCount)
    (hfull : ¬ 1 + slotCount s.constants < 65536) :
    c.pieces = .error (.poolOverflow (1 + slotCount s.constants)) := by
  have hpool : c.pool.encodedCount = .error (.poolOverflow (1 + slotCount s.constants)) := by
    rw [ConstantPool.encodedCount, h.pool.count, if_neg hfull]
  unfold pieces
  rw [hpool]
  rfl

theorem toBytes_eq_ok (h : c.ClosedWith s fieldCount) (hs : s.Countable) :
    c.toBytes = .ok (s.counted.encodeWith fieldCount).toArray := by
  obtain ⟨l, hl, hbytes⟩ := h.pieces_eq_ok hs
  rw [toBytes_of_pieces hl, hbytes]

end ClassDraft.ClosedWith

namespace ClassDraft.Closed

variable {c : ClassDraft} {s : ClassSyntax}

theorem toBytes_eq_ok (h : c.Closed s) (hs : s.Countable) :
    c.toBytes = .ok s.counted.encode.toArray := by
  rw [ClosedWith.toBytes_eq_ok h hs]
  exact congrArg (Except.ok ·.toArray) s.counted.encodeWith_length

end ClassDraft.Closed

namespace ClassM

variable {c c' : ClassDraft} {s : ClassSyntax}

/-- The class with its body patched, and its fields no longer counted. -/
def withBody (c : ClassDraft) (d : Draft) : ClassDraft :=
  ({ c with fields := none } : ClassDraft).withDraft .body d

theorem finish_of_counted (h : c.fields = none) :
    finish c = (do let _ ← (liftM c.pieces : ClassM (List Bytes))) c := by
  refine (bind_apply_ok rfl).trans ?_
  simp only [h]
  exact bind_apply_ok rfl

theorem finish_eq_finish {header fields : List UInt8} {n : Nat}
    (hslot : c.fields = some ⟨header.length, UInt32.ofNat n⟩)
    (hbody : (c.draft .body).bytes = header ++ List.replicate 2 0 ++ fields)
    (hn : count32 n < 65536) :
    ∃ d : Draft, d.bytes = header ++ bytes16 (UInt16.ofNat n) ++ fields ∧ d.pool = c.pool ∧
      finish c = finish (withBody c d) := by
  have hbody' : ({ c with fields := none }.draft .body).bytes =
      header ++ List.replicate 2 0 ++ fields := hbody
  obtain ⟨d, hd, hbytes, hpool⟩ := CountSlot.leaves_finish .fields hbody' rfl hn
  refine ⟨d, hbytes, hpool, ?_⟩
  rw [finish_of_counted (c := withBody c d) rfl]
  refine (bind_apply_ok rfl).trans ?_
  simp only [hslot]
  refine (bind_apply_ok rfl).trans ?_
  exact (bind_apply_ok (within_apply_ok hd)).trans (bind_apply_ok rfl)

theorem finish_closes (h : c.Holds s) (hfields : count32 s.fields.length < 65536) :
    ∃ c' : ClassDraft, c'.Closed s ∧ c'.fields = none ∧ finish c = finish c' := by
  obtain ⟨d, hbytes, hpool, hfinish⟩ := finish_eq_finish h.slot (h.written .body) hfields
  refine ⟨withBody c d, ?_, rfl, hfinish⟩
  constructor
  case version => exact h.version
  case pool =>
    show d.pool.Represents s.constants
    rw [hpool]
    exact h.pool
  case body => exact hbytes
  case methods => exact h.written .methods
  case attributes => exact h.written .attributes
  case methodCount => exact h.methodCount
  case attributeCount => exact h.attributeCount

theorem finish_apply (h : c.Holds s) (hfields : count32 s.fields.length < 65536) :
    ∃ c' : ClassDraft, c'.Closed s ∧ (∀ l, c'.pieces = .ok l → finish c = .ok () c') ∧
      (∀ e, c'.pieces = .error e → finish c = .error e c') := by
  obtain ⟨c', hclosed, hcounted, hfinish⟩ := finish_closes h hfields
  rw [finish_of_counted hcounted] at hfinish
  refine ⟨c', hclosed, fun l hl => ?_, fun e he => ?_⟩
  · rw [hfinish]
    exact bind_apply_ok (lift_eq_ok.mpr ⟨hl, rfl⟩)
  · rw [hfinish, he]
    rfl

/-- A number of fields that does not fit is not put in place, and not kept either. -/
theorem finish_error (h : c.Holds s) (hfields : ¬ count32 s.fields.length < 65536) :
    finish c = .error (.countOverflow .fields (count32 s.fields.length))
      { c with fields := none } := by
  refine (bind_apply_ok rfl).trans ?_
  simp only [h.slot]
  refine (bind_apply_ok rfl).trans ?_
  exact bind_apply_error (within_apply_error (CountSlot.finish_error .fields hfields))

theorem closed_of_finish (h : c.Holds s) (hrun : finish c = .ok () c') :
    c'.Closed s ∧ count32 s.fields.length < 65536 ∧ s.Countable := by
  by_cases hfields : count32 s.fields.length < 65536
  · obtain ⟨c₁, hclosed, hok, herror⟩ := finish_apply h hfields
    cases hpieces : c₁.pieces with
    | ok l =>
      rw [hok l hpieces] at hrun
      obtain ⟨-, rfl⟩ := EStateM.Result.ok.inj hrun
      exact ⟨hclosed, hfields, hclosed.countable_of_pieces hpieces⟩
    | error e =>
      rw [herror e hpieces] at hrun
      cases hrun
  · rw [finish_error h hfields] at hrun
    cases hrun

end ClassM

end JavaClass
