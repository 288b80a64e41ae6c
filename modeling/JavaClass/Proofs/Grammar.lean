import JavaClass.Proofs.PoolWalk
import JavaClass.Proofs.Walks

/-!
# The grammar of class files

The parts that a class file is made of, their encoding, and what a reader reports of them. Parsing
accepts exactly the encodings, with anything behind them, and reports the parts.
-/

namespace JavaClass

/-- The parts of a class file, in the order in which they stand there. -/
@[ext]
structure ClassSyntax where
  version : Version
  /-- one more than the slots that the constants fill, or 0 -/
  count : UInt16
  constants : List Constant
  flags : AccessFlags
  thisClass : UInt16
  superClass : UInt16
  interfaces : List UInt16
  fields : List Member
  methods : List Member
  attributes : List Attribute

namespace ClassSyntax

open Constant

/-- Magic number, version and number of slots. -/
def encodePreamble (s : ClassSyntax) : List UInt8 :=
  bytes32 magic ++ bytes16 s.version.minor ++ bytes16 s.version.major ++ bytes16 s.count

/-- What stands between the pool and the fields. -/
def encodeHeader (s : ClassSyntax) : List UInt8 :=
  bytes16 s.flags.bits ++ bytes16 s.thisClass ++ bytes16 s.superClass ++
    encodeCounted bytes16 s.interfaces

def encode (s : ClassSyntax) : List UInt8 :=
  s.encodePreamble ++ encodeAll s.constants ++ s.encodeHeader ++
    encodeCounted Member.encode s.fields ++ encodeCounted Member.encode s.methods ++
    encodeCounted Attribute.encode s.attributes

/-- What stands behind the pool. -/
def encodeBody (s : ClassSyntax) : List UInt8 :=
  s.encodeHeader ++ encodeCounted Member.encode s.fields ++
    encodeCounted Member.encode s.methods ++ encodeCounted Attribute.encode s.attributes

theorem encode_eq (s : ClassSyntax) :
    s.encode = s.encodePreamble ++ encodeAll s.constants ++ s.encodeBody := by
  simp [encode, encodeBody]

/-- The constants fill the declared slots, and all other counts and lengths fit their fields. -/
structure WellFormed (s : ClassSyntax) : Prop where
  constants : Fill (s.count.toNat - 1) s.constants
  interfaces : s.interfaces.length < 65536
  fieldCount : s.fields.length < 65536
  fields : ∀ m ∈ s.fields, m.Fits
  methodCount : s.methods.length < 65536
  methods : ∀ m ∈ s.methods, m.Fits
  attributeCount : s.attributes.length < 65536
  attributes : ∀ a ∈ s.attributes, a.Fits

/-! ## Where the parts stand -/

def headerOffset (s : ClassSyntax) : Nat := 10 + (encodeAll s.constants).length

def fieldsOffset (s : ClassSyntax) : Nat := s.headerOffset + s.encodeHeader.length

def methodsOffset (s : ClassSyntax) : Nat :=
  s.fieldsOffset + (encodeCounted Member.encode s.fields).length

def attributesOffset (s : ClassSyntax) : Nat :=
  s.methodsOffset + (encodeCounted Member.encode s.methods).length

variable {s t : ClassSyntax}

theorem length_encodePreamble (s : ClassSyntax) : s.encodePreamble.length = 10 := by
  simp [encodePreamble]

theorem length_encode (s : ClassSyntax) : s.encode.length =
    s.attributesOffset + (encodeCounted Attribute.encode s.attributes).length := by
  simp only [encode, attributesOffset, methodsOffset, fieldsOffset, headerOffset,
    List.length_append, length_encodePreamble]

/-- The layout of an encoding that begins at `start`. -/
def layoutAt (start : Nat) (s : ClassSyntax) : Layout where
  version := s.version
  starts := #[none] ++ Decoder.slotStarts (s.count.toNat - 1) (start + 10) s.constants
  header := start + s.headerOffset
  fields := start + s.fieldsOffset
  methods := start + s.methodsOffset
  attributes := start + s.attributesOffset
  stop := start + s.encode.length

theorem marks_eq_layoutAt (s : ClassSyntax) (start : Nat) :
    let pool := start + (bytes32 magic).length +
      (bytes16 s.version.minor ++ bytes16 s.version.major).length
    let header := pool + (bytes16 s.count ++ encodeAll s.constants).length
    let fields := header + s.encodeHeader.length
    let methods := fields + (encodeCounted Member.encode s.fields).length
    let attributes := methods + (encodeCounted Member.encode s.methods).length
    let stop := attributes + (encodeCounted Attribute.encode s.attributes).length
    Layout.mk ⟨header, fields, methods, attributes, stop⟩ s.version
      (#[none] ++ Decoder.slotStarts (s.count.toNat - 1) (pool + 2) s.constants) =
    s.layoutAt start := by
  intro pool header fields methods attributes stop
  have hpool : pool + 2 = start + 10 := by simp [pool]
  have hheader : header = start + s.headerOffset := by
    simp [header, pool, headerOffset]
    omega
  have hfields : fields = start + s.fieldsOffset := by
    simp only [fields, hheader, fieldsOffset, Nat.add_assoc]
  have hmethods : methods = start + s.methodsOffset := by
    simp only [methods, hfields, methodsOffset, Nat.add_assoc]
  have hattributes : attributes = start + s.attributesOffset := by
    simp only [attributes, hmethods, attributesOffset, Nat.add_assoc]
  have hstop : stop = start + s.encode.length := by
    simp only [stop, hattributes, length_encode, Nat.add_assoc]
  rw [hpool, hheader, hfields, hmethods, hattributes, hstop]
  rfl

/-- What a reader of the encoding at the start of `bytes` reports. -/
def classFile (s : ClassSyntax) (bytes : Bytes) : ClassFile where
  version := s.version
  pool := ⟨bytes, (s.layoutAt 0).starts⟩
  flags := s.flags
  thisClass := s.thisClass
  superClass := s.superClass
  interfaces := s.interfaces
  fields := s.fields
  methods := s.methods
  attributes := s.attributes
  headerOffset := s.headerOffset
  methodsOffset := s.methodsOffset
  size := s.encode.length

end ClassSyntax

/-! ## The checked walk -/

namespace Decoder

open Constant

theorem reads_magicNumber : Reads magicNumber fun _ _ part => part = bytes32 magic := by
  have hcheck (found : UInt32) :
      Reads (if found = magic then pure () else throw (.invalidMagic found))
        fun _ _ part => found = magic ∧ part = [] := by
    split
    · rename_i heq
      refine (reads_pure ()).congr fun start _ part => ?_
      simp [heq]
    · rename_i hne
      refine (reads_throw _).congr fun start _ part => ?_
      simp [hne]
  refine (reads_u32.bind hcheck).congr fun start _ part => ?_
  constructor
  · rintro ⟨_, _, _, rfl, ⟨rfl, rfl⟩, rfl⟩
    simp
  · rintro rfl
    exact ⟨magic, _, [], rfl, ⟨rfl, rfl⟩, by simp⟩

theorem reads_version : Reads version fun _ v part =>
    part = bytes16 v.minor ++ bytes16 v.major := by
  refine (reads_u16.bind fun minor => reads_u16.bind fun major =>
    reads_pure (Version.mk major minor)).congr fun start v part => ?_
  constructor
  · rintro ⟨minor, _, _, rfl, ⟨major, _, _, rfl, ⟨rfl, rfl⟩, rfl⟩, rfl⟩
    simp
  · rintro rfl
    exact ⟨v.minor, _, _, rfl, ⟨v.major, _, [], rfl, ⟨rfl, rfl⟩, rfl⟩, by simp⟩

theorem reads_constants : Reads constants fun start starts part =>
    ∃ (count : UInt16) (cs : List Constant), Fill (count.toNat - 1) cs ∧
      part = bytes16 count ++ encodeAll cs ∧
      starts = #[none] ++ slotStarts (count.toNat - 1) (start + 2) cs := by
  refine (reads_u16.bind fun count => reads_constantsInto #[none] (count.toNat - 1)).congr
    fun start starts part => ?_
  constructor
  · rintro ⟨count, _, _, rfl, ⟨cs, hfill, rfl, rfl⟩, rfl⟩
    exact ⟨count, cs, hfill, rfl, rfl⟩
  · rintro ⟨count, cs, hfill, rfl, rfl⟩
    exact ⟨count, _, _, rfl, ⟨cs, hfill, rfl, rfl⟩, rfl⟩

theorem exists_words (n : Nat) (part : List UInt8) (h : part.length = 2 * n) :
    ∃ l : List UInt16, l.length = n ∧ part = l.flatMap bytes16 := by
  induction n generalizing part with
  | zero => exact ⟨[], rfl, List.eq_nil_of_length_eq_zero h⟩
  | succ n ih =>
    obtain ⟨l, hlen, hrest⟩ := ih (part.drop 2) (by rw [List.length_drop]; omega)
    refine ⟨UInt16.ofNat (BigEndian.decode (part.take 2)) :: l, by simp [hlen], ?_⟩
    rw [List.flatMap_cons, bytes16_ofNat_decode _ (by rw [List.length_take]; omega), ← hrest,
      List.take_append_drop]

theorem reads_classHeader : Reads classHeader fun _ _ part => ∃ (flags thisClass superClass : UInt16)
    (interfaces : List UInt16), interfaces.length < 65536 ∧
      part = bytes16 flags ++ bytes16 thisClass ++ bytes16 superClass ++
        encodeCounted bytes16 interfaces := by
  refine ((reads_skip 6).bind fun _ => reads_u16.bind fun n => reads_skip (2 * n.toNat)).congr
    fun start _ part => ?_
  constructor
  · rintro ⟨_, front, _, hfront, ⟨n, _, rest, rfl, hrest, rfl⟩, rfl⟩
    obtain ⟨words, hwords, rfl⟩ := exists_words 3 front hfront
    obtain ⟨interfaces, hlen, rfl⟩ := exists_words n.toNat rest hrest
    obtain ⟨flags, thisClass, superClass, rfl⟩ := List.length_eq_three.mp hwords
    refine ⟨flags, thisClass, superClass, interfaces, hlen ▸ n.toNat_lt, ?_⟩
    simp [encodeCounted, hlen]
  · rintro ⟨flags, thisClass, superClass, interfaces, hlen, rfl⟩
    refine ⟨(), _, _, by simp, ⟨_, _, _, rfl, ?_, rfl⟩, rfl⟩
    rw [Bytes.length_flatMap_bytes16, UInt16.toNat_ofNat_of_lt' hlen]

theorem reads_marks {h f m a : Decoder Unit} {H F M A : List UInt8 → Prop}
    (hh : Reads h fun _ _ part => H part) (hf : Reads f fun _ _ part => F part)
    (hm : Reads m fun _ _ part => M part) (ha : Reads a fun _ _ part => A part) :
    Reads (do
      let header ← position
      h
      let fields ← position
      f
      let methods ← position
      m
      let attributes ← position
      a
      let stop ← position
      return Sections.mk header fields methods attributes stop)
    fun start result part => ∃ w x y z, H w ∧ F x ∧ M y ∧ A z ∧ part = w ++ (x ++ (y ++ z)) ∧
      result = ⟨start, start + w.length, start + w.length + x.length,
        start + w.length + x.length + y.length,
        start + w.length + x.length + y.length + z.length⟩ := by
  refine (reads_at fun header => hh.andThen <| reads_at fun fields => hf.andThen <|
    reads_at fun methods => hm.andThen <| reads_at fun attributes => ha.andThen <|
    reads_at fun stop => reads_pure _).congr fun start result part => ?_
  constructor
  · rintro ⟨w, _, hw, ⟨x, _, hx, ⟨y, _, hy, ⟨z, _, hz, ⟨rfl, rfl⟩, rfl⟩, rfl⟩, rfl⟩, rfl⟩
    exact ⟨w, x, y, z, hw, hx, hy, hz, by rw [List.append_nil], rfl⟩
  · rintro ⟨w, x, y, z, hw, hx, hy, hz, rfl, rfl⟩
    exact ⟨w, _, hw, ⟨x, _, hx, ⟨y, _, hy, ⟨z, [], hz, ⟨rfl, rfl⟩, (List.append_nil z).symm⟩, rfl⟩,
      rfl⟩, rfl⟩

theorem reads_layout : Reads layout fun start l part => ∃ s : ClassSyntax, s.WellFormed ∧
    part = s.encode ∧ l = s.layoutAt start := by
  refine (reads_magicNumber.andThen <| reads_version.bind fun version =>
    reads_constants.bind fun starts => (reads_marks reads_classHeader
      (reads_skipCounted reads_memberInfo) (reads_skipCounted reads_memberInfo)
      (reads_skipCounted reads_attributeInfo)).bind fun sections =>
    reads_pure (Layout.mk sections version starts)).congr fun start l part => ?_
  constructor
  · rintro ⟨_, _, rfl, ⟨version, _, _, rfl, ⟨_, _, _, ⟨count, cs, hfill, rfl, rfl⟩,
      ⟨_, _, _, ⟨_, _, _, _, ⟨flags, thisClass, superClass, interfaces, hinterfaces, rfl⟩,
      ⟨fields, hfieldCount, hfields, rfl⟩, ⟨methods, hmethodCount, hmethods, rfl⟩,
      ⟨attributes, hattributeCount, hattributes, rfl⟩, rfl, rfl⟩, ⟨rfl, rfl⟩, rfl⟩, rfl⟩, rfl⟩, rfl⟩
    refine ⟨⟨version, count, cs, ⟨flags⟩, thisClass, superClass, interfaces, fields, methods,
      attributes⟩, ⟨hfill, hinterfaces, hfieldCount, hfields, hmethodCount, hmethods,
      hattributeCount, hattributes⟩, ?_, ?_⟩
    · simp [ClassSyntax.encode, ClassSyntax.encodePreamble, ClassSyntax.encodeHeader]
    · exact ClassSyntax.marks_eq_layoutAt ⟨version, count, cs, ⟨flags⟩, thisClass, superClass,
        interfaces, fields, methods, attributes⟩ start
  · rintro ⟨s, h, rfl, rfl⟩
    refine ⟨bytes32 magic, _, rfl, ⟨s.version, _, _, rfl, ⟨_, _, _,
      ⟨s.count, s.constants, h.constants, rfl, rfl⟩, ⟨_, _, _, ⟨_, _, _, _, ⟨s.flags.bits,
      s.thisClass, s.superClass, s.interfaces, h.interfaces, rfl⟩,
      ⟨s.fields, h.fieldCount, h.fields, rfl⟩, ⟨s.methods, h.methodCount, h.methods, rfl⟩,
      ⟨s.attributes, h.attributeCount, h.attributes, rfl⟩, rfl, rfl⟩, ⟨?_, rfl⟩, rfl⟩, rfl⟩,
      rfl⟩, ?_⟩
    · exact (ClassSyntax.marks_eq_layoutAt s start).symm
    · simp [ClassSyntax.encode, ClassSyntax.encodePreamble, ClassSyntax.encodeHeader]

end Decoder
/-! ## Reading without checks -/

namespace ClassSyntax

open Constant

variable {s t : ClassSyntax} {bytes : Bytes}

/-- Each part of an encoding stands where it should. -/
structure StandsIn (s : ClassSyntax) (bytes : Bytes) : Prop where
  preamble : bytes.HasAt 0 s.encodePreamble
  constants : bytes.HasAt 10 (encodeAll s.constants)
  header : bytes.HasAt s.headerOffset s.encodeHeader
  fields : bytes.HasAt s.fieldsOffset (encodeCounted Member.encode s.fields)
  methods : bytes.HasAt s.methodsOffset (encodeCounted Member.encode s.methods)
  attributes : bytes.HasAt s.attributesOffset (encodeCounted Attribute.encode s.attributes)

theorem standsIn (h : Bytes.HasAt bytes 0 s.encode) : s.StandsIn bytes := by
  simp only [encode, Bytes.hasAt_append, List.length_append, length_encodePreamble, Nat.zero_add] at h
  obtain ⟨⟨⟨⟨⟨hpreamble, hconstants⟩, hheader⟩, hfields⟩, hmethods⟩, hattributes⟩ := h
  exact ⟨hpreamble, hconstants, hheader, hfields, hmethods, hattributes⟩

theorem read_layoutAt (h : s.WellFormed) (hat : Bytes.HasAt bytes 0 s.encode) :
    (s.layoutAt 0).read bytes = .ok (s.classFile bytes) := by
  have hstands := standsIn hat
  have hheader := hstands.header
  simp only [encodeHeader, encodeCounted, Bytes.hasAt_append, List.length_append, length_bytes16]
    at hheader
  obtain ⟨⟨⟨hflags, hthis⟩, hsuper⟩, hcount, hinterfaces⟩ := hheader
  have hlength : (UInt16.ofNat s.interfaces.length).toNat = s.interfaces.length :=
    UInt16.toNat_ofNat_of_lt' h.interfaces
  have hfields : bytes.members s.fieldsOffset s.methodsOffset = .ok s.fields :=
    Bytes.members_eq_ok h.fieldCount h.fields hstands.fields
  have hmethods : bytes.members s.methodsOffset s.attributesOffset = .ok s.methods :=
    Bytes.members_eq_ok h.methodCount h.methods hstands.methods
  have hattributes := Bytes.attributes_eq_ok h.attributeCount h.attributes hstands.attributes
  simp only [Layout.read, layoutAt, Nat.zero_add, Bytes.get16_eq_ok.mpr hflags,
    Bytes.get16_eq_ok.mpr hthis, Bytes.get16_eq_ok.mpr hsuper, Bytes.get16_eq_ok.mpr hcount,
    except_ok_bind, hlength, Bytes.words_eq_ok hinterfaces, hfields, hmethods, hattributes]
  rfl

end ClassSyntax

namespace ClassFile

open Constant

variable {bytes : Bytes} {c : ClassFile} {s t : ClassSyntax} {x y : List UInt8}

theorem hasAt_zero {part : List UInt8} :
    Bytes.HasAt bytes 0 part ↔ ∃ trailing, bytes.toList = part ++ trailing := by
  constructor
  · rintro ⟨-, trailing, h⟩
    exact ⟨trailing, h.symm⟩
  · rintro ⟨trailing, h⟩
    exact ⟨Nat.zero_le _, trailing, h.symm⟩

theorem layout_run_eq_ok {l : Layout} : Decoder.layout.run bytes = .ok l ↔
    ∃ s : ClassSyntax, s.WellFormed ∧ Bytes.HasAt bytes 0 s.encode ∧ l = s.layoutAt 0 := by
  have hreads := fun c' => Decoder.reads_layout (Cursor.start bytes) c' l (Nat.zero_le _)
  unfold Decoder.run
  constructor
  · intro h
    cases hd : Decoder.layout (Cursor.start bytes) with
    | ok a c' =>
      rw [hd] at h
      obtain rfl := Except.ok.inj h
      obtain ⟨_, ⟨s, hs, rfl, rfl⟩, hat, -⟩ := (hreads c').mp hd
      exact ⟨s, hs, hat, rfl⟩
    | error e c' =>
      rw [hd] at h
      cases h
  · rintro ⟨s, hs, hat, rfl⟩
    rw [(hreads _).mpr ⟨s.encode, ⟨s, hs, rfl, rfl⟩, hat, rfl⟩]

theorem parse_eq_ok : ClassFile.parse bytes = .ok c ↔ ∃ (s : ClassSyntax) (trailing : List UInt8),
    s.WellFormed ∧ bytes.toList = s.encode ++ trailing ∧ c = s.classFile bytes := by
  unfold ClassFile.parse
  rw [except_bind_eq_ok]
  constructor
  · rintro ⟨l, hrun, hread⟩
    obtain ⟨s, hs, hat, rfl⟩ := layout_run_eq_ok.mp hrun
    rw [ClassSyntax.read_layoutAt hs hat] at hread
    obtain ⟨trailing, hsplit⟩ := hasAt_zero.mp hat
    exact ⟨s, trailing, hs, hsplit, (Except.ok.inj hread).symm⟩
  · rintro ⟨s, trailing, hs, hsplit, rfl⟩
    have hat := hasAt_zero.mpr ⟨trailing, hsplit⟩
    exact ⟨_, layout_run_eq_ok.mpr ⟨s, hs, hat, rfl⟩, ClassSyntax.read_layoutAt hs hat⟩

theorem parse_encode (bytes : Bytes) (hs : s.WellFormed) (h : bytes.toList = s.encode ++ x) :
    ClassFile.parse bytes = .ok (s.classFile bytes) :=
  parse_eq_ok.mpr ⟨s, x, hs, h, rfl⟩

theorem encode_append_inj (hs : s.WellFormed) (ht : t.WellFormed)
    (h : s.encode ++ x = t.encode ++ y) : s = t ∧ x = y := by
  have hfile : s.classFile (s.encode ++ x).toArray = t.classFile (s.encode ++ x).toArray := by
    have hleft := parse_encode (s.encode ++ x).toArray hs rfl
    have hright := parse_encode (s.encode ++ x).toArray ht h
    exact Except.ok.inj (hleft.symm.trans hright)
  have hrest := h
  simp only [ClassSyntax.encode, List.append_assoc] at hrest
  obtain ⟨hpreamble, hpool⟩ := List.append_inj hrest (by
    rw [ClassSyntax.length_encodePreamble, ClassSyntax.length_encodePreamble])
  have hcount : s.count = t.count :=
    bytes16_injective (List.append_inj_right' hpreamble (by simp))
  have hconstants : s.constants = t.constants :=
    (hs.constants.encodeAll_append_inj (hcount ▸ ht.constants) hpool).1
  obtain rfl : s = t := ClassSyntax.ext (congrArg ClassFile.version hfile) hcount hconstants
    (congrArg ClassFile.flags hfile) (congrArg ClassFile.thisClass hfile)
    (congrArg ClassFile.superClass hfile) (congrArg ClassFile.interfaces hfile)
    (congrArg ClassFile.fields hfile) (congrArg ClassFile.methods hfile)
    (congrArg ClassFile.attributes hfile)
  exact ⟨rfl, List.append_cancel_left h⟩

/-! ## What the reader reports -/

theorem holds_classFile (hs : s.WellFormed) (h : bytes.toList = s.encode ++ x) :
    (s.classFile bytes).pool.Holds 10 s.constants where
  starts := Decoder.slotStarts_getElem? hs.constants 10
  entries := (ClassSyntax.standsIn (hasAt_zero.mpr ⟨x, h⟩)).constants

theorem count_classFile (hs : s.WellFormed) (bytes : Bytes) :
    (s.classFile bytes).pool.count = max s.count.toNat 1 := by
  show (#[none] ++ Decoder.slotStarts (s.count.toNat - 1) 10 s.constants).size = _
  rw [Array.size_append, Decoder.size_slotStarts hs.constants]
  show 1 + (s.count.toNat - 1) = _
  omega

theorem count_classFile_lt (hs : s.WellFormed) (bytes : Bytes) :
    (s.classFile bytes).pool.count < 65536 := by
  have hlt : s.count.toNat < 65536 := s.count.toNat_lt
  rw [count_classFile hs]
  omega

theorem fill_classFile (hs : s.WellFormed) (bytes : Bytes) :
    Fill ((s.classFile bytes).pool.count - 1) s.constants := by
  rw [count_classFile hs, show max s.count.toNat 1 - 1 = s.count.toNat - 1 by omega]
  exact hs.constants

theorem entryRange_eq_ok {cs : List Constant} {offset start : Nat} {index : UInt16} {d : Constant}
    (h : c.pool.Holds offset cs) (hd : at? offset cs index.toNat = some (start, d)) :
    c.entryRange index = .ok (some (start, start + d.encode.length)) := by
  unfold entryRange
  rw [h.tag?, hd]
  simp only [Option.map_some, h.payloadOffset hd, except_ok_bind]
  have hspell := h.spell_hasAt hd
  have hfits := d.fits
  have hlen : d.encode.length = 1 + (d.tag.spell d.payload).length := by
    simp [encode, Nat.add_comm]
  cases hlength : d.tag.payloadLength? with
  | some n =>
    rw [Tag.fits_of_length hlength] at hfits
    rw [Tag.spell_of_length hlength, hfits] at hlen
    rw [hlen, ← Nat.add_assoc]
    rfl
  | none =>
    rw [Tag.fits_of_text hlength] at hfits
    rw [Tag.spell_of_text hlength, List.length_append, length_bytes16] at hlen
    rw [Tag.spell_of_text hlength, Bytes.hasAt_append] at hspell
    simp only [Bytes.get16_eq_ok.mpr hspell.1, except_ok_bind, UInt16.toNat_ofNat_of_lt' hfits]
    rw [hlen, ← Nat.add_assoc, ← Nat.add_assoc]
    rfl

theorem entryRange_eq_none {cs : List Constant} {offset : Nat} {index : UInt16}
    (h : c.pool.Holds offset cs) (hnone : at? offset cs index.toNat = none) :
    c.entryRange index = .ok none := by
  unfold entryRange
  rw [h.tag?, hnone]
  rfl

/-- The reader tells the parts of the class: each index of the pool by the slots of the constants,
and each section as the items whose encoding stands there. -/
structure Reports (c : ClassFile) (s : ClassSyntax) : Prop where
  version : c.version = s.version
  count : c.pool.count = max s.count.toNat 1
  tags : ∀ index, c.pool.tag? index = (at? 10 s.constants index.toNat).map (·.2.tag)
  entries : ∀ (index : UInt16) start d, at? 10 s.constants index.toNat = some (start, d) →
    c.entryRange index = .ok (some (start, start + d.encode.length)) ∧
      Bytes.HasAt c.bytes start d.encode
  noEntries : ∀ index : UInt16, at? 10 s.constants index.toNat = none → c.entryRange index = .ok none
  flags : c.flags = s.flags
  thisClass : c.thisClass = s.thisClass
  superClass : c.superClass = s.superClass
  interfaces : c.interfaces = s.interfaces
  fields : c.fields = s.fields
  methods : c.methods = s.methods
  attributes : c.attributes = s.attributes
  headerOffset : c.headerOffset = s.headerOffset
  methodsOffset : c.methodsOffset = s.methodsOffset
  size : c.size = s.encode.length
  /-- the counts and the items that are reported, encoded again, are the bytes of each section -/
  headerBytes : Bytes.HasAt c.bytes s.headerOffset (bytes16 c.flags.bits ++ bytes16 c.thisClass ++
    bytes16 c.superClass ++ encodeCounted bytes16 c.interfaces)
  fieldBytes : Bytes.HasAt c.bytes s.fieldsOffset (encodeCounted Member.encode c.fields)
  methodBytes : Bytes.HasAt c.bytes s.methodsOffset (encodeCounted Member.encode c.methods)
  attributeBytes :
    Bytes.HasAt c.bytes s.attributesOffset (encodeCounted Attribute.encode c.attributes)

theorem reports_classFile (hs : s.WellFormed) (h : bytes.toList = s.encode ++ x) :
    (s.classFile bytes).Reports s := by
  have hholds := holds_classFile hs h
  have hstands := ClassSyntax.standsIn (hasAt_zero.mpr ⟨x, h⟩)
  constructor
  case tags => exact hholds.tag?
  case count => exact count_classFile hs bytes
  case entries => exact fun index start d hd => ⟨entryRange_eq_ok hholds hd, hholds.hasAt hd⟩
  case noEntries => exact fun index hnone => entryRange_eq_none hholds hnone
  case headerBytes => exact hstands.header
  case fieldBytes => exact hstands.fields
  case methodBytes => exact hstands.methods
  case attributeBytes => exact hstands.attributes
  all_goals rfl

/-- Parsing accepts exactly the class file grammar: a byte string is accepted if and only if it is
the encoding of a well-formed class with anything behind it, there is at most one such class, and
the reader reports that one. -/
theorem parse_accepts_exactly_grammar (bytes : Bytes) :
    ((∃ c, ClassFile.parse bytes = .ok c) ↔ ∃ (s : ClassSyntax) (trailing : List UInt8),
      s.WellFormed ∧ bytes.toList = s.encode ++ trailing) ∧
    (∀ (s t : ClassSyntax) (x y : List UInt8), s.WellFormed → t.WellFormed →
      bytes.toList = s.encode ++ x → bytes.toList = t.encode ++ y → s = t ∧ x = y) ∧
    (∀ (c : ClassFile) (s : ClassSyntax) (x : List UInt8), ClassFile.parse bytes = .ok c →
      s.WellFormed → bytes.toList = s.encode ++ x → c.Reports s) := by
  refine ⟨⟨?_, ?_⟩, ?_, ?_⟩
  · rintro ⟨c, h⟩
    obtain ⟨s, x, hs, hsplit, -⟩ := parse_eq_ok.mp h
    exact ⟨s, x, hs, hsplit⟩
  · rintro ⟨s, x, hs, hsplit⟩
    exact ⟨_, parse_encode bytes hs hsplit⟩
  · intro s t x y hs ht hx hy
    exact encode_append_inj hs ht (hx ▸ hy)
  · intro c s x hparse hs hsplit
    rw [parse_encode bytes hs hsplit] at hparse
    obtain rfl := Except.ok.inj hparse
    exact reports_classFile hs hsplit

end ClassFile
end JavaClass
