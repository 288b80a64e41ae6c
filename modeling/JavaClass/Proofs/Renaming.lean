import JavaClass.Proofs.Grammar
import JavaClass.Proofs.Texts
import JavaClass.Rename

/-!
# Renaming changes one constant

The text that names a class is one entry of the pool. Another text in its place keeps every index,
so the new bytes are a class file with the same parts and one other constant.
-/

namespace JavaClass

/-! ## Another constant in the same place -/

namespace Constant

variable {c d : Constant} {before after : List Constant} {offset start i n : Nat}

theorem Fill.replace (h : d.slots = c.slots) (hfill : Fill n (before ++ c :: after)) :
    Fill n (before ++ d :: after) := by
  induction before generalizing n with
  | nil =>
    simp only [List.nil_append, fill_cons] at hfill ⊢
    rwa [h]
  | cons e before ih =>
    simp only [List.cons_append, fill_cons] at hfill ⊢
    exact ⟨hfill.1, ih hfill.2⟩

/-- The new constant may be longer or shorter, so the ones behind it move, but none gets another
index. -/
theorem at?_replace (h : d.slots = c.slots) (hi : i ≠ 1 + slotCount before) :
    (at? offset (before ++ d :: after) i).map Prod.snd =
      (at? offset (before ++ c :: after) i).map Prod.snd := by
  induction before generalizing offset i with
  | nil =>
    have hone : i ≠ 1 := hi
    simp only [List.nil_append, at?_cons, if_neg hone, h]
    split
    · rfl
    · exact at?_snd after _ _ _
  | cons e before ih =>
    rw [slotCount_cons] at hi
    simp only [List.cons_append, at?_cons]
    split
    · rfl
    · split
      · rfl
      · exact ih (by omega)

end Constant

/-! ## Whole entries -/

namespace ClassFile

open Constant

variable {c : ClassFile} {cs : List Constant} {offset : Nat}

/-- The whole entry of an index, its tag included. -/
def entryBytes (c : ClassFile) (index : UInt16) : Except Error (Option Bytes) := do
  match ← c.entryRange index with
  | none => return none
  | some (start, stop) => some <$> c.bytes.slice start stop

theorem entryBytes_eq_ok (h : c.pool.Holds offset cs) (index : UInt16) :
    c.entryBytes index =
      .ok (((at? offset cs index.toNat).map Prod.snd).map fun d => d.encode.toArray) := by
  unfold entryBytes
  cases hd : at? offset cs index.toNat with
  | none =>
    rw [entryRange_eq_none h hd]
    rfl
  | some entry =>
    obtain ⟨start, d⟩ := entry
    have hslice : c.bytes.slice start (start + d.encode.length) = .ok d.encode.toArray :=
      Bytes.slice_eq_ok.mpr ⟨by simp, h.hasAt hd⟩
    rw [entryRange_eq_ok h hd, except_ok_bind]
    simp only [hslice]
    rfl

/-- The two files differ in the entry of one index at most. -/
structure SameBut (index : UInt16) (c d : ClassFile) : Prop where
  version : d.version = c.version
  count : d.pool.count = c.pool.count
  tags : ∀ i, d.pool.tag? i = c.pool.tag? i
  entries : ∀ i, i ≠ index → ∃ entry, c.entryBytes i = .ok entry ∧ d.entryBytes i = .ok entry
  flags : d.flags = c.flags
  thisClass : d.thisClass = c.thisClass
  superClass : d.superClass = c.superClass
  interfaces : d.interfaces = c.interfaces
  fields : d.fields = c.fields
  methods : d.methods = c.methods
  attributes : d.attributes = c.attributes
  trailing : d.bytes.toList.drop d.size = c.bytes.toList.drop c.size

end ClassFile

namespace ClassSyntax

open Constant

variable {s : ClassSyntax} {before after : List Constant} {old new : Constant}
  {bytes out : Bytes} {trailing : List UInt8}

/-- The class with other constants. -/
def withConstants (s : ClassSyntax) (cs : List Constant) : ClassSyntax := { s with constants := cs }

theorem encode_withConstants (s : ClassSyntax) (cs : List Constant) :
    (s.withConstants cs).encode = s.encodePreamble ++ encodeAll cs ++ s.encodeBody :=
  encode_eq _

theorem WellFormed.withConstants (h : s.WellFormed) (cs : List Constant)
    (hfill : Fill (s.count.toNat - 1) cs) : (s.withConstants cs).WellFormed :=
  { h with constants := hfill }

theorem take_drop_constant {start : Nat} (hconstants : s.constants = before ++ old :: after)
    (hbytes : bytes.toList = s.encode ++ trailing)
    (hstart : start = 10 + (encodeAll before).length) :
    bytes.toList.take start = s.encodePreamble ++ encodeAll before ∧
      bytes.toList.drop (start + old.encode.length) =
        encodeAll after ++ s.encodeBody ++ trailing := by
  have hsplit : bytes.toList = (s.encodePreamble ++ encodeAll before) ++ old.encode ++
      (encodeAll after ++ s.encodeBody ++ trailing) := by
    rw [hbytes, encode_eq, hconstants]
    simp
  have hfront : (s.encodePreamble ++ encodeAll before).length = start := by
    rw [hstart, List.length_append, length_encodePreamble]
  constructor
  · rw [hsplit, ← hfront, List.append_assoc, List.take_left]
  · rw [hsplit, ← hfront, ← List.length_append, List.drop_left]

theorem sameBut (hs : s.WellFormed) (hconstants : s.constants = before ++ old :: after)
    (htag : new.tag = old.tag) (hbytes : bytes.toList = s.encode ++ trailing)
    (hout : out.toList = (s.withConstants (before ++ new :: after)).encode ++ trailing)
    {index : UInt16} (hindex : index.toNat = 1 + slotCount before) :
    ClassFile.SameBut index (s.classFile bytes)
      ((s.withConstants (before ++ new :: after)).classFile out) := by
  have hslots : new.slots = old.slots := congrArg Tag.slots htag
  have hs' : (s.withConstants (before ++ new :: after)).WellFormed :=
    hs.withConstants _ (Fill.replace hslots (hconstants ▸ hs.constants))
  have hholds := ClassFile.holds_classFile hs hbytes
  have hholds' := ClassFile.holds_classFile hs' hout
  have hother (i : UInt16) (hi : i ≠ index) :
      (at? 10 (before ++ new :: after) i.toNat).map Prod.snd =
        (at? 10 s.constants i.toNat).map Prod.snd := by
    rw [hconstants]
    exact at?_replace hslots fun heq => hi (UInt16.toNat_inj.mp (heq.trans hindex.symm))
  constructor
  case count => rw [ClassFile.count_classFile hs, ClassFile.count_classFile hs']; rfl
  case tags =>
    intro i
    rw [hholds.tag?, hholds'.tag?]
    by_cases hi : i = index
    · subst hi
      have hold : at? 10 s.constants i.toNat = some (10 + (encodeAll before).length, old) :=
        at?_eq_some.mpr ⟨before, after, hconstants, hindex, rfl⟩
      have hnew : at? 10 (s.withConstants (before ++ new :: after)).constants i.toNat =
          some (10 + (encodeAll before).length, new) :=
        at?_eq_some.mpr ⟨before, after, rfl, hindex, rfl⟩
      rw [hold, hnew, Option.map_some, Option.map_some, htag]
    · have htags := congrArg (Option.map Constant.tag) (hother i hi)
      rwa [Option.map_map, Option.map_map] at htags
  case entries =>
    intro i hi
    refine ⟨_, ClassFile.entryBytes_eq_ok hholds i, ?_⟩
    rw [ClassFile.entryBytes_eq_ok hholds' i]
    exact congrArg (fun d => Except.ok (Option.map (fun d => d.encode.toArray) d)) (hother i hi)
  case trailing =>
    show out.toList.drop (List.length _) = bytes.toList.drop (List.length _)
    rw [hout, hbytes, List.drop_left, List.drop_left]
  all_goals rfl

end ClassSyntax

/-! ## Renaming -/

/-- The class entry of the file refers to a text, which has the given index. -/
structure ClassFile.NamedBy (c : ClassFile) (index : UInt16) : Prop where
  isClass : c.pool.tag? c.thisClass = some .classInfo
  refers : c.pool.reference c.thisClass = .ok index
  isText : c.pool.tag? index = some .utf8

/-- The output is the file with another text as the entry of an index. -/
structure ClassFile.RenamedTo (c : ClassFile) (index : UInt16) (newName : String) (out : Bytes) :
    Prop where
  splice : ∃ start stop, c.entryRange index = .ok (some (start, stop)) ∧
    out.toList = c.bytes.toList.take start ++ Tag.utf8.byte ::
      (bytes16 (UInt16.ofNat (ModifiedUtf8.encode newName).size) ++
        (ModifiedUtf8.encode newName).toList) ++ c.bytes.toList.drop stop
  name : Rename.className out = .ok newName
  same : ∃ d, ClassFile.parse out = .ok d ∧ c.SameBut index d

namespace Rename

open Constant

variable {bytes : Bytes} {newName : String} {c : ClassFile} {index : UInt16}

theorem nameIndex_of_namedBy (h : c.NamedBy index) : nameIndex c = .ok index := by
  unfold nameIndex
  rw [ConstantTable.expect_of_tag h.isClass, except_ok_bind, h.refers, except_ok_bind,
    ConstantTable.expect_of_tag h.isText, except_ok_bind]
  rfl

theorem nameIndex_of_notClass (h : c.pool.tag? c.thisClass ≠ some .classInfo) :
    nameIndex c = .error (.unexpectedEntry .classInfo (c.pool.tag? c.thisClass)) := by
  unfold nameIndex
  rw [ConstantTable.expect_of_ne h, except_error_bind]

theorem nameIndex_of_notText (hclass : c.pool.tag? c.thisClass = some .classInfo)
    (hrefers : c.pool.reference c.thisClass = .ok index) (h : c.pool.tag? index ≠ some .utf8) :
    nameIndex c = .error (.unexpectedEntry .utf8 (c.pool.tag? index)) := by
  unfold nameIndex
  rw [ConstantTable.expect_of_tag hclass, except_ok_bind, hrefers, except_ok_bind,
    ConstantTable.expect_of_ne h, except_error_bind]

theorem exists_reference (hparse : ClassFile.parse bytes = .ok c)
    (h : c.pool.tag? c.thisClass = some .classInfo) :
    ∃ index, c.pool.reference c.thisClass = .ok index := by
  obtain ⟨s, trailing, hs, hbytes, rfl⟩ := ClassFile.parse_eq_ok.mp hparse
  exact (ClassFile.holds_classFile hs hbytes).exists_reference h rfl

theorem exists_entryRange {tag : Tag} (hparse : ClassFile.parse bytes = .ok c)
    (h : c.pool.tag? index = some tag) : ∃ range, c.entryRange index = .ok (some range) := by
  obtain ⟨s, trailing, hs, hbytes, rfl⟩ := ClassFile.parse_eq_ok.mp hparse
  have hholds := ClassFile.holds_classFile hs hbytes
  obtain ⟨start, k, hk, -⟩ := hholds.exists_at? h
  exact ⟨_, ClassFile.entryRange_eq_ok hholds hk⟩

theorem lift_ok {α : Type} (a : α) :
    (liftM (.ok a : Except Error α) : Except RenameError α) = .ok a := rfl

theorem lift_error {α : Type} (e : Error) :
    (liftM (.error e : Except Error α) : Except RenameError α) = .error (.classFile e) := rfl

theorem renameClass_of_parse_error {e : Error} (h : ClassFile.parse bytes = .error e) :
    renameClass bytes newName = .error (.classFile e) := by
  unfold renameClass
  rw [h, lift_error, except_error_bind]

theorem renameClass_of_error {e : Error} (hparse : ClassFile.parse bytes = .ok c)
    (h : nameIndex c = .error e) : renameClass bytes newName = .error (.classFile e) := by
  unfold renameClass
  rw [hparse, lift_ok, except_ok_bind, h, lift_error, except_error_bind]

theorem renameClass_of_namedBy {range : Nat × Nat} (hparse : ClassFile.parse bytes = .ok c)
    (h : c.NamedBy index) (hrange : c.entryRange index = .ok (some range)) :
    renameClass bytes newName =
      if 65535 < (ModifiedUtf8.encode newName).size then
        .error (.nameTooLong (ModifiedUtf8.encode newName).size)
      else .ok (splice bytes range (textEntry (ModifiedUtf8.encode newName))) := by
  unfold renameClass
  rw [hparse, lift_ok, except_ok_bind, nameIndex_of_namedBy h, lift_ok, except_ok_bind, hrange,
    lift_ok, except_ok_bind]
  by_cases hlong : 65535 < (ModifiedUtf8.encode newName).size
  · rw [if_pos hlong]
    exact if_pos hlong
  · rw [if_neg hlong]
    exact if_neg hlong

theorem renameClass_of_long (hparse : ClassFile.parse bytes = .ok c) (h : c.NamedBy index)
    (hlong : 65535 < (ModifiedUtf8.encode newName).size) :
    renameClass bytes newName = .error (.nameTooLong (ModifiedUtf8.encode newName).size) := by
  obtain ⟨range, hrange⟩ := exists_entryRange hparse h.isText
  rw [renameClass_of_namedBy hparse h hrange, if_pos hlong]

theorem toList_splice (bytes replacement : Bytes) (range : Nat × Nat) :
    (splice bytes range replacement).toList =
      bytes.toList.take range.1 ++ replacement.toList ++ bytes.toList.drop range.2 := by
  unfold splice
  simp [List.extract_eq_take_drop]

theorem toList_textEntry (text : Bytes) : (textEntry text).toList =
    Tag.utf8.byte :: (bytes16 (UInt16.ofNat text.size) ++ text.toList) := by
  simp [textEntry]

theorem thisName_of_namedBy {text : Bytes} (h : c.NamedBy index)
    (htext : c.pool.textBytes index = .ok text) : c.thisName = .ok (ModifiedUtf8.decode text) := by
  unfold ClassFile.thisName ConstantTable.className ConstantTable.expectText ConstantTable.text
  rw [ConstantTable.expect_of_tag h.isClass, except_ok_bind, h.refers, except_ok_bind,
    ConstantTable.expect_of_tag h.isText, except_ok_bind, htext, except_map_ok]

/-- The class entry is not the entry that changes, so it still refers to the same index. -/
theorem namedBy_of_sameBut {d : ClassFile} (h : c.NamedBy index) (hsame : c.SameBut index d)
    {cs ds : List Constant} {offset : Nat} (hc : c.pool.Holds offset cs)
    (hd : d.pool.Holds offset ds) : d.NamedBy index := by
  have hne : c.thisClass ≠ index := by
    rintro rfl
    have htags := h.isClass.symm.trans h.isText
    cases htags
  have hclass : d.pool.tag? d.thisClass = some .classInfo := by
    rw [hsame.thisClass, hsame.tags, h.isClass]
  obtain ⟨start, k, hk, hktag⟩ := hc.exists_at? h.isClass
  obtain ⟨start', k', hk', hktag'⟩ := hd.exists_at? hclass
  obtain ⟨entry, hentry, hentry'⟩ := hsame.entries c.thisClass hne
  rw [hsame.thisClass] at hk'
  rw [ClassFile.entryBytes_eq_ok hc, hk] at hentry
  rw [ClassFile.entryBytes_eq_ok hd, hk'] at hentry'
  have hencode : k'.encode.toArray = k.encode.toArray :=
    Option.some.inj (Except.ok.inj (hentry'.trans hentry.symm))
  have hequal : k' = k :=
    (encode_append_inj (x := []) (y := []) (by simpa using hencode)).1
  subst hequal
  have hlength : k'.tag.payloadLength? = some 2 := by rw [hktag]; rfl
  refine ⟨hclass, ?_, by rw [hsame.tags, h.isText]⟩
  have hrefers := h.refers
  rw [(hc.reference hk hlength).1] at hrefers
  rw [hsame.thisClass, (hd.reference hk' hlength).1, hrefers]

theorem className_of_parse (h : ClassFile.parse bytes = .ok c) : className bytes = c.thisName := by
  unfold className
  rw [h, except_ok_bind]

/-- A class file taken apart around the constant that holds the name of the class. -/
structure NameSite (bytes : Bytes) (index : UInt16) where
  parts : ClassSyntax
  before : List Constant
  name : Constant
  after : List Constant
  trailing : List UInt8
  wellFormed : parts.WellFormed
  constants : parts.constants = before ++ name :: after
  isText : name.tag = .utf8
  position : index.toNat = 1 + slotCount before
  content : bytes.toList = parts.encode ++ trailing
  named : (parts.classFile bytes).NamedBy index

namespace NameSite

variable {out : Bytes} {new : Constant}

theorem exists_of_namedBy (hparse : ClassFile.parse bytes = .ok c) (h : c.NamedBy index) :
    ∃ site : NameSite bytes index, site.parts.classFile bytes = c := by
  obtain ⟨s, trailing, hs, hbytes, rfl⟩ := ClassFile.parse_eq_ok.mp hparse
  obtain ⟨start, name, hat, hname⟩ := (ClassFile.holds_classFile hs hbytes).exists_at? h.isText
  obtain ⟨before, after, hconstants, hindex, -⟩ := at?_eq_some.mp hat
  exact ⟨⟨s, before, name, after, trailing, hs, hconstants, hname, hindex, hbytes, h⟩, rfl⟩

variable (site : NameSite bytes index)

/-! ### What is read there -/

theorem parse_eq : ClassFile.parse bytes = .ok (site.parts.classFile bytes) :=
  ClassFile.parse_encode bytes site.wellFormed site.content

theorem holds : (site.parts.classFile bytes).pool.Holds 10 site.parts.constants :=
  ClassFile.holds_classFile site.wellFormed site.content

theorem at?_name : at? 10 site.parts.constants index.toNat =
    some (10 + (encodeAll site.before).length, site.name) :=
  at?_eq_some.mpr ⟨site.before, site.after, site.constants, site.position, rfl⟩

theorem textBytes_eq :
    (site.parts.classFile bytes).pool.textBytes index = .ok site.name.payload.toArray :=
  site.holds.textBytes site.at?_name site.isText

theorem className_eq : className bytes = .ok (ModifiedUtf8.decode site.name.payload.toArray) := by
  rw [className_of_parse site.parse_eq]
  exact thisName_of_namedBy site.named site.textBytes_eq

def range : Nat × Nat :=
  (10 + (encodeAll site.before).length,
    10 + (encodeAll site.before).length + site.name.encode.length)

theorem entryRange_eq : (site.parts.classFile bytes).entryRange index = .ok (some site.range) :=
  ClassFile.entryRange_eq_ok site.holds site.at?_name

/-! ### Another text in the same place -/

def replaced (new : Constant) : ClassSyntax :=
  site.parts.withConstants (site.before ++ new :: site.after)

/-- The content of the file with another constant in the place of the name. -/
def spell (new : Constant) : List UInt8 := (site.replaced new).encode ++ site.trailing

theorem spell_eq (new : Constant) : site.spell new =
    (site.parts.encodePreamble ++ encodeAll site.before) ++ (new.encode ++
      (encodeAll site.after ++ site.parts.encodeBody ++ site.trailing)) := by
  unfold spell replaced
  rw [ClassSyntax.encode_withConstants, encodeAll_append, encodeAll_cons]
  simp

theorem toList_splice (text : Bytes) (h : text.size < 65536) :
    (splice bytes site.range (textEntry text)).toList = site.spell (ofText text h) := by
  obtain ⟨htake, hdrop⟩ := ClassSyntax.take_drop_constant site.constants site.content rfl
  rw [Rename.toList_splice, toList_textEntry, range, htake, hdrop, spell_eq, encode_ofText]
  simp

theorem wellFormed_replaced (hnew : new.tag = .utf8) : (site.replaced new).WellFormed := by
  apply site.wellFormed.withConstants
  apply Fill.replace (congrArg Tag.slots (hnew.trans site.isText.symm))
  rw [← site.constants]
  exact site.wellFormed.constants

theorem sameBut (hnew : new.tag = .utf8) (hout : out.toList = site.spell new) :
    (site.parts.classFile bytes).SameBut index ((site.replaced new).classFile out) :=
  ClassSyntax.sameBut site.wellFormed site.constants (hnew.trans site.isText.symm) site.content hout
    site.position

/-- The new bytes are read as the old ones were, up to the text. -/
def renamed (hnew : new.tag = .utf8) (hout : out.toList = site.spell new) : NameSite out index where
  parts := site.replaced new
  before := site.before
  name := new
  after := site.after
  trailing := site.trailing
  wellFormed := site.wellFormed_replaced hnew
  constants := rfl
  isText := hnew
  position := site.position
  content := hout
  named := namedBy_of_sameBut site.named (site.sameBut hnew hout) site.holds
    (ClassFile.holds_classFile (site.wellFormed_replaced hnew) hout)

theorem renameClass_eq_ok (hshort : (ModifiedUtf8.encode newName).size ≤ 65535) :
    renameClass bytes newName =
      .ok (splice bytes site.range (textEntry (ModifiedUtf8.encode newName))) := by
  rw [renameClass_of_namedBy site.parse_eq site.named site.entryRange_eq]
  exact if_neg (by omega)

end NameSite

theorem renameClass_eq_ok (hparse : ClassFile.parse bytes = .ok c) (h : c.NamedBy index)
    (hshort : (ModifiedUtf8.encode newName).size ≤ 65535) :
    ∃ out, renameClass bytes newName = .ok out ∧ c.RenamedTo index newName out := by
  obtain ⟨site, rfl⟩ := NameSite.exists_of_namedBy hparse h
  have hout := site.toList_splice (ModifiedUtf8.encode newName) (by omega)
  refine ⟨_, site.renameClass_eq_ok hshort, ?_⟩
  constructor
  case splice =>
    refine ⟨site.range.1, site.range.2, site.entryRange_eq, ?_⟩
    rw [toList_splice, toList_textEntry]
    rfl
  case name =>
    rw [(site.renamed rfl hout).className_eq]
    exact congrArg Except.ok (ModifiedUtf8.decode_encode newName)
  case same => exact ⟨_, (site.renamed rfl hout).parse_eq, site.sameBut rfl hout⟩

theorem unexpectedEntry_or_namedBy (hparse : ClassFile.parse bytes = .ok c) (newName : String) :
    (∃ expected found, renameClass bytes newName =
      .error (.classFile (.unexpectedEntry expected found))) ∨ ∃ index, c.NamedBy index := by
  by_cases hclass : c.pool.tag? c.thisClass = some .classInfo
  swap
  · exact .inl ⟨_, _, renameClass_of_error hparse (nameIndex_of_notClass hclass)⟩
  obtain ⟨index, hrefers⟩ := exists_reference hparse hclass
  by_cases htext : c.pool.tag? index = some .utf8
  swap
  · exact .inl ⟨_, _, renameClass_of_error hparse (nameIndex_of_notText hclass hrefers htext)⟩
  exact .inr ⟨index, hclass, hrefers, htext⟩

theorem named_of_renameClass_eq_ok {out : Bytes} (h : renameClass bytes newName = .ok out) :
    ∃ c index, ClassFile.parse bytes = .ok c ∧ c.NamedBy index ∧
      (ModifiedUtf8.encode newName).size ≤ 65535 := by
  cases hparse : ClassFile.parse bytes with
  | error e =>
    rw [renameClass_of_parse_error hparse] at h
    cases h
  | ok c =>
    obtain ⟨expected, found, herror⟩ | ⟨index, hnamed⟩ := unexpectedEntry_or_namedBy hparse newName
    · rw [herror] at h
      cases h
    · refine ⟨c, index, rfl, hnamed, not_lt.mp fun hlong => ?_⟩
      rw [renameClass_of_long hparse hnamed hlong] at h
      cases h

/-- Renaming succeeds exactly on class files whose class entry refers to a text, with a new name
that is short enough; otherwise the first of these checks that fails tells its error. The output is
the file with that one text entry replaced, is a class file of the new name, and reads as the old
one everywhere else. -/
theorem renameClass_changes_one_constant (bytes : Bytes) (newName : String) :
    ((∃ out, renameClass bytes newName = .ok out) ↔
      ∃ c index, ClassFile.parse bytes = .ok c ∧ c.NamedBy index ∧
        (ModifiedUtf8.encode newName).size ≤ 65535) ∧
    (∀ e, ClassFile.parse bytes = .error e → renameClass bytes newName = .error (.classFile e)) ∧
    (∀ c, ClassFile.parse bytes = .ok c →
      (c.pool.tag? c.thisClass ≠ some .classInfo → renameClass bytes newName =
        .error (.classFile (.unexpectedEntry .classInfo (c.pool.tag? c.thisClass)))) ∧
      (c.pool.tag? c.thisClass = some .classInfo →
        ∃ index, c.pool.reference c.thisClass = .ok index ∧
          (c.pool.tag? index ≠ some .utf8 → renameClass bytes newName =
            .error (.classFile (.unexpectedEntry .utf8 (c.pool.tag? index)))) ∧
          (c.pool.tag? index = some .utf8 → 65535 < (ModifiedUtf8.encode newName).size →
            renameClass bytes newName =
              .error (.nameTooLong (ModifiedUtf8.encode newName).size)) ∧
          (c.pool.tag? index = some .utf8 → (ModifiedUtf8.encode newName).size ≤ 65535 →
            ∃ out, renameClass bytes newName = .ok out ∧ c.RenamedTo index newName out))) := by
  refine ⟨⟨?_, ?_⟩, fun e => renameClass_of_parse_error, fun c hparse => ⟨?_, ?_⟩⟩
  · rintro ⟨out, hout⟩
    exact named_of_renameClass_eq_ok hout
  · rintro ⟨c, index, hparse, hnamed, hshort⟩
    obtain ⟨out, hout, -⟩ := renameClass_eq_ok hparse hnamed hshort
    exact ⟨out, hout⟩
  · intro hclass
    exact renameClass_of_error hparse (nameIndex_of_notClass hclass)
  · intro hclass
    obtain ⟨index, hrefers⟩ := exists_reference hparse hclass
    refine ⟨index, hrefers, ?_, ?_, ?_⟩
    · intro htext
      exact renameClass_of_error hparse (nameIndex_of_notText hclass hrefers htext)
    · intro htext hlong
      exact renameClass_of_long hparse ⟨hclass, hrefers, htext⟩ hlong
    · intro htext hshort
      exact renameClass_eq_ok hparse ⟨hclass, hrefers, htext⟩ hshort

end Rename

end JavaClass
