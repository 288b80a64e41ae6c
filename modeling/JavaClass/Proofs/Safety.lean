import JavaClass.Proofs.PoolCopies
import JavaClass.Proofs.Renaming
import JavaClass.Proofs.Searching
import JavaClass.Validity.Pool

/-!
# Queries stay inside an accepted file

Only the checked walk compares offsets with the length of the data. All queries afterwards go by
what that walk has noted and follow indexes that nothing has checked, and still none of them leaves
the data.
-/

namespace JavaClass

variable {ε α β : Type}

/-! ## Steps that stay in range -/

def Avoids (bad : ε) (x : Except ε α) : Prop := x ≠ .error bad

theorem avoids_ok (bad : ε) (a : α) : Avoids bad (.ok a) := by
  unfold Avoids
  simp

theorem avoids_error {bad e : ε} (h : e ≠ bad) : Avoids bad (.error e : Except ε α) := by
  unfold Avoids
  simp [h]

theorem Avoids.bind {bad : ε} {x : Except ε α} {f : α → Except ε β} (hx : Avoids bad x)
    (hf : ∀ a, x = .ok a → Avoids bad (f a)) : Avoids bad (x >>= f) := by
  cases x with
  | error e => exact avoids_error fun he => hx (he ▸ rfl)
  | ok a => exact hf a rfl

theorem Avoids.map {bad : ε} {x : Except ε α} (f : α → β) (hx : Avoids bad x) :
    Avoids bad (f <$> x) := by
  cases x with
  | error e => exact avoids_error fun he => hx (he ▸ rfl)
  | ok a => exact avoids_ok bad (f a)

/-- No access went outside the data, whatever other error there may be. -/
abbrev InRange (x : Except Error α) : Prop := Avoids .outOfRange x

theorem inRange_ok (a : α) : InRange (.ok a) := avoids_ok _ a

theorem inRange_error {e : Error} (h : e ≠ .outOfRange) : InRange (.error e : Except Error α) :=
  avoids_error h

theorem inRange_of_eq_ok {x : Except Error α} {a : α} (h : x = .ok a) : InRange x :=
  h ▸ inRange_ok a

theorem inRange_forM {step : α → Except Error PUnit} (h : ∀ a, InRange (step a)) (l : List α) :
    InRange (l.forM step) := by
  induction l with
  | nil => exact inRange_ok _
  | cons a l ih => exact (h a).bind fun _ _ => ih

theorem inRange_findM? {test : α → Except Error Bool} (h : ∀ a, InRange (test a)) (l : List α) :
    InRange (l.findM? test) := by
  induction l with
  | nil => exact inRange_ok _
  | cons a l ih =>
    unfold List.findM?
    apply (h a).bind
    intro found _
    cases found
    · exact ih
    · exact inRange_ok _

/-! ## Decoders -/

namespace Decoder

def Inside (c : Cursor) : Prop := c.position ≤ c.bytes.size

/-- The decoder neither ends outside the data nor stops because it would have to. -/
structure SafeFrom (d : Decoder α) (c : Cursor) : Prop where
  inside : ∀ a c', d c = .ok a c' → Inside c'
  inRange : ∀ e c', d c = .error e c' → e ≠ .outOfRange

def Safe (d : Decoder α) : Prop := ∀ c, Inside c → SafeFrom d c

variable {d : Decoder α} {f : α → Decoder β} {item : Decoder α} {c c' : Cursor}

theorem safeFrom_ok {a : α} (h : d c = .ok a c') (hc : Inside c') : SafeFrom d c := by
  constructor
  · intro b t hok
    rw [h] at hok
    cases hok
    exact hc
  · intro e t herror
    rw [h] at herror
    cases herror

theorem safeFrom_error {e : Error} (h : d c = .error e c') (he : e ≠ .outOfRange) :
    SafeFrom d c := by
  constructor
  · intro b t hok
    rw [h] at hok
    cases hok
  · intro e' t herror
    rw [h] at herror
    cases herror
    exact he

theorem SafeFrom.bind (hd : SafeFrom d c)
    (hf : ∀ a t, d c = .ok a t → Inside t → SafeFrom (f a) t) : SafeFrom (d >>= f) c := by
  cases hdc : d c with
  | ok a t =>
    have hfrom := hf a t hdc (hd.inside a t hdc)
    have hbind : (d >>= f) c = f a t := bind_apply_ok hdc
    exact ⟨hbind ▸ hfrom.inside, hbind ▸ hfrom.inRange⟩
  | error e t => exact safeFrom_error (bind_apply_error hdc) (hd.inRange e t hdc)

theorem Safe.bind (hd : Safe d) (hf : ∀ a, Safe (f a)) : Safe (d >>= f) :=
  fun c hc => (hd c hc).bind fun a t _ ht => hf a t ht

theorem safe_pure (a : α) : Safe (pure a) := fun _ hc => safeFrom_ok rfl hc

theorem safe_of_advances {n : Nat} {value : Cursor → α}
    (h : ∀ c, d c = if c.remaining < n then .error (.truncated c.position n c.bytes.size) c
      else .ok (value c) { c with position := c.position + n }) : Safe d := by
  intro c hc
  by_cases hshort : c.remaining < n
  · exact safeFrom_error ((h c).trans (if_pos hshort)) (by simp)
  · refine safeFrom_ok ((h c).trans (if_neg hshort)) ?_
    unfold Inside at hc ⊢
    unfold Cursor.remaining at hshort
    dsimp only
    omega

theorem safe_take (n : Nat) : Safe (take n) := safe_of_advances fun _ => rfl

theorem safe_skip (n : Nat) : Safe (skip n) := safe_of_advances fun _ => rfl

theorem safe_u16 : Safe u16 := (safe_take 2).bind fun _ => safe_pure _

theorem safe_u32 : Safe u32 := (safe_take 4).bind fun _ => safe_pure _

theorem safe_times {step : Decoder Unit} (h : Safe step) (n : Nat) : Safe (times step n) := by
  induction n with
  | zero => exact safe_pure ()
  | succ n ih => exact h.bind fun _ => ih

theorem safe_manyInto (h : Safe item) (n : Nat) (items : Array α) :
    Safe (manyInto items item n) := by
  induction n generalizing items with
  | zero => exact safe_pure items
  | succ n ih => exact h.bind fun a => ih (items.push a)

theorem safe_counted (h : Safe item) : Safe (counted item) :=
  safe_u16.bind fun n => (safe_manyInto h n.toNat #[]).bind fun _ => safe_pure _

theorem safe_attributeInfo : Safe attributeInfo :=
  (safe_skip 2).bind fun _ => safe_u32.bind fun length => safe_skip length.toNat

/-- The walk without checks goes over what the checked one has just passed. -/
theorem safe_attributes : Safe attributes := by
  intro c hc
  apply (safeFrom_ok (d := position) rfl hc).bind
  rintro start _ ⟨⟩ -
  apply (safe_u16 c hc).bind
  intro count c₁ hcount hc₁
  apply (safe_times safe_attributeInfo count.toNat c₁ hc₁).bind
  intro _ c₂ htimes hc₂
  obtain ⟨_, rfl, -, rfl⟩ := (reads_u16 c c₁ count hc).mp hcount
  obtain ⟨_, ⟨l, hlen, hfits, rfl⟩, hat, rfl⟩ :=
    (reads_times reads_attributeInfo count.toNat _ c₂ _ hc₁).mp htimes
  rw [length_bytes16] at hat hc₂
  obtain ⟨s, hspan, hbytes, hstart, hstop⟩ := Bytes.span_eq_ok c.bytes (c.position + 2)
    (c.position + 2 + (l.flatMap Attribute.encode).length) (by omega) hat.le
  have hlist : s.attributes count = .ok l := by
    rw [← UInt16.ofNat_toNat (x := count), ← hlen]
    apply Span.attributes_eq_ok (hlen ▸ count.toNat_lt) hfits
    refine ⟨by unfold Span.size; omega, ?_⟩
    rw [hbytes, hstart]
    exact hat
  refine safeFrom_ok (bind_eq_ok.mpr ⟨_, _, rfl, bind_eq_ok.mpr ⟨_, _, rfl, bind_eq_ok.mpr ⟨s, _,
    lift_eq_ok.mpr ⟨hspan, rfl⟩, lift_eq_ok.mpr ⟨hlist, rfl⟩⟩⟩⟩) hc₂

theorem safe_exceptionHandler : Safe exceptionHandler :=
  safe_u16.bind fun _ => safe_u16.bind fun _ => safe_u16.bind fun _ => safe_u16.bind fun _ =>
    safe_pure _

theorem safe_code : Safe code :=
  safe_u16.bind fun _ => safe_u16.bind fun _ => safe_u32.bind fun length =>
    (safe_take length.toNat).bind fun _ => (safe_counted safe_exceptionHandler).bind fun _ =>
    safe_attributes.bind fun _ => safe_pure _

theorem Safe.run (h : Safe d) (bytes : Bytes) : InRange (d.run bytes) := by
  have hstart := h (Cursor.start bytes) (Nat.zero_le _)
  unfold Decoder.run
  cases hd : d (Cursor.start bytes) with
  | ok a c => exact inRange_ok a
  | error e c => exact inRange_error (hstart.inRange e c hd)

end Decoder

/-! ## Texts -/

theorem inRange_checkedUnitsInto {read units : Array UInt16} {offset : Nat} {bytes : List UInt8}
    {e : Error} (h : ModifiedUtf8.checkedUnitsInto read offset bytes = .error e units) :
    e ≠ .outOfRange := by
  fun_induction ModifiedUtf8.checkedUnitsInto read offset bytes with
  | case1 => cases h
  | case2 | case4 | case10 =>
    -- a sequence has been read, and the rest is read the same way
    rename_i ih
    exact ih h
  | _ =>
    cases h
    simp

theorem inRange_decode? (bytes : Bytes) : InRange (ModifiedUtf8.decode? bytes) := by
  unfold ModifiedUtf8.decode? ModifiedUtf8.decodeReusing?
  cases hread : ModifiedUtf8.checkedUnitsInto (Array.shrink #[] 0) 0 bytes.toList with
  | error e units => exact inRange_error (inRange_checkedUnitsInto hread)
  | ok _ units =>
    dsimp only
    cases Utf16.decode? units.toList with
    | some text => exact inRange_ok text
    | none => exact inRange_error (by simp)

/-! ## Tables -/

namespace ConstantTable

theorem inRange_expect (t : ConstantTable) (index : UInt16) (tag : Tag) :
    InRange (t.expect index tag) := by
  by_cases h : t.tag? index = some tag
  · exact inRange_of_eq_ok (expect_of_tag h)
  · rw [expect_of_ne h]
    exact inRange_error (by simp)

namespace Holds

open Constant Validity

variable {t : ConstantTable} {offset n : Nat} {cs : List Constant} {index : UInt16} {tag : Tag}

theorem exists_textBytes (h : t.Holds offset cs) (htag : t.tag? index = some .utf8) :
    ∃ text, t.textBytes index = .ok text := by
  obtain ⟨start, c, hc, hutf8⟩ := h.exists_at? htag
  exact ⟨_, h.textBytes hc hutf8⟩

theorem exists_handle (h : t.Holds offset cs) (htag : t.tag? index = some tag)
    (hlength : tag.payloadLength? = some 3) :
    ∃ kind target, t.handle index = .ok (kind, target) := by
  obtain ⟨start, c, hc, rfl⟩ := h.exists_at? htag
  exact ⟨_, _, (h.handle hc hlength).1⟩

theorem exists_word (h : t.Holds offset cs) (htag : t.tag? index = some tag)
    (hlength : tag.payloadLength? = some 4) : ∃ bits, t.word index = .ok bits := by
  obtain ⟨start, c, hc, rfl⟩ := h.exists_at? htag
  exact ⟨_, (h.word hc hlength).1⟩

theorem exists_references (h : t.Holds offset cs) (htag : t.tag? index = some tag)
    (hlength : tag.payloadLength? = some 4) :
    ∃ first second, t.references index = .ok (first, second) := by
  obtain ⟨start, c, hc, rfl⟩ := h.exists_at? htag
  exact ⟨_, _, h.references hc hlength⟩

theorem exists_wide (h : t.Holds offset cs) (htag : t.tag? index = some tag)
    (hlength : tag.payloadLength? = some 8) : ∃ bits, t.wide index = .ok bits := by
  obtain ⟨start, c, hc, rfl⟩ := h.exists_at? htag
  exact ⟨_, (h.wide hc hlength).1⟩

theorem inRange_text (h : t.Holds offset cs) (htag : t.tag? index = some .utf8) :
    InRange (t.text index) := by
  obtain ⟨text, htext⟩ := h.exists_textBytes htag
  exact (inRange_of_eq_ok htext).map _

theorem inRange_expectText (h : t.Holds offset cs) (index : UInt16) :
    InRange (t.expectText index) := by
  unfold expectText
  apply (t.inRange_expect index .utf8).bind
  intro _ htag
  exact h.inRange_text (expect_eq_ok htag)

theorem inRange_checkedText (h : t.Holds offset cs) (index : UInt16) :
    InRange (t.checkedText index) := by
  unfold checkedText
  apply (t.inRange_expect index .utf8).bind
  intro _ htag
  obtain ⟨text, htext⟩ := h.exists_textBytes (expect_eq_ok htag)
  rw [htext, except_ok_bind]
  exact inRange_decode? text

theorem inRange_className (h : t.Holds offset cs) (index : UInt16) :
    InRange (t.className index) := by
  unfold className
  apply (t.inRange_expect index .classInfo).bind
  intro _ htag
  obtain ⟨target, htarget⟩ := h.exists_reference (expect_eq_ok htag) rfl
  rw [htarget, except_ok_bind]
  exact h.inRange_expectText target

/-! ## Checking a pool -/

theorem inRange_checkTag (tag : Tag) (version : Version) : InRange (checkTag tag version) := by
  unfold checkTag require
  split
  · split
    · exact inRange_error (by simp)
    · exact inRange_ok ()
  · exact inRange_ok ()

theorem inRange_checkHandle (t : ConstantTable) (version : Version) (kind : UInt8)
    (target : UInt16) : InRange (checkHandle t version kind target) := by
  unfold checkHandle checkReferenceKind
  split
  · dsimp only [except_ok_bind]
    split
    · exact inRange_ok ()
    · exact inRange_error (by simp)
  · exact inRange_error (by simp)

theorem inRange_checkReferences (h : t.Holds offset cs) (version : Version)
    (htag : t.tag? index = some tag) : InRange (checkReferences t version index tag) := by
  cases tag with
  | utf8 | integer | float | long | double => exact inRange_ok ()
  | classInfo | string | methodType | moduleInfo | packageInfo =>
    obtain ⟨target, htarget⟩ := h.exists_reference htag rfl
    simp only [checkReferences, htarget]
    exact t.inRange_expect target .utf8
  | fieldRef | methodRef | interfaceMethodRef | nameAndType =>
    obtain ⟨first, second, hboth⟩ := h.exists_references htag rfl
    simp only [checkReferences, hboth]
    exact (t.inRange_expect first _).bind fun _ _ => t.inRange_expect second _
  | dynamic | invokeDynamic =>
    obtain ⟨first, second, hboth⟩ := h.exists_references htag rfl
    simp only [checkReferences, hboth]
    exact t.inRange_expect second .nameAndType
  | methodHandle =>
    obtain ⟨kind, target, hhandle⟩ := h.exists_handle htag rfl
    simp only [checkReferences, hhandle]
    exact inRange_checkHandle t version kind target

theorem inRange_checkEntry (h : t.Holds offset cs) (version : Version) (inModule : Bool)
    (index : UInt16) : InRange (checkEntry t version inModule index) := by
  unfold checkEntry
  cases htag : t.tag? index with
  | none => exact inRange_ok ()
  | some tag =>
    apply (inRange_checkTag tag version).bind
    intro _ _
    split
    · exact inRange_error (by simp)
    · exact h.inRange_checkReferences version htag

theorem inRange_checkPool (h : t.Holds offset cs) (version : Version) (inModule : Bool) :
    InRange (checkPool t version inModule) :=
  inRange_forM (fun _ => h.inRange_checkEntry version inModule _) _

end Holds
end ConstantTable

/-! ## Whole files -/

namespace ClassFile

open Constant

variable {c : ClassFile} {s : ClassSyntax} {bytes : Bytes} {trailing : List UInt8} {offset : Nat}
  {cs : List Constant}

/-- Each query either answers or fails with an error that is not about a place outside the data.
Those that ask for nothing but what the tag of the index allows always answer. -/
structure QueriesInRange (c : ClassFile) : Prop where
  tags : ∀ i start, c.pool.start? i = some start →
    ∃ tag, c.bytes[start]? = some tag.byte ∧ c.pool.tag? i = some tag
  expect : ∀ i tag, InRange (c.pool.expect i tag)
  entryRange : ∀ i, ∃ range, c.entryRange i = .ok range ∧
    ∀ start stop, range = some (start, stop) → start < stop ∧ stop ≤ c.bytes.size
  className : ∀ i, InRange (c.pool.className i)
  checkedText : ∀ i, InRange (c.pool.checkedText i)
  thisName : InRange c.thisName
  superName : InRange c.superName
  memberTexts : ∀ m ∈ c.fields ++ c.methods,
    InRange (c.pool.expectText m.name) ∧ InRange (c.pool.expectText m.descriptor)
  text : ∀ i, c.pool.tag? i = some .utf8 →
    ∃ text, c.pool.textBytes i = .ok text ∧ c.pool.text i = .ok (ModifiedUtf8.decode text)
  reference : ∀ i tag, c.pool.tag? i = some tag → tag.payloadLength? = some 2 →
    ∃ target, c.pool.reference i = .ok target
  handle : ∀ i, c.pool.tag? i = some .methodHandle →
    ∃ kind target, c.pool.handle i = .ok (kind, target)
  word : ∀ i tag, c.pool.tag? i = some tag → tag.payloadLength? = some 4 →
    ∃ bits, c.pool.word i = .ok bits ∧ c.pool.int i = .ok bits.toInt32
  references : ∀ i tag, c.pool.tag? i = some tag → tag.payloadLength? = some 4 →
    ∃ first second, c.pool.references i = .ok (first, second)
  wide : ∀ i tag, c.pool.tag? i = some tag → tag.payloadLength? = some 8 →
    ∃ bits, c.pool.wide i = .ok bits ∧ c.pool.long i = .ok bits.toInt64
  findAttribute : ∀ attributes name, InRange (findAttribute? c.pool attributes name)
  /-- the attributes in the code are walked over as well -/
  findCode : ∀ attributes, InRange (findCode? c.pool attributes)
  find : ∀ tag payload, payload.Suits tag → ∃ found, c.pool.find? tag payload = .ok found
  findText : ∀ value, ∃ found, c.pool.findText? value = .ok found
  findTextReference : ∀ tag value, tag.payloadLength? = some 2 →
    ∃ found, c.pool.findTextReference? tag value = .ok found
  findNameAndType : ∀ name descriptor, ∃ found,
    c.pool.findNameAndType? name descriptor = .ok found
  checkPool : ∀ version inModule, InRange (Validity.checkPool c.pool version inModule)
  copyInto : ∀ capacity growth, ∃ moved p,
    c.pool.copyInto (ConstantPool.withPolicy capacity growth) = .ok moved p
  renameClass : ∀ newName, Avoids (.classFile .outOfRange) (Rename.renameClass c.bytes newName)
  stripMarker : ∀ marker, Avoids (.classFile .outOfRange) (Rename.stripMarker c.bytes marker)

theorem entryRange_inRange (h : c.pool.Holds offset cs) (i : UInt16) :
    ∃ range, c.entryRange i = .ok range ∧
      ∀ start stop, range = some (start, stop) → start < stop ∧ stop ≤ c.bytes.size := by
  cases hd : at? offset cs i.toNat with
  | none => exact ⟨none, entryRange_eq_none h hd, by simp⟩
  | some entry =>
    obtain ⟨first, d⟩ := entry
    refine ⟨_, entryRange_eq_ok h hd, ?_⟩
    rintro start stop ⟨⟩
    have hpos : 0 < d.encode.length := by simp [encode]
    exact ⟨by omega, (h.hasAt hd).le⟩

theorem inRange_thisName (h : c.pool.Holds offset cs) : InRange c.thisName :=
  h.inRange_className c.thisClass

theorem inRange_superName (h : c.pool.Holds offset cs) : InRange c.superName := by
  unfold superName
  split
  · exact inRange_ok none
  · exact (h.inRange_className c.superClass).map some

theorem inRange_findAttribute? (h : c.pool.Holds offset cs) (attributes : List Attribute)
    (name : String) : InRange (findAttribute? c.pool attributes name) := by
  apply inRange_findM?
  intro a
  unfold Attribute.isNamed
  split
  · rename_i htag
    exact (h.inRange_text htag).bind fun _ _ => inRange_ok _
  · exact inRange_ok false

theorem inRange_findCode? (h : c.pool.Holds offset cs) (attributes : List Attribute) :
    InRange (findCode? c.pool attributes) := by
  unfold findCode?
  apply (inRange_findAttribute? h attributes AttributeName.code.text).bind
  intro found _
  cases found with
  | none => exact inRange_ok none
  | some a => exact (Decoder.safe_code.run a.info).map some

theorem renameClass_inRange (hparse : ClassFile.parse bytes = .ok c) (newName : String) :
    Avoids (.classFile .outOfRange) (Rename.renameClass bytes newName) := by
  obtain ⟨expected, found, herror⟩ | ⟨index, hnamed⟩ :=
    Rename.unexpectedEntry_or_namedBy hparse newName
  · rw [herror]
    exact avoids_error (by simp)
  · obtain ⟨range, hrange⟩ := Rename.exists_entryRange hparse hnamed.isText
    rw [Rename.renameClass_of_namedBy hparse hnamed hrange]
    split
    · exact avoids_error (by simp)
    · exact avoids_ok _ _

theorem avoids_lift {x : Except Error α} (h : InRange x) :
    Avoids (.classFile .outOfRange) (liftM x : Except RenameError α) := by
  cases x with
  | error e => exact avoids_error fun he => h (by cases he; rfl)
  | ok a => exact avoids_ok _ a

theorem stripMarker_inRange (hparse : ClassFile.parse bytes = .ok c) (hname : InRange c.thisName)
    (marker : String) : Avoids (.classFile .outOfRange) (Rename.stripMarker bytes marker) := by
  unfold Rename.stripMarker
  rw [Rename.className_of_parse hparse]
  apply (avoids_lift hname).bind
  intro origin _
  cases Rename.beforeMarker? marker.toList [] origin.toList with
  | none => exact avoids_error (by simp)
  | some kept =>
    apply (renameClass_inRange hparse (String.ofList kept)).bind
    intro out _
    exact avoids_ok _ _

theorem queriesInRange (hs : s.WellFormed) (h : bytes.toList = s.encode ++ trailing) :
    (s.classFile bytes).QueriesInRange := by
  have hparse := parse_encode bytes hs h
  have hholds := holds_classFile hs h
  have hcount := count_classFile_lt hs bytes
  have hfill := fill_classFile hs bytes
  constructor
  case tags =>
    intro i start hstart
    rw [hholds.start?] at hstart
    obtain ⟨⟨_, d⟩, hd, rfl⟩ := Option.map_eq_some_iff.mp hstart
    exact ⟨d.tag, hholds.byte_eq hd, by rw [hholds.tag?, hd]; rfl⟩
  case expect => exact fun i tag => ConstantTable.inRange_expect _ i tag
  case entryRange => exact entryRange_inRange hholds
  case className => exact hholds.inRange_className
  case checkedText => exact hholds.inRange_checkedText
  case thisName => exact inRange_thisName hholds
  case superName => exact inRange_superName hholds
  case memberTexts =>
    exact fun m _ => ⟨hholds.inRange_expectText m.name, hholds.inRange_expectText m.descriptor⟩
  case text =>
    intro i htag
    obtain ⟨text, htext⟩ := hholds.exists_textBytes htag
    exact ⟨text, htext, congrArg (ModifiedUtf8.decode <$> ·) htext⟩
  case reference => exact fun i tag => hholds.exists_reference
  case handle => exact fun i htag => hholds.exists_handle htag rfl
  case word =>
    intro i tag htag hlength
    obtain ⟨bits, hbits⟩ := hholds.exists_word htag hlength
    exact ⟨bits, hbits, congrArg (UInt32.toInt32 <$> ·) hbits⟩
  case references => exact fun i tag => hholds.exists_references
  case wide =>
    intro i tag htag hlength
    obtain ⟨bits, hbits⟩ := hholds.exists_wide htag hlength
    exact ⟨bits, hbits, congrArg (UInt64.toInt64 <$> ·) hbits⟩
  case findAttribute => exact inRange_findAttribute? hholds
  case findCode => exact inRange_findCode? hholds
  case find => exact fun tag payload suits => ⟨_, hholds.find? hcount.le suits⟩
  case findText => exact fun value => ⟨_, hholds.findText? hcount.le value⟩
  case findTextReference => exact fun tag value suits =>
    ⟨_, hholds.findTextReference? hcount.le suits value⟩
  case findNameAndType => exact fun name descriptor =>
    ⟨_, hholds.findNameAndType? hcount.le name descriptor⟩
  case checkPool => exact hholds.inRange_checkPool
  case copyInto =>
    intro capacity growth
    obtain ⟨moved, p, -, hcopy, -⟩ :=
      hholds.copyInto_eq_ok hfill hcount (ConstantPool.Represents.withPolicy capacity growth)
    exact ⟨moved, p, hcopy⟩
  case renameClass => exact renameClass_inRange hparse
  case stripMarker => exact stripMarker_inRange hparse (inRange_thisName hholds)

/-- Where the checked walk passes, the rest of the reading passes too, and no query of what has
been read leaves the data: for any index and any arguments, and whatever the constants, the names
and the content of the attributes are. -/
theorem queries_in_range_of_checked (bytes : Bytes) (l : Layout)
    (h : Decoder.layout.run bytes = .ok l) :
    ∃ c, l.read bytes = .ok c ∧ ClassFile.parse bytes = .ok c ∧ c.QueriesInRange := by
  obtain ⟨s, hs, hat, rfl⟩ := layout_run_eq_ok.mp h
  obtain ⟨trailing, hsplit⟩ := hasAt_zero.mp hat
  exact ⟨_, ClassSyntax.read_layoutAt hs hat, parse_encode bytes hs hsplit,
    queriesInRange hs hsplit⟩

/-- Its name is no text, its other indexes lead nowhere or to constants of other kinds, and the
declared count cuts off half of the last constant. -/
def danglingIndexes : ClassSyntax where
  version := ⟨52, 0⟩
  count := 4
  constants := [ofPayload .classInfo (.reference 9) (Payload.suits_reference rfl 9),
    ofText #[0xC0] (by decide), ofPayload .long (.wide 0) (Payload.suits_wide rfl 0)]
  flags := ⟨0x21⟩
  thisClass := 1
  superClass := 3
  interfaces := [77]
  fields := [⟨⟨0⟩, 4, 1, [⟨2, #[]⟩]⟩]
  methods := []
  attributes := []

theorem danglingIndexes_wellFormed : danglingIndexes.WellFormed where
  constants := fill_cons.mpr ⟨by decide, fill_cons.mpr ⟨by decide,
    fill_cons.mpr ⟨by decide, fill_nil.mpr rfl⟩⟩⟩
  interfaces := by decide
  fieldCount := by decide
  fields := by
    simp only [danglingIndexes, List.mem_singleton, forall_eq]
    exact ⟨by decide, by simp [Attribute.Fits]⟩
  methodCount := by decide
  methods := by simp [danglingIndexes]
  attributeCount := by decide
  attributes := by simp [danglingIndexes]

theorem danglingIndexes_in_range : ∃ c,
    ClassFile.parse danglingIndexes.encode.toArray = .ok c ∧ c.QueriesInRange ∧
      c.thisName = .error (.unexpectedEntry .utf8 none) := by
  have hrun : Decoder.layout.run danglingIndexes.encode.toArray =
      .ok (danglingIndexes.layoutAt 0) :=
    layout_run_eq_ok.mpr
      ⟨danglingIndexes, danglingIndexes_wellFormed, hasAt_zero.mpr ⟨[], by simp⟩, rfl⟩
  obtain ⟨c, hread, hparse, hqueries⟩ := queries_in_range_of_checked _ _ hrun
  refine ⟨c, hparse, hqueries, ?_⟩
  have hc := parse_encode (x := []) danglingIndexes.encode.toArray danglingIndexes_wellFormed
    (by simp)
  obtain rfl := Except.ok.inj (hparse.symm.trans hc)
  rfl

end ClassFile

end JavaClass
