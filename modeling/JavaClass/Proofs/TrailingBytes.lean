import JavaClass.Proofs.Safety
import JavaClass.Proofs.Truncation
import JavaClass.Validity.Pool

/-!
# Bytes behind a class

A reader keeps all the bytes it was given, and some of its reads reach for their end. None of its
answers depends on what stands behind the class: every constant starts at least fifteen bytes ahead
of the end of the class, and a text ends within the pool.
-/

namespace JavaClass

/-! ## Bytes with the same front -/

namespace Bytes

/-- Both have `n` bytes at least, and the first `n` are the same. -/
structure SameFront (n : Nat) (x y : Bytes) : Prop where
  left : n ≤ x.size
  right : n ≤ y.size
  same : ∀ i < n, x[i]? = y[i]?

variable {x y : Bytes} {n offset start stop : Nat} {part : List UInt8}

theorem sameFront_of_hasAt (hx : x.HasAt 0 part) (hy : y.HasAt 0 part) :
    SameFront part.length x y := by
  refine ⟨by simpa using hx.le, by simpa using hy.le, fun i hi => ?_⟩
  obtain ⟨_, tail, hpx⟩ := hx
  obtain ⟨_, tail', hpy⟩ := hy
  rw [List.drop_zero] at hpx hpy
  rw [← Array.getElem?_toList, ← Array.getElem?_toList, ← hpx, ← hpy,
    List.getElem?_append_left hi, List.getElem?_append_left hi]

namespace SameFront

theorem slice (h : SameFront n x y) (hstop : stop ≤ n) : x.slice start stop = y.slice start stop := by
  have hx := h.left
  have hy := h.right
  unfold Bytes.slice
  by_cases hle : start ≤ stop
  · rw [if_pos ⟨hle, by omega⟩, if_pos ⟨hle, by omega⟩]
    congr 1
    apply Array.ext_getElem?
    intro i
    rw [Array.getElem?_extract, Array.getElem?_extract, Nat.min_eq_left (by omega),
      Nat.min_eq_left (by omega)]
    split
    · exact h.same _ (by omega)
    · rfl
  · rw [if_neg (fun hboth => hle hboth.1), if_neg (fun hboth => hle hboth.1)]

theorem window {width : Nat} (h : SameFront n x y) (hend : offset + width ≤ n) :
    x.window offset width = y.window offset width :=
  congrArg (Array.toList <$> ·) (h.slice hend)

theorem byteAt (h : SameFront n x y) (hlt : offset < n) : x.byteAt offset = y.byteAt offset := by
  unfold Bytes.byteAt
  rw [h.same offset hlt]

theorem get16 (h : SameFront n x y) (hend : offset + 2 ≤ n) : x.get16 offset = y.get16 offset :=
  congrArg (_ <$> ·) (h.window hend)

theorem get32 (h : SameFront n x y) (hend : offset + 4 ≤ n) : x.get32 offset = y.get32 offset :=
  congrArg (_ <$> ·) (h.window hend)

theorem get64 (h : SameFront n x y) (hend : offset + 8 ≤ n) : x.get64 offset = y.get64 offset :=
  congrArg (_ <$> ·) (h.window hend)

theorem holds16 (h : SameFront n x y) (hend : offset + 2 ≤ n) (v : UInt16) :
    x.holds16 offset v = y.holds16 offset v :=
  congrArg (_ <$> ·) (h.get16 hend)

theorem holds32 (h : SameFront n x y) (hend : offset + 4 ≤ n) (v : UInt32) :
    x.holds32 offset v = y.holds32 offset v :=
  congrArg (_ <$> ·) (h.get32 hend)

theorem holds64 (h : SameFront n x y) (hend : offset + 8 ≤ n) (v : UInt64) :
    x.holds64 offset v = y.holds64 offset v :=
  congrArg (_ <$> ·) (h.get64 hend)

theorem isAt (h : SameFront n x y) (hend : offset + 8 ≤ n) (payload : Payload) :
    payload.isAt x offset = payload.isAt y offset := by
  cases payload with
  | reference index => exact h.holds16 (by omega) index
  | handle kind index =>
    have hkind : x.byteAt offset = y.byteAt offset := h.byteAt (by omega)
    have hindex : x.holds16 (offset + 1) index = y.holds16 (offset + 1) index :=
      h.holds16 (by omega) index
    simp only [Payload.isAt, hkind, hindex]
  | word value => exact h.holds32 (by omega) value
  | wide value => exact h.holds64 hend value

end SameFront
end Bytes

/-! ## Tables over such bytes -/

namespace ConstantTable

/-- The text that the index is taken to have ends within the first `n` bytes. For an index of
another constant its length is what stands in front of the payload. -/
def TextWithin (t : ConstantTable) (n : Nat) (index : UInt16) : Prop :=
  ∀ offset length, t.payloadOffset index = .ok offset → t.bytes.get16 offset = .ok length →
    offset + 2 + length.toNat ≤ n

/-- The tables point to the same places in bytes with the same front, and these lie so far ahead of
its end that no read of a constant reaches it. -/
structure SameUpTo (n : Nat) (t u : ConstantTable) : Prop where
  bytes : Bytes.SameFront n t.bytes u.bytes
  starts : t.starts = u.starts
  ahead : ∀ index start, t.start? index = some start → start + 9 ≤ n
  texts : ∀ index, t.tag? index = some .utf8 → t.TextWithin n index

namespace SameUpTo

variable {α : Type} {n offset : Nat} {t u : ConstantTable} {index : UInt16}

theorem count (h : SameUpTo n t u) : t.count = u.count := congrArg Array.size h.starts

theorem start? (h : SameUpTo n t u) (index : UInt16) : t.start? index = u.start? index :=
  congrArg (fun starts : Array (Option Nat) => starts[index.toNat]?.join) h.starts

theorem payloadOffset (h : SameUpTo n t u) (index : UInt16) :
    t.payloadOffset index = u.payloadOffset index := by
  unfold ConstantTable.payloadOffset
  rw [h.start?]

theorem tag? (h : SameUpTo n t u) (index : UInt16) : t.tag? index = u.tag? index := by
  unfold ConstantTable.tag?
  rw [← h.start?]
  cases hstart : t.start? index with
  | none => rfl
  | some start =>
    have hahead := h.ahead index start hstart
    rw [Option.bind_some, Option.bind_some, h.bytes.same start (by omega)]

/-! ### Typed reads -/

theorem payload_ahead (h : SameUpTo n t u) (hoffset : t.payloadOffset index = .ok offset) :
    offset + 8 ≤ n := by
  unfold ConstantTable.payloadOffset at hoffset
  cases hstart : t.start? index with
  | none =>
    rw [hstart] at hoffset
    cases hoffset
  | some start =>
    rw [hstart] at hoffset
    obtain rfl := Except.ok.inj hoffset
    exact h.ahead index start hstart

theorem read {f g : Nat → Except Error α} (h : SameUpTo n t u)
    (hread : ∀ offset, offset + 8 ≤ n → f offset = g offset) (index : UInt16) :
    (t.payloadOffset index >>= f) = (u.payloadOffset index >>= g) := by
  rw [← h.payloadOffset]
  cases hoffset : t.payloadOffset index with
  | error e => rfl
  | ok offset => exact hread offset (h.payload_ahead hoffset)

theorem word (h : SameUpTo n t u) (index : UInt16) : t.word index = u.word index :=
  h.read (fun _ hend => h.bytes.get32 (by omega)) index

theorem wide (h : SameUpTo n t u) (index : UInt16) : t.wide index = u.wide index :=
  h.read (fun _ hend => h.bytes.get64 hend) index

theorem reference (h : SameUpTo n t u) (index : UInt16) : t.reference index = u.reference index :=
  h.read (fun _ hend => h.bytes.get16 (by omega)) index

theorem references (h : SameUpTo n t u) (index : UInt16) :
    t.references index = u.references index := by
  apply h.read
  intro offset hend
  rw [h.bytes.get16 (by omega), h.bytes.get16 (by omega)]

theorem handle (h : SameUpTo n t u) (index : UInt16) : t.handle index = u.handle index := by
  apply h.read
  intro offset hend
  rw [h.bytes.byteAt (by omega), h.bytes.get16 (by omega)]

theorem textAt (h : SameUpTo n t u) (hoffset : t.payloadOffset index = .ok offset)
    (hwithin : t.TextWithin n index) : t.textAt offset = u.textAt offset := by
  have hahead := h.payload_ahead hoffset
  unfold ConstantTable.textAt
  rw [← h.bytes.get16 (by omega)]
  cases hlength : t.bytes.get16 offset with
  | error e => rfl
  | ok length => exact h.bytes.slice (hwithin offset length hoffset hlength)

theorem textBytes (h : SameUpTo n t u) (hwithin : t.TextWithin n index) :
    t.textBytes index = u.textBytes index := by
  unfold ConstantTable.textBytes
  rw [← h.payloadOffset]
  cases hoffset : t.payloadOffset index with
  | error e => rfl
  | ok offset => exact h.textAt hoffset hwithin

/-- Where nothing stands behind the front, a text that goes on beyond it is not there. -/
theorem textBytes_beyond (h : SameUpTo n t u) (hend : u.bytes.size = n)
    (hbeyond : ¬t.TextWithin n index) : u.textBytes index = .error .outOfRange := by
  unfold TextWithin at hbeyond
  push Not at hbeyond
  obtain ⟨offset, length, hoffset, hlength, hlt⟩ := hbeyond
  have hahead := h.payload_ahead hoffset
  rw [h.bytes.get16 (by omega)] at hlength
  unfold ConstantTable.textBytes ConstantTable.textAt
  rw [← h.payloadOffset, hoffset, except_ok_bind, hlength, except_ok_bind]
  exact if_neg (by omega)

theorem text (h : SameUpTo n t u) (hwithin : t.TextWithin n index) : t.text index = u.text index :=
  congrArg (ModifiedUtf8.decode <$> ·) (h.textBytes hwithin)

/-! ### Checked reads -/

theorem expect (h : SameUpTo n t u) (index : UInt16) (tag : Tag) :
    t.expect index tag = u.expect index tag := by
  unfold ConstantTable.expect
  rw [h.tag?]

theorem checked {f g : Except Error α} (h : SameUpTo n t u)
    (htext : t.tag? index = some .utf8 → f = g) :
    (do t.expect index .utf8; f) = (do u.expect index .utf8; g) := by
  rw [← h.expect]
  by_cases htag : t.tag? index = some .utf8
  · rw [htext htag]
  · rw [expect_of_ne htag, except_error_bind, except_error_bind]

theorem expectText (h : SameUpTo n t u) (index : UInt16) :
    t.expectText index = u.expectText index :=
  h.checked fun htag => h.text (h.texts index htag)

theorem checkedText (h : SameUpTo n t u) (index : UInt16) :
    t.checkedText index = u.checkedText index := by
  apply h.checked
  intro htag
  rw [h.textBytes (h.texts index htag)]

theorem className (h : SameUpTo n t u) (index : UInt16) : t.className index = u.className index := by
  unfold ConstantTable.className
  simp only [h.expect, h.reference, h.expectText]

/-! ### Searching -/

theorem findTag? (h : SameUpTo n t u) (tag : Tag) (first : UInt16) :
    t.findTag? tag first = u.findTag? tag first := by
  unfold ConstantTable.findTag?
  simp only [h.tag?, h.count]

theorem isMatch {f g : Nat → Except Error Bool} (h : SameUpTo n t u) (tag : Tag)
    (htest : ∀ index start, t.start? index = some start → t.tag? index = some tag →
      f (start + 1) = g (start + 1)) (i : Nat) : t.isMatch tag f i = u.isMatch tag g i := by
  unfold ConstantTable.isMatch
  rw [← h.start?]
  cases hstart : t.start? (UInt16.ofNat i) with
  | none => rfl
  | some start =>
    have hahead := h.ahead _ start hstart
    simp only [h.bytes.same start (by omega)]
    split
    · rename_i hbyte
      apply htest _ start hstart
      unfold ConstantTable.tag?
      rw [hstart, Option.bind_some, h.bytes.same start (by omega), hbyte]
      exact Tag.ofByte?_byte tag
    · rfl

theorem firstMatch {f g : Nat → Except Error Bool} (h : SameUpTo n t u) (tag : Tag)
    (htest : ∀ index start, t.start? index = some start → t.tag? index = some tag →
      f (start + 1) = g (start + 1)) (i m : Nat) :
    t.firstMatch tag f i m = u.firstMatch tag g i m := by
  induction m generalizing i with
  | zero => rfl
  | succ m ih =>
    unfold ConstantTable.firstMatch
    rw [h.isMatch tag htest, ih]

theorem find? (h : SameUpTo n t u) (tag : Tag) (payload : Payload) :
    t.find? tag payload = u.find? tag payload := by
  unfold ConstantTable.find?
  rw [← h.count]
  apply h.firstMatch
  intro index start hstart _
  exact h.bytes.isAt (h.ahead index start hstart) payload

theorem findText? (h : SameUpTo n t u) (value : String) :
    t.findText? value = u.findText? value := by
  unfold ConstantTable.findText?
  rw [← h.count]
  apply h.firstMatch
  intro index start hstart htag
  have hoffset : t.payloadOffset index = .ok (start + 1) := by
    unfold ConstantTable.payloadOffset
    rw [hstart]
  rw [h.textAt hoffset (h.texts index htag)]

theorem findTextReference? (h : SameUpTo n t u) (tag : Tag) (value : String) :
    t.findTextReference? tag value = u.findTextReference? tag value := by
  unfold ConstantTable.findTextReference?
  simp only [h.findText?, h.find?]

theorem findNameAndType? (h : SameUpTo n t u) (name descriptor : String) :
    t.findNameAndType? name descriptor = u.findNameAndType? name descriptor := by
  unfold ConstantTable.findNameAndType? ConstantTable.findReferences?
  simp only [h.findText?, h.find?]

/-! ### What is made of these -/

theorem entryRange {c d : ClassFile} (h : SameUpTo n c.pool d.pool) (index : UInt16) :
    c.entryRange index = d.entryRange index := by
  unfold ClassFile.entryRange
  rw [← h.tag?]
  cases c.pool.tag? index with
  | none => rfl
  | some tag =>
    apply h.read
    intro offset hend
    rw [h.bytes.get16 (by omega)]

theorem isNamed (h : SameUpTo n t u) (name : String) (a : Attribute) :
    a.isNamed t name = a.isNamed u name := by
  unfold Attribute.isNamed
  rw [← h.tag?]
  split
  · rename_i htag
    rw [h.text (h.texts a.name htag)]
  · rfl

theorem findAttribute? (h : SameUpTo n t u) (attributes : List Attribute) (name : String) :
    JavaClass.findAttribute? t attributes name = JavaClass.findAttribute? u attributes name := by
  unfold JavaClass.findAttribute?
  rw [funext (h.isNamed name)]

theorem findCode? (h : SameUpTo n t u) (attributes : List Attribute) :
    JavaClass.findCode? t attributes = JavaClass.findCode? u attributes := by
  unfold JavaClass.findCode?
  rw [h.findAttribute?]

theorem checkEntry (h : SameUpTo n t u) (version : Version) (inModule : Bool) (index : UInt16) :
    Validity.checkEntry t version inModule index = Validity.checkEntry u version inModule index := by
  unfold Validity.checkEntry Validity.checkReferences Validity.checkHandle
  simp only [h.tag?, h.expect, h.reference, h.references, h.handle]

theorem checkPool (h : SameUpTo n t u) (version : Version) (inModule : Bool) :
    Validity.checkPool t version inModule = Validity.checkPool u version inModule := by
  unfold Validity.checkPool
  simp only [h.count, h.checkEntry]

end SameUpTo
end ConstantTable

/-! ## Queries -/

/-- A question to a class file, with the type of its answer. -/
inductive Query : Type → Type
  | version : Query Version
  | flags : Query AccessFlags
  | thisClass : Query UInt16
  | superClass : Query UInt16
  | interfaces : Query (List UInt16)
  | fields : Query (List Member)
  | methods : Query (List Member)
  | attributes : Query (List Attribute)
  | thisName : Query String
  | superName : Query (Option String)
  | poolLength : Query Nat
  | bodyLength : Query Nat
  | count : Query Nat
  | tag (index : UInt16) : Query (Option Tag)
  | expect (index : UInt16) (expected : Tag) : Query Unit
  | entryRange (index : UInt16) : Query (Option (Nat × Nat))
  | textBytes (index : UInt16) : Query Bytes
  | text (index : UInt16) : Query String
  | checkedText (index : UInt16) : Query String
  /-- the name or descriptor of a member -/
  | expectText (index : UInt16) : Query String
  | className (index : UInt16) : Query String
  | word (index : UInt16) : Query UInt32
  | wide (index : UInt16) : Query UInt64
  | int (index : UInt16) : Query Int32
  | long (index : UInt16) : Query Int64
  | reference (index : UInt16) : Query UInt16
  | references (index : UInt16) : Query (UInt16 × UInt16)
  | handle (index : UInt16) : Query (UInt8 × UInt16)
  | findTag (tag : Tag) (first : UInt16) : Query (Option UInt16)
  | find (tag : Tag) (payload : Payload) : Query (Option UInt16)
  | findText (value : String) : Query (Option UInt16)
  | findReferences (tag : Tag) (first second : UInt16) : Query (Option UInt16)
  | findHandle (kind : UInt8) (index : UInt16) : Query (Option UInt16)
  | findInt (value : Int32) : Query (Option UInt16)
  | findFloat (bits : UInt32) : Query (Option UInt16)
  | findLong (value : Int64) : Query (Option UInt16)
  | findDouble (bits : UInt64) : Query (Option UInt16)
  | findClass (name : String) : Query (Option UInt16)
  | findString (value : String) : Query (Option UInt16)
  | findMethodType (descriptor : String) : Query (Option UInt16)
  | findNameAndType (name descriptor : String) : Query (Option UInt16)
  | findAttribute (attributes : List Attribute) (name : String) : Query (Option Attribute)
  | findCode (attributes : List Attribute) : Query (Option Code)
  /-- whether the pool is legal in a version -/
  | checkPool (version : Version) (inModule : Bool) : Query Unit

namespace Query

def ask (c : ClassFile) : {α : Type} → Query α → Except Error α
  | _, .version => .ok c.version
  | _, .flags => .ok c.flags
  | _, .thisClass => .ok c.thisClass
  | _, .superClass => .ok c.superClass
  | _, .interfaces => .ok c.interfaces
  | _, .fields => .ok c.fields
  | _, .methods => .ok c.methods
  | _, .attributes => .ok c.attributes
  | _, .thisName => c.thisName
  | _, .superName => c.superName
  | _, .poolLength => .ok c.poolLength
  | _, .bodyLength => .ok c.bodyLength
  | _, .count => .ok c.pool.count
  | _, .tag index => .ok (c.pool.tag? index)
  | _, .expect index expected => c.pool.expect index expected
  | _, .entryRange index => c.entryRange index
  | _, .textBytes index => c.pool.textBytes index
  | _, .text index => c.pool.text index
  | _, .checkedText index => c.pool.checkedText index
  | _, .expectText index => c.pool.expectText index
  | _, .className index => c.pool.className index
  | _, .word index => c.pool.word index
  | _, .wide index => c.pool.wide index
  | _, .int index => c.pool.int index
  | _, .long index => c.pool.long index
  | _, .reference index => c.pool.reference index
  | _, .references index => c.pool.references index
  | _, .handle index => c.pool.handle index
  | _, .findTag t first => .ok (c.pool.findTag? t first)
  | _, .find t payload => c.pool.find? t payload
  | _, .findText value => c.pool.findText? value
  | _, .findReferences t first second => c.pool.findReferences? t first second
  | _, .findHandle kind index => c.pool.findHandle? kind index
  | _, .findInt value => c.pool.findInt? value
  | _, .findFloat bits => c.pool.findFloat? bits
  | _, .findLong value => c.pool.findLong? value
  | _, .findDouble bits => c.pool.findDouble? bits
  | _, .findClass name => c.pool.findClass? name
  | _, .findString value => c.pool.findString? value
  | _, .findMethodType descriptor => c.pool.findMethodType? descriptor
  | _, .findNameAndType name descriptor => c.pool.findNameAndType? name descriptor
  | _, .findAttribute list name => findAttribute? c.pool list name
  | _, .findCode list => findCode? c.pool list
  | _, .checkPool v inModule => Validity.checkPool c.pool v inModule

/-- The index of a text without a check is that of a text constant, or at least of one whose first
bytes, taken for a length, stay within the class: the class alone cannot answer for another index.
All other questions may have any arguments. -/
def Proper (c : ClassFile) : {α : Type} → Query α → Prop
  | _, .textBytes index | _, .text index => c.pool.TextWithin c.size index
  | _, _ => True

end Query

namespace ClassFile

open Constant

variable {s : ClassSyntax} {bytes : Bytes} {trailing : List UInt8}

theorem headerOffset_le (s : ClassSyntax) : s.headerOffset + 14 ≤ s.encode.length := by
  rw [ClassSyntax.length_encode]
  unfold ClassSyntax.attributesOffset ClassSyntax.methodsOffset ClassSyntax.fieldsOffset
    ClassSyntax.encodeHeader encodeCounted
  simp only [List.length_append, length_bytes16]
  omega

theorem textWithin_of_text {c : ClassFile} {cs : List Constant} {n : Nat} {index : UInt16}
    (h : c.pool.Holds 10 cs) (hend : 10 + (encodeAll cs).length ≤ n)
    (htag : c.pool.tag? index = some .utf8) : c.pool.TextWithin n index := by
  intro offset length hoffset hlength
  obtain ⟨start, d, hd, htext⟩ := h.exists_at? htag
  rw [h.payloadOffset hd] at hoffset
  obtain rfl := Except.ok.inj hoffset
  have hfits : d.payload.length < 65536 := Tag.fits_utf8.mp (htext ▸ d.fits)
  have hspell := h.spell_hasAt hd
  rw [htext, Tag.spell_utf8, Bytes.hasAt_append, length_bytes16] at hspell
  rw [Bytes.get16_eq_ok.mpr hspell.1] at hlength
  obtain rfl := Except.ok.inj hlength
  rw [UInt16.toNat_ofNat_of_lt' hfits]
  obtain ⟨before, after, rfl, -, rfl⟩ := at?_eq_some.mp hd
  have hspelled : d.encode.length = 1 + (2 + d.payload.length) := by
    rw [encode, List.length_cons, htext, Tag.spell_utf8, List.length_append, length_bytes16,
      Nat.add_comm]
  simp only [encodeAll_append, encodeAll_cons, List.length_append] at hend
  omega

theorem sameUpTo_classFile {bytes' : Bytes} {trailing' : List UInt8} (hs : s.WellFormed)
    (h : bytes.toList = s.encode ++ trailing) (h' : bytes'.toList = s.encode ++ trailing') :
    ConstantTable.SameUpTo s.encode.length (s.classFile bytes).pool (s.classFile bytes').pool := by
  have hholds := holds_classFile hs h
  have hlength := headerOffset_le s
  unfold ClassSyntax.headerOffset at hlength
  constructor
  case bytes =>
    exact Bytes.sameFront_of_hasAt (hasAt_zero.mpr ⟨trailing, h⟩) (hasAt_zero.mpr ⟨trailing', h'⟩)
  case starts => rfl
  case ahead =>
    intro index start hstart
    rw [hholds.start?] at hstart
    obtain ⟨⟨_, d⟩, hd, rfl⟩ := Option.map_eq_some_iff.mp hstart
    obtain ⟨before, after, hsplit, -, rfl⟩ := at?_eq_some.mp hd
    rw [hsplit, encodeAll_append, List.length_append] at hlength
    dsimp only
    omega
  case texts =>
    intro index htag
    exact textWithin_of_text hholds (by omega) htag

theorem ask_classFile {bytes' : Bytes} {trailing' : List UInt8} (hs : s.WellFormed)
    (h : bytes.toList = s.encode ++ trailing) (h' : bytes'.toList = s.encode ++ trailing')
    {α : Type} (q : Query α) (hq : q.Proper (s.classFile bytes)) :
    q.ask (s.classFile bytes) = q.ask (s.classFile bytes') := by
  have hsame := sameUpTo_classFile hs h h'
  cases q
  case thisName => exact hsame.className s.thisClass
  case superName =>
    show (s.classFile bytes).superName = (s.classFile bytes').superName
    unfold superName
    rw [hsame.className]
    rfl
  case count => exact congrArg Except.ok hsame.count
  case tag index => exact congrArg Except.ok (hsame.tag? index)
  case expect index expected => exact hsame.expect index expected
  case entryRange index => exact hsame.entryRange index
  case textBytes index => exact hsame.textBytes hq
  case text index => exact hsame.text hq
  case checkedText index => exact hsame.checkedText index
  case expectText index => exact hsame.expectText index
  case className index => exact hsame.className index
  case word index => exact hsame.word index
  case wide index => exact hsame.wide index
  case int index => exact congrArg (_ <$> ·) (hsame.word index)
  case long index => exact congrArg (_ <$> ·) (hsame.wide index)
  case reference index => exact hsame.reference index
  case references index => exact hsame.references index
  case handle index => exact hsame.handle index
  case findTag tag first => exact congrArg Except.ok (hsame.findTag? tag first)
  case find tag payload => exact hsame.find? tag payload
  case findText value => exact hsame.findText? value
  case findReferences tag first second => exact hsame.find? tag _
  case findHandle kind index => exact hsame.find? .methodHandle _
  case findInt value => exact hsame.find? .integer _
  case findFloat bits => exact hsame.find? .float _
  case findLong value => exact hsame.find? .long _
  case findDouble bits => exact hsame.find? .double _
  case findClass name => exact hsame.findTextReference? .classInfo name
  case findString value => exact hsame.findTextReference? .string value
  case findMethodType descriptor => exact hsame.findTextReference? .methodType descriptor
  case findNameAndType name descriptor => exact hsame.findNameAndType? name descriptor
  case findAttribute attributes name => exact hsame.findAttribute? attributes name
  case findCode attributes => exact hsame.findCode? attributes
  case checkPool version inModule => exact hsame.checkPool version inModule
  all_goals rfl

theorem ask_improper {bytes' : Bytes} (hs : s.WellFormed)
    (h : bytes.toList = s.encode ++ trailing) (h' : bytes'.toList = s.encode) {α : Type} (q : Query α)
    (hq : ¬q.Proper (s.classFile bytes)) : q.ask (s.classFile bytes') = .error .outOfRange := by
  have hbare : bytes'.toList = s.encode ++ [] := by rw [h', List.append_nil]
  have hsame := sameUpTo_classFile hs h hbare
  have hend : bytes'.size = s.encode.length := by rw [← h', Array.length_toList]
  cases q
  case textBytes index => exact hsame.textBytes_beyond hend hq
  case text index =>
    have hbeyond := hsame.textBytes_beyond hend hq
    exact congrArg (ModifiedUtf8.decode <$> ·) hbeyond
  all_goals exact absurd trivial hq

/-- What a file is taken for depends on the class at its start alone. A shorter start of the class is
truncated, where the error tells an offset inside and a need that goes beyond it; the class with
anything else behind it takes the same bytes and answers every query in the same way. Left out are
only unchecked reads of a text where there is none, to which the class alone has no answer. -/
theorem parse_depends_on_class (bytes : Bytes) (c : ClassFile) (h : ClassFile.parse bytes = .ok c) :
    c.size ≤ bytes.size ∧
    (∀ k < c.size, ∃ offset needed,
      ClassFile.parse (bytes.extract 0 k) = .error (.truncated offset needed k) ∧
        offset ≤ k ∧ k < offset + needed) ∧
    (∀ tail : Bytes, ∃ d, ClassFile.parse (bytes.extract 0 c.size ++ tail) = .ok d ∧
      d.size = c.size ∧ ∀ (α : Type) (q : Query α), q.Proper c → q.ask d = q.ask c) ∧
    (∀ index, c.pool.tag? index = some .utf8 → c.pool.TextWithin c.size index) ∧
    ∀ (α : Type) (q : Query α), ¬q.Proper c →
      ∃ d, ClassFile.parse (bytes.extract 0 c.size) = .ok d ∧ q.ask d = .error .outOfRange := by
  obtain ⟨s, trailing, hs, hsplit, rfl⟩ := parse_eq_ok.mp h
  have hsize : (s.classFile bytes).size = s.encode.length := rfl
  have hclass : (bytes.extract 0 (s.classFile bytes).size).toList = s.encode := by
    rw [Bytes.toList_front, hsize, hsplit, List.take_left]
  refine ⟨?_, fun k hk => parse_front h hk, fun tail => ?_, ?_, fun α q hq => ?_⟩
  · have hat : bytes.HasAt 0 s.encode := hasAt_zero.mpr ⟨trailing, hsplit⟩
    rw [hsize]
    simpa using hat.le
  · have hfront : (bytes.extract 0 (s.classFile bytes).size ++ tail).toList =
        s.encode ++ tail.toList := by
      rw [Array.toList_append, hclass]
    refine ⟨_, parse_encode _ hs hfront, rfl, fun α q hq => ?_⟩
    exact (ask_classFile hs hsplit hfront q hq).symm
  · intro index htag
    exact (sameUpTo_classFile hs hsplit hsplit).texts index htag
  · have hbare := hclass.trans (List.append_nil s.encode).symm
    exact ⟨_, parse_encode _ hs hbare, ask_improper hs hsplit hclass q hq⟩

/-- A class whose last constant has no second slot, cut inside the pool and followed by a byte. -/
theorem danglingIndexes_depends_on_class : ∃ c d offset needed,
    ClassFile.parse danglingIndexes.encode.toArray = .ok c ∧
      ClassFile.parse (danglingIndexes.encode.toArray.extract 0 20) =
        .error (.truncated offset needed 20) ∧
      ClassFile.parse (danglingIndexes.encode.toArray.extract 0 c.size ++ #[7]) = .ok d ∧
      d.entryRange 2 = c.entryRange 2 ∧ d.pool.textBytes 2 = c.pool.textBytes 2 := by
  have hparse := parse_encode (x := []) danglingIndexes.encode.toArray danglingIndexes_wellFormed
    (by simp)
  obtain ⟨-, hcut, htail, htexts, -⟩ := parse_depends_on_class _ _ hparse
  obtain ⟨offset, needed, herror, -⟩ := hcut 20 (by decide)
  obtain ⟨d, hd, -, hask⟩ := htail #[7]
  refine ⟨_, d, offset, needed, hparse, herror, hd, hask _ (.entryRange 2) trivial, ?_⟩
  exact hask _ (.textBytes 2) (htexts 2 (by decide))

end ClassFile
end JavaClass
