import JavaClass.Proofs.Agreement
import JavaClass.Proofs.ClassScripts
import JavaClass.Proofs.Links
import JavaClass.Proofs.Texts

/-!
# First matches

A search in an accepted file never fails. It answers with the smallest index whose entry has the tag
and the payload, byte by byte, and with none only where no entry has them; equal bytes under
another tag do not count, nor do other bytes that are read as the same text. What refers to texts is
found by the smallest indexes of the texts, so it is found whenever no entry is there twice.
-/

namespace JavaClass

open Constant

/-- The smallest index with the property. -/
def Least (P : UInt16 → Prop) (i : UInt16) : Prop := P i ∧ ∀ other, P other → i ≤ other

/-- The search succeeds, with the smallest index that has the property if there is one. -/
def Answers (search : Except Error (Option UInt16)) (P : UInt16 → Prop) : Prop :=
  ∃ found, search = .ok found ∧ (∀ i, found = some i ↔ Least P i) ∧ (found = none ↔ ∀ i, ¬P i)

section

variable {P Q : UInt16 → Prop} {i j : UInt16} {search : Except Error (Option UInt16)}

theorem Least.unique (hi : Least P i) (hj : Least P j) : i = j :=
  UInt16.le_antisymm (hi.2 j hj.1) (hj.2 i hi.1)

theorem Least.of_unique (h : ∀ i j, P i → P j → i = j) (hi : P i) : Least P i :=
  ⟨hi, fun j hj => h i j hi hj ▸ UInt16.le_refl i⟩

theorem answers_some (h : Least P i) : Answers (.ok (some i)) P := by
  refine ⟨some i, rfl, fun j => ⟨?_, fun hj => congrArg some (h.unique hj)⟩, ?_⟩
  · rintro hij
    exact Option.some.inj hij ▸ h
  · simp only [reduceCtorEq, false_iff]
    exact fun hnone => hnone i h.1

theorem answers_none (h : ∀ i, ¬P i) : Answers (.ok none) P :=
  ⟨none, rfl, fun i => ⟨nofun, fun hi => absurd hi.1 (h i)⟩, fun _ => h, fun _ => rfl⟩

theorem Answers.congr (h : Answers search P) (hPQ : ∀ i, P i ↔ Q i) : Answers search Q := by
  obtain rfl : P = Q := funext fun i => propext (hPQ i)
  exact h

theorem Answers.some_iff (h : Answers search P) : search = .ok (some i) ↔ Least P i := by
  obtain ⟨found, rfl, hsome, -⟩ := h
  rw [Except.ok.injEq, hsome]

theorem Answers.some_iff_of_unique (h : Answers search P) (hP : ∀ i j, P i → P j → i = j) :
    search = .ok (some i) ↔ P i := by
  rw [h.some_iff]
  exact ⟨And.left, Least.of_unique hP⟩

theorem Answers.bind {R : UInt16 → UInt16 → Prop}
    {next : Option UInt16 → Except Error (Option UInt16)} (h : Answers search P)
    (hnone : next none = .ok none) (hnext : ∀ j, Answers (next (some j)) (R j)) :
    Answers (search >>= next) fun i => ∃ j, Least P j ∧ R j i := by
  obtain ⟨found, rfl, hsome, hall⟩ := h
  rw [except_ok_bind]
  cases found with
  | none =>
    rw [hnone]
    apply answers_none
    rintro i ⟨j, hj, -⟩
    exact hall.mp rfl j hj.1
  | some j =>
    have hj := (hsome j).mp rfl
    apply (hnext j).congr
    intro i
    constructor
    · exact fun hi => ⟨j, hj, hi⟩
    · rintro ⟨k, hk, hi⟩
      rwa [hj.unique hk]

end

/-! ## Entries -/

namespace ConstantTable

/-- The bytes behind the tag of an entry; of a text those behind its length. -/
def payloadBytes (t : ConstantTable) (tag : Tag) (index : UInt16) : Except Error (List UInt8) :=
  match tag.payloadLength? with
  | some length => do t.bytes.window (← t.payloadOffset index) length
  | none => Array.toList <$> t.textBytes index

def HasEntry (t : ConstantTable) (tag : Tag) (payload : List UInt8) (index : UInt16) : Prop :=
  t.tag? index = some tag ∧ t.payloadBytes tag index = .ok payload

/-- No entry is there twice. -/
def Distinct (t : ConstantTable) : Prop :=
  ∀ tag payload i j, t.HasEntry tag payload i → t.HasEntry tag payload j → i = j

variable {t : ConstantTable} {offset start : Nat} {cs : List Constant} {c : Constant} {tag : Tag}
  {payload : List UInt8} {index : UInt16}

theorem Holds.payloadBytes (h : t.Holds offset cs)
    (hc : at? offset cs index.toNat = some (start, c)) :
    t.payloadBytes c.tag index = .ok c.payload := by
  unfold ConstantTable.payloadBytes
  cases hlength : c.tag.payloadLength? with
  | some length =>
    obtain ⟨hlen, hoffset, hat⟩ := h.exists_payload hc hlength
    simp only [hoffset, except_ok_bind]
    exact Bytes.window_eq_ok.mpr ⟨hlen, hat⟩
  | none =>
    have hutf8 : c.tag = .utf8 := by
      revert hlength
      cases c.tag <;> simp [Tag.payloadLength?, Tag.shape]
    simp only [h.textBytes hc hutf8]
    rfl

theorem Holds.hasEntry_iff (h : t.Holds offset cs) : t.HasEntry tag payload index ↔
    ∃ start c, at? offset cs index.toNat = some (start, c) ∧ c.tag = tag ∧ c.payload = payload := by
  constructor
  · rintro ⟨htag, hpayload⟩
    obtain ⟨start, c, hc, rfl⟩ := h.exists_at? htag
    rw [h.payloadBytes hc] at hpayload
    exact ⟨start, c, hc, rfl, Except.ok.inj hpayload⟩
  · rintro ⟨start, c, hc, rfl, rfl⟩
    refine ⟨?_, h.payloadBytes hc⟩
    rw [h.tag?, hc, Option.map_some]

theorem Holds.hasEntry_constant (h : t.Holds offset cs) (c : Constant) :
    t.HasEntry c.tag c.payload index ↔ ∃ start, at? offset cs index.toNat = some (start, c) := by
  rw [h.hasEntry_iff]
  constructor
  · rintro ⟨start, d, hd, htag, hpayload⟩
    exact ⟨start, Constant.ext htag hpayload ▸ hd⟩
  · rintro ⟨start, hc⟩
    exact ⟨start, c, hc, rfl, rfl⟩

theorem Holds.distinct (h : t.Holds offset cs) (hnodup : cs.Nodup) : t.Distinct := by
  intro tag payload i j hi hj
  obtain ⟨start, c, hc, rfl, rfl⟩ := h.hasEntry_iff.mp hi
  obtain ⟨start', hc'⟩ := (h.hasEntry_constant c).mp hj
  exact UInt16.toNat_inj.mp ((eq_indexOf hnodup hc).trans (eq_indexOf hnodup hc').symm)

theorem Holds.answers_indexIn? (h : t.Holds offset cs) (hcount : t.count ≤ 65536) (c : Constant) :
    Answers (.ok (c.indexIn? cs)) (t.HasEntry c.tag c.payload) := by
  by_cases hmem : c ∈ cs
  · rw [indexIn?_of_mem hmem]
    obtain ⟨start, hc⟩ := at?_indexOf offset hmem
    have hindex : (UInt16.ofNat (indexOf c cs)).toNat = indexOf c cs :=
      UInt16.toNat_ofNat_of_lt' (lt_of_lt_of_le (h.lt_count hc) hcount)
    apply answers_some
    refine ⟨(h.hasEntry_constant c).mpr ⟨start, hindex.symm ▸ hc⟩, fun other hother => ?_⟩
    obtain ⟨start', hc'⟩ := (h.hasEntry_constant c).mp hother
    rw [UInt16.le_iff_toNat_le, hindex]
    exact indexOf_le hc'
  · rw [indexIn?_of_notMem hmem]
    apply answers_none
    intro i hi
    obtain ⟨start, hc⟩ := (h.hasEntry_constant c).mp hi
    exact hmem (mem_of_at? hc)

theorem Holds.answers_find? (h : t.Holds offset cs) (hcount : t.count ≤ 65536) {payload : Payload}
    (suits : payload.Suits tag) :
    Answers (t.find? tag payload) (t.HasEntry tag payload.encode) := by
  rw [h.find? hcount suits]
  exact h.answers_indexIn? hcount (ofPayload tag payload suits)

theorem Holds.answers_findText? (h : t.Holds offset cs) (hcount : t.count ≤ 65536)
    (value : String) :
    Answers (t.findText? value) (t.HasEntry .utf8 (ModifiedUtf8.encode value).toList) := by
  rw [h.findText? hcount]
  unfold textIndexIn? ofText?
  split
  · rename_i short
    exact h.answers_indexIn? hcount (ofText _ short)
  · rename_i hlong
    apply answers_none
    intro i hi
    obtain ⟨start, c, hc, htag, hpayload⟩ := h.hasEntry_iff.mp hi
    have hfits := Tag.fits_utf8.mp (htag ▸ c.fits)
    rw [hpayload, Array.length_toList] at hfits
    exact hlong hfits

/-! ## Constants that refer to texts -/

/-- The index is that of a constant that refers to the text. -/
def Refers (t : ConstantTable) (tag : Tag) (index : UInt16) (value : String) : Prop :=
  t.tag? index = some tag ∧ ∃ j, t.reference index = .ok j ∧ t.HasText j value

/-- The index is that of a name and a descriptor. -/
def RefersToBoth (t : ConstantTable) (index : UInt16) (name descriptor : String) : Prop :=
  t.tag? index = some .nameAndType ∧
    ∃ j k, t.references index = .ok (j, k) ∧ t.HasText j name ∧ t.HasText k descriptor

/-- The first index of a text. -/
def FirstText (t : ConstantTable) (value : String) : UInt16 → Prop :=
  Least (t.HasEntry .utf8 (ModifiedUtf8.encode value).toList)

theorem hasEntry_text {value : String} :
    t.HasEntry .utf8 (ModifiedUtf8.encode value).toList index ↔ t.HasText index value := by
  unfold HasEntry HasText payloadBytes
  apply and_congr_right
  intro _
  show Array.toList <$> t.textBytes index = _ ↔ _
  cases t.textBytes index with
  | error e => exact ⟨nofun, nofun⟩
  | ok text =>
    rw [except_map_ok, Except.ok.injEq, Except.ok.injEq, Array.toList_inj]

theorem hasEntry_reference (hlength : tag.payloadLength? = some 2) {j : UInt16} :
    t.HasEntry tag (bytes16 j) index ↔ t.tag? index = some tag ∧ t.reference index = .ok j := by
  unfold HasEntry payloadBytes reference
  apply and_congr_right
  intro _
  simp only [hlength]
  cases t.payloadOffset index with
  | error e => exact ⟨nofun, nofun⟩
  | ok offset =>
    rw [except_ok_bind, except_ok_bind, Bytes.window_eq_ok, Bytes.get16_eq_ok]
    simp

theorem hasEntry_references (hlength : tag.payloadLength? = some 4) {j k : UInt16} :
    t.HasEntry tag (bytes16 j ++ bytes16 k) index ↔
      t.tag? index = some tag ∧ t.references index = .ok (j, k) := by
  unfold HasEntry payloadBytes references
  apply and_congr_right
  intro _
  simp only [hlength]
  cases t.payloadOffset index with
  | error e => exact ⟨nofun, nofun⟩
  | ok offset =>
    rw [except_ok_bind, except_ok_bind, Bytes.window_eq_ok, Bytes.hasAt_append, length_bytes16,
      ← Bytes.get16_eq_ok, ← Bytes.get16_eq_ok, except_bind_eq_ok]
    constructor
    · rintro ⟨-, hfirst, hsecond⟩
      refine ⟨j, hfirst, ?_⟩
      rw [hsecond]
      rfl
    · rintro ⟨first, hfirst, hrest⟩
      obtain ⟨second, hsecond, hboth⟩ := except_bind_eq_ok.mp hrest
      obtain ⟨rfl, rfl⟩ := Prod.mk.inj (Except.ok.inj hboth)
      exact ⟨by simp, hfirst, hsecond⟩

theorem Distinct.firstText (h : t.Distinct) {value : String} :
    t.FirstText value index ↔ t.HasText index value := by
  rw [← hasEntry_text]
  exact ⟨And.left, Least.of_unique (h _ _)⟩

theorem expectText_of_hasText {value : String} (h : t.HasText index value) :
    t.expectText index = .ok value := by
  unfold expectText text
  rw [expect_of_tag h.1, except_ok_bind, h.2, except_map_ok, ModifiedUtf8.decode_encode]

theorem className_of_refers {name : String} (h : t.Refers .classInfo index name) :
    t.className index = .ok name := by
  obtain ⟨htag, j, hj, htext⟩ := h
  unfold className
  rw [expect_of_tag htag, except_ok_bind, hj, except_ok_bind, expectText_of_hasText htext]

theorem Holds.answers_findTextReference? (h : t.Holds offset cs) (hcount : t.count ≤ 65536)
    (hlength : tag.payloadLength? = some 2) (value : String) :
    Answers (t.findTextReference? tag value) fun i =>
      ∃ j, t.FirstText value j ∧ t.HasEntry tag (bytes16 j) i := by
  unfold ConstantTable.findTextReference?
  apply Answers.bind (h.answers_findText? hcount value)
  · rfl
  · exact fun j => h.answers_find? hcount (Payload.suits_reference hlength j)

theorem Holds.answers_findNameAndType? (h : t.Holds offset cs) (hcount : t.count ≤ 65536)
    (name descriptor : String) :
    Answers (t.findNameAndType? name descriptor) fun i =>
      ∃ j, t.FirstText name j ∧ ∃ k, t.FirstText descriptor k ∧
        t.HasEntry .nameAndType (bytes16 j ++ bytes16 k) i := by
  unfold ConstantTable.findNameAndType?
  apply Answers.bind (h.answers_findText? hcount name)
  · rfl
  intro j
  apply Answers.bind (h.answers_findText? hcount descriptor)
  · rfl
  intro k
  rw [← Payload.encode_references]
  exact h.answers_find? hcount (Payload.suits_nameAndType j k)

/-- Every search finds the first entry of its tag and bytes. What refers to texts is found by the
first entries of the texts. -/
structure FindsFirst (t : ConstantTable) : Prop where
  text (value : String) :
    Answers (t.findText? value) (t.HasEntry .utf8 (ModifiedUtf8.encode value).toList)
  word (tag : Tag) (value : UInt32) (hlength : tag.payloadLength? = some 4) :
    Answers (t.find? tag (.word value)) (t.HasEntry tag (bytes32 value))
  wide (tag : Tag) (value : UInt64) (hlength : tag.payloadLength? = some 8) :
    Answers (t.find? tag (.wide value)) (t.HasEntry tag (bytes64 value))
  reference (tag : Tag) (index : UInt16) (hlength : tag.payloadLength? = some 2) :
    Answers (t.find? tag (.reference index)) (t.HasEntry tag (bytes16 index))
  references (tag : Tag) (first second : UInt16) (hlength : tag.payloadLength? = some 4) :
    Answers (t.findReferences? tag first second) (t.HasEntry tag (bytes16 first ++ bytes16 second))
  handle (kind : UInt8) (index : UInt16) :
    Answers (t.findHandle? kind index) (t.HasEntry .methodHandle (kind :: bytes16 index))
  classInfo (name : String) : Answers (t.findClass? name) fun i =>
    ∃ j, t.FirstText name j ∧ t.HasEntry .classInfo (bytes16 j) i
  string (value : String) : Answers (t.findString? value) fun i =>
    ∃ j, t.FirstText value j ∧ t.HasEntry .string (bytes16 j) i
  methodType (descriptor : String) : Answers (t.findMethodType? descriptor) fun i =>
    ∃ j, t.FirstText descriptor j ∧ t.HasEntry .methodType (bytes16 j) i
  nameAndType (name descriptor : String) : Answers (t.findNameAndType? name descriptor) fun i =>
    ∃ j, t.FirstText name j ∧ ∃ k, t.FirstText descriptor k ∧
      t.HasEntry .nameAndType (bytes16 j ++ bytes16 k) i

/-- What refers to a text is found exactly where it stands, and reads back as that text. -/
structure FindsReferring (t : ConstantTable) : Prop where
  classInfo (name : String) (i : UInt16) :
    t.findClass? name = .ok (some i) ↔ t.Refers .classInfo i name
  string (value : String) (i : UInt16) :
    t.findString? value = .ok (some i) ↔ t.Refers .string i value
  methodType (descriptor : String) (i : UInt16) :
    t.findMethodType? descriptor = .ok (some i) ↔ t.Refers .methodType i descriptor
  nameAndType (name descriptor : String) (i : UInt16) :
    t.findNameAndType? name descriptor = .ok (some i) ↔ t.RefersToBoth i name descriptor
  className (name : String) (i : UInt16) : t.Refers .classInfo i name → t.className i = .ok name
  text (value : String) (i : UInt16) : t.HasText i value → t.expectText i = .ok value

theorem Holds.findsFirst (h : t.Holds offset cs) (hcount : t.count ≤ 65536) : t.FindsFirst := by
  constructor
  case text => exact h.answers_findText? hcount
  case word =>
    exact fun tag value hlength => h.answers_find? hcount (Payload.suits_word hlength value)
  case wide =>
    exact fun tag value hlength => h.answers_find? hcount (Payload.suits_wide hlength value)
  case reference =>
    exact fun tag index hlength => h.answers_find? hcount (Payload.suits_reference hlength index)
  case references =>
    intro tag first second hlength
    rw [← Payload.encode_references]
    exact h.answers_find? hcount (Payload.suits_references hlength first second)
  case handle => exact fun kind index => h.answers_find? hcount (Payload.suits_handle kind index)
  case classInfo => exact h.answers_findTextReference? hcount rfl
  case string => exact h.answers_findTextReference? hcount rfl
  case methodType => exact h.answers_findTextReference? hcount rfl
  case nameAndType => exact h.answers_findNameAndType? hcount

theorem Distinct.some_iff_refers (h : t.Distinct) (hlength : tag.payloadLength? = some 2)
    {value : String} {search : Except Error (Option UInt16)}
    (hsearch : Answers search fun i => ∃ j, t.FirstText value j ∧ t.HasEntry tag (bytes16 j) i) :
    search = .ok (some index) ↔ t.Refers tag index value := by
  rw [hsearch.some_iff_of_unique]
  · simp only [h.firstText, hasEntry_reference hlength, Refers]
    constructor
    · rintro ⟨j, htext, htag, hj⟩
      exact ⟨htag, j, hj, htext⟩
    · rintro ⟨htag, j, hj, htext⟩
      exact ⟨j, htext, htag, hj⟩
  · rintro i i' ⟨j, hj, hi⟩ ⟨j', hj', hi'⟩
    obtain rfl := hj.unique hj'
    exact h _ _ _ _ hi hi'

theorem Distinct.some_iff_refersToBoth (h : t.Distinct) {name descriptor : String}
    {search : Except Error (Option UInt16)}
    (hsearch : Answers search fun i => ∃ j, t.FirstText name j ∧ ∃ k, t.FirstText descriptor k ∧
      t.HasEntry .nameAndType (bytes16 j ++ bytes16 k) i) :
    search = .ok (some index) ↔ t.RefersToBoth index name descriptor := by
  rw [hsearch.some_iff_of_unique]
  · have hlength : Tag.nameAndType.payloadLength? = some 4 := rfl
    simp only [h.firstText, hasEntry_references hlength, RefersToBoth]
    constructor
    · rintro ⟨j, hname, k, hdescriptor, htag, hboth⟩
      exact ⟨htag, j, k, hboth, hname, hdescriptor⟩
    · rintro ⟨htag, j, k, hboth, hname, hdescriptor⟩
      exact ⟨j, hname, k, hdescriptor, htag, hboth⟩
  · rintro i i' ⟨j, hj, k, hk, hi⟩ ⟨j', hj', k', hk', hi'⟩
    obtain rfl := hj.unique hj'
    obtain rfl := hk.unique hk'
    exact h _ _ _ _ hi hi'

theorem FindsFirst.findsReferring (hfinds : t.FindsFirst) (h : t.Distinct) : t.FindsReferring where
  classInfo name _ := h.some_iff_refers rfl (hfinds.classInfo name)
  string value _ := h.some_iff_refers rfl (hfinds.string value)
  methodType descriptor _ := h.some_iff_refers rfl (hfinds.methodType descriptor)
  nameAndType name descriptor _ := h.some_iff_refersToBoth (hfinds.nameAndType name descriptor)
  className _ _ := className_of_refers
  text _ _ := expectText_of_hasText

end ConstantTable

namespace ClassFile

/-- In any accepted file, also one that holds entries more than once or text that is malformed. -/
theorem searches_find_first (bytes : Bytes) (c : ClassFile)
    (hparse : ClassFile.parse bytes = .ok c) :
    c.pool.FindsFirst ∧ (c.pool.Distinct → c.pool.FindsReferring) := by
  obtain ⟨s, trailing, hs, hbytes, rfl⟩ := parse_eq_ok.mp hparse
  have hfinds := (holds_classFile hs hbytes).findsFirst (Nat.le_of_lt (count_classFile_lt hs bytes))
  exact ⟨hfinds, hfinds.findsReferring⟩

/-- A class with its own name in the pool. -/
def namedClass : ClassSyntax :=
  { bareClass with
    count := 3
    constants := [ofText (ModifiedUtf8.encode "A") (by decide),
      ofPayload .classInfo (.reference 1) (Payload.suits_reference rfl 1)] }

theorem namedClass_wellFormed : namedClass.WellFormed :=
  { bareClass_wellFormed with constants := fill_slotCount namedClass.constants }

theorem namedClass_is_found : ∃ bytes c, ClassFile.parse bytes = .ok c ∧ c.pool.Distinct ∧
    c.pool.findClass? "A" = .ok (some 2) ∧ c.pool.className 2 = .ok "A" := by
  have hbytes : namedClass.encode.toArray.toList = namedClass.encode ++ [] := by simp
  have hparse := parse_encode _ namedClass_wellFormed hbytes
  have hholds := holds_classFile namedClass_wellFormed hbytes
  have hdistinct := hholds.distinct (by decide)
  have hreferring := (searches_find_first _ _ hparse).2 hdistinct
  have hrefers : (namedClass.classFile namedClass.encode.toArray).pool.Refers .classInfo 2 "A" :=
    ⟨rfl, 1, rfl, rfl, rfl⟩
  exact ⟨_, _, hparse, hdistinct, (hreferring.classInfo "A" 2).mpr hrefers,
    hreferring.className "A" 2 hrefers⟩

end ClassFile

end JavaClass
