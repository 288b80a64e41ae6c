import JavaClass.Proofs.Grammar
import JavaClass.Proofs.Searching

/-!
# The builder and the reader agree

A pool under construction searches from the newest entry back and finds texts in a map. A reader
searches the bytes of the class file from the first entry on. Both have the same distinct constants
at the same indexes, so they tell the same.
-/

namespace JavaClass

/-! ## Searching and interning a list -/

namespace Constant

variable {α β : Type} {cs ds : List Constant} {step : EStateM Error (List Constant) UInt16}

/-- The constants that the step leaves, whether it succeeds or not. -/
def left (step : EStateM Error (List Constant) α) (cs : List Constant) : List Constant :=
  match step cs with
  | .ok _ ds => ds
  | .error _ ds => ds

theorem Grows.left {step : EStateM Error (List Constant) α} (h : Grows step) (cs : List Constant) :
    cs <+: left step cs := by
  unfold Constant.left
  cases hcs : step cs with
  | ok a ds => exact (h cs ds).1 a hcs
  | error e ds => exact (h cs ds).2 e hcs

theorem left_bind_of_ok {step : EStateM Error (List Constant) α}
    {next : α → EStateM Error (List Constant) β} {a : α} (h : step cs = .ok a ds) :
    left (step >>= next) cs = left (next a) ds := by
  unfold left
  rw [bind_apply_ok h]

theorem left_prefix_bind {step : EStateM Error (List Constant) α}
    {next : α → EStateM Error (List Constant) β} (h : ∀ a, Grows (next a)) :
    left step cs <+: left (step >>= next) cs := by
  cases hcs : step cs with
  | ok a ds =>
    rw [left_bind_of_ok hcs, left, hcs]
    exact (h a).left ds
  | error e ds =>
    have hbind := bind_apply_error (f := next) hcs
    unfold left
    rw [hcs, hbind]

/-- An index that is found is what the step answers without appending anything; where none is found
the step has to append. -/
def Tells (found : Option UInt16) (step : EStateM Error (List Constant) UInt16)
    (cs : List Constant) : Prop :=
  match found with
  | some index => step cs = .ok index cs
  | none => slotCount cs < slotCount (left step cs)

theorem Tells.bind {found : Option UInt16} {find : UInt16 → Option UInt16}
    {next : UInt16 → EStateM Error (List Constant) UInt16} (h : Tells found step cs)
    (hnext : ∀ index, Tells (find index) (next index) cs) (hgrows : ∀ index, Grows (next index)) :
    Tells (found.bind find) (step >>= next) cs := by
  cases found with
  | none => exact lt_of_lt_of_le h (slotCount_mono (left_prefix_bind hgrows))
  | some index =>
    have hstep : step cs = .ok index cs := h
    have hlast := hnext index
    rw [Option.bind_some]
    cases hfind : find index with
    | none =>
      rw [hfind] at hlast
      show slotCount cs < slotCount (left (step >>= next) cs)
      rw [left_bind_of_ok hstep]
      exact hlast
    | some answer =>
      rw [hfind] at hlast
      show (step >>= next) cs = .ok answer cs
      rw [bind_apply_ok hstep]
      exact hlast

theorem tells_intern (hroom : 1 + slotCount cs < 65536) (c : Constant) :
    Tells (c.indexIn? cs) (intern c) cs := by
  by_cases hmem : c ∈ cs
  · rw [indexIn?_of_mem hmem]
    exact intern_of_mem hmem
  · rw [indexIn?_of_notMem hmem]
    have hpos := c.slots_pos
    show slotCount cs < slotCount (left (intern c) cs)
    rw [left, intern_of_notMem hmem hroom, slotCount_append, slotCount_cons]
    omega

theorem tells_internText (hroom : 1 + slotCount cs < 65536) {text : Bytes}
    (short : text.size < 65536) : Tells (textIndexIn? text cs) (internText text) cs := by
  unfold textIndexIn? ofText? internText
  rw [dif_pos short, dif_pos short]
  exact tells_intern hroom _

theorem tells_internTextReference (hroom : 1 + slotCount cs < 65536) {tag : Tag}
    (suits : tag.payloadLength? = some 2) {value : String}
    (short : (ModifiedUtf8.encode value).size < 65536) :
    Tells (textReferenceIn? tag suits value cs) (internTextReference tag suits value) cs :=
  (tells_internText hroom short).bind (fun _ => tells_intern hroom _) fun _ => grows_intern _

theorem tells_internNameAndType (hroom : 1 + slotCount cs < 65536) {name descriptor : String}
    (hname : (ModifiedUtf8.encode name).size < 65536)
    (hdescriptor : (ModifiedUtf8.encode descriptor).size < 65536) :
    Tells (nameAndTypeIn? name descriptor cs) (internNameAndType name descriptor) cs :=
  (tells_internText hroom hname).bind
    (fun _ => (tells_internText hroom hdescriptor).bind (fun _ => tells_intern hroom _)
      fun _ => grows_intern _)
    fun _ => (grows_internText _).bind fun _ => grows_intern _

end Constant

/-! ## Searching and interning a pool -/

namespace PoolCall

open Constant

/-- The search that asks for the same constant, if readers have one. -/
def search? : PoolCall → Option (ConstantTable → Except Error (Option UInt16))
  | text value => some (·.findText? value)
  | word tag _ value => some (·.find? tag (.word value))
  | wide tag _ value => some (·.find? tag (.wide value))
  | reference tag _ index => some (·.find? tag (.reference index))
  | references tag _ first second => some (·.findReferences? tag first second)
  | handle kind index => some (·.findHandle? kind index)
  | int value => some (·.findInt? value)
  | float bits => some (·.findFloat? bits)
  | long value => some (·.findLong? value)
  | double bits => some (·.findDouble? bits)
  | classInfo name => some (·.findClass? name)
  | string value => some (·.findString? value)
  | methodType descriptor => some (·.findMethodType? descriptor)
  | nameAndType name descriptor => some (·.findNameAndType? name descriptor)
  | encodedText _ | memberRef .. | fieldRef .. | methodRef .. | interfaceMethodRef ..
  | attributeName _ => none

/-- The texts that the call and its search ask for. -/
def texts : PoolCall → List String
  | text value | classInfo value | string value | methodType value => [value]
  | nameAndType name descriptor => [name, descriptor]
  | _ => []

variable {call : PoolCall} {search : ConstantTable → Except Error (Option UInt16)}
  {p : ConstantPool} {cs : List Constant} {found : Option UInt16}

/-- There is an index in a list that the search answers wherever the list is held, and that the
step tells of the list. -/
def Searches (search : ConstantTable → Except Error (Option UInt16))
    (step : EStateM Error (List Constant) UInt16) : Prop :=
  ∃ find : List Constant → Option UInt16,
    (∀ (t : ConstantTable) (offset : Nat) (cs : List Constant), t.Holds offset cs →
      t.count ≤ 65536 → search t = .ok (find cs)) ∧
    ∀ cs, 1 + slotCount cs < 65536 → Tells (find cs) step cs

theorem searches_constant {tag : Tag} {payload : Payload} (suits : payload.Suits tag) :
    Searches (·.find? tag payload) (intern (ofPayload tag payload suits)) :=
  ⟨_, fun _ _ _ h hcount => h.find? hcount suits, fun _ hroom => tells_intern hroom _⟩

theorem searches_text {value : String} (short : (ModifiedUtf8.encode value).size < 65536) :
    Searches (·.findText? value) (internText (ModifiedUtf8.encode value)) :=
  ⟨_, fun _ _ _ h hcount => h.findText? hcount value, fun _ hroom => tells_internText hroom short⟩

theorem searches_textReference (tag : Tag) (suits : tag.payloadLength? = some 2) {value : String}
    (short : (ModifiedUtf8.encode value).size < 65536) :
    Searches (·.findTextReference? tag value) (internTextReference tag suits value) :=
  ⟨_, fun _ _ _ h hcount => h.findTextReference? hcount suits value,
    fun _ hroom => tells_internTextReference hroom suits short⟩

theorem searches_nameAndType {name descriptor : String}
    (hname : (ModifiedUtf8.encode name).size < 65536)
    (hdescriptor : (ModifiedUtf8.encode descriptor).size < 65536) :
    Searches (·.findNameAndType? name descriptor) (internNameAndType name descriptor) :=
  ⟨_, fun _ _ _ h hcount => h.findNameAndType? hcount name descriptor,
    fun _ hroom => tells_internNameAndType hroom hname hdescriptor⟩

theorem searches (hsearch : call.search? = some search)
    (hshort : ∀ text ∈ call.texts, (ModifiedUtf8.encode text).size < 65536) :
    Searches search call.spec := by
  cases call <;> cases hsearch
  case text value => exact searches_text (hshort value (by simp [texts]))
  case word suits value => exact searches_constant (Payload.suits_word suits value)
  case wide suits value => exact searches_constant (Payload.suits_wide suits value)
  case reference suits index => exact searches_constant (Payload.suits_reference suits index)
  case references suits first second =>
    exact searches_constant (Payload.suits_references suits first second)
  case handle kind index => exact searches_constant (Payload.suits_handle kind index)
  case int value => exact searches_constant (Payload.suits_word rfl value.toUInt32)
  case float bits => exact searches_constant (Payload.suits_word rfl bits)
  case long value => exact searches_constant (Payload.suits_wide rfl value.toUInt64)
  case double bits => exact searches_constant (Payload.suits_wide rfl bits)
  case classInfo name =>
    exact searches_textReference .classInfo rfl (hshort name (by simp [texts]))
  case string value => exact searches_textReference .string rfl (hshort value (by simp [texts]))
  case methodType descriptor =>
    exact searches_textReference .methodType rfl (hshort descriptor (by simp [texts]))
  case nameAndType name descriptor =>
    exact searches_nameAndType (hshort name (by simp [texts])) (hshort descriptor (by simp [texts]))

theorem after_represents_left (call : PoolCall) (h : p.Represents cs) :
    (call.after p).Represents (left call.spec cs) := by
  unfold after left
  rcases call.refines p cs h with ⟨a, p', ds, hp, hcs, h'⟩ | ⟨e, p', ds, hp, hcs, h'⟩
  · rw [hp, hcs]
    exact h'
  · rw [hp, hcs]
    exact h'

theorem after_of_run {index : UInt16} {p' : ConstantPool} (h : call.run p = .ok index p') :
    call.after p = p' := by
  unfold after
  rw [h]

theorem after_of_run_error {e : Error} {p' : ConstantPool} (h : call.run p = .error e p') :
    call.after p = p' := by
  unfold after
  rw [h]

theorem run_of_tells {index : UInt16} (h : p.Represents cs)
    (htells : Tells (some index) call.spec cs) :
    ∃ p', call.run p = .ok index p' ∧ p'.count = p.count := by
  have hspec : call.spec cs = .ok index cs := htells
  rcases call.refines p cs h with ⟨a, p', ds, hp, hcs, h'⟩ | ⟨e, p', ds, hp, hcs, h'⟩
  · rw [hspec] at hcs
    obtain ⟨rfl, rfl⟩ := EStateM.Result.ok.inj hcs
    exact ⟨p', hp, by rw [h'.count, h.count]⟩
  · rw [hspec] at hcs
    cases hcs

theorem count_lt_of_tells (h : p.Represents cs) (htells : Tells none call.spec cs) :
    p.count < (call.after p).count := by
  rw [h.count, (call.after_represents_left h).count]
  exact Nat.add_lt_add_left htells 1

theorem eq_some_iff (h : p.Represents cs) (htells : Tells found call.spec cs) (index : UInt16) :
    found = some index ↔ ∃ p', call.run p = .ok index p' ∧ p'.count = p.count := by
  constructor
  · rintro rfl
    exact run_of_tells h htells
  · rintro ⟨p', hrun, hcount⟩
    cases found with
    | none =>
      have hlt := count_lt_of_tells h htells
      rw [after_of_run hrun] at hlt
      omega
    | some other =>
      obtain ⟨p'', hrun', -⟩ := run_of_tells h htells
      rw [hrun] at hrun'
      rw [(EStateM.Result.ok.inj hrun').1]

theorem eq_none_iff (h : p.Represents cs) (htells : Tells found call.spec cs) :
    found = none ↔ p.count < (call.after p).count := by
  constructor
  · rintro rfl
    exact count_lt_of_tells h htells
  · intro hlt
    cases found with
    | none => rfl
    | some index =>
      obtain ⟨p', hrun, hcount⟩ := run_of_tells h htells
      rw [after_of_run hrun] at hlt
      omega

end PoolCall

/-! ## Two tables of the same constants -/

namespace ConstantTable.Holds

open Constant

variable {t u : ConstantTable} {offset offset' : Nat} {cs : List Constant} {index : UInt16}
  {tag : Tag}

theorem tag?_congr (ht : t.Holds offset cs) (hu : u.Holds offset' cs) (index : UInt16) :
    t.tag? index = u.tag? index := by
  have htags := congrArg (Option.map Constant.tag) (at?_snd cs offset offset' index.toNat)
  rw [ht.tag?, hu.tag?]
  rwa [Option.map_map, Option.map_map] at htags

theorem exists_at?_both (ht : t.Holds offset cs) (htag : t.tag? index = some tag) (offset' : Nat) :
    ∃ start start' c, at? offset cs index.toNat = some (start, c) ∧
      at? offset' cs index.toNat = some (start', c) ∧ c.tag = tag := by
  obtain ⟨start, c, hc, rfl⟩ := ht.exists_at? htag
  have hsnd := at?_snd cs offset offset' index.toNat
  rw [hc] at hsnd
  obtain ⟨⟨start', d⟩, hd, hdc⟩ := Option.map_eq_some_iff.mp hsnd.symm
  obtain rfl : d = c := hdc
  exact ⟨start, start', d, hc, hd, rfl⟩

variable {α : Type} {n : Nat}

theorem read_congr (read : ConstantTable → Except Error α) (value : Constant → α)
    (hread : ∀ (t : ConstantTable) (offset start : Nat) (c : Constant), t.Holds offset cs →
      at? offset cs index.toNat = some (start, c) → c.tag = tag → read t = .ok (value c))
    (ht : t.Holds offset cs) (hu : u.Holds offset' cs) (htag : t.tag? index = some tag) :
    ∃ a, read t = .ok a ∧ read u = .ok a := by
  obtain ⟨start, start', c, hc, hc', hctag⟩ := ht.exists_at?_both htag offset'
  exact ⟨value c, hread t offset start c ht hc hctag, hread u offset' start' c hu hc' hctag⟩

theorem text_congr (ht : t.Holds offset cs) (hu : u.Holds offset' cs)
    (htag : t.tag? index = some .utf8) :
    ∃ text, t.text index = .ok text ∧ u.text index = .ok text := by
  refine read_congr (·.text index) (fun c => ModifiedUtf8.decode c.payload.toArray) ?_ ht hu htag
  intro t offset start c h hc hutf8
  exact congrArg (ModifiedUtf8.decode <$> ·) (h.textBytes hc hutf8)

theorem reference_congr (ht : t.Holds offset cs) (hu : u.Holds offset' cs)
    (htag : t.tag? index = some tag) (hlength : tag.payloadLength? = some 2) :
    ∃ target, t.reference index = .ok target ∧ u.reference index = .ok target :=
  read_congr (·.reference index) _
    (fun _ _ _ _ h hc hctag => (h.reference hc (hctag ▸ hlength)).1) ht hu htag

theorem references_congr (ht : t.Holds offset cs) (hu : u.Holds offset' cs)
    (htag : t.tag? index = some tag) (hlength : tag.payloadLength? = some 4) :
    ∃ both, t.references index = .ok both ∧ u.references index = .ok both :=
  read_congr (·.references index) _
    (fun _ _ _ _ h hc hctag => h.references hc (hctag ▸ hlength)) ht hu htag

theorem handle_congr (ht : t.Holds offset cs) (hu : u.Holds offset' cs)
    (htag : t.tag? index = some tag) (hlength : tag.payloadLength? = some 3) :
    ∃ handle, t.handle index = .ok handle ∧ u.handle index = .ok handle :=
  read_congr (·.handle index) _
    (fun _ _ _ _ h hc hctag => (h.handle hc (hctag ▸ hlength)).1) ht hu htag

theorem word_congr (ht : t.Holds offset cs) (hu : u.Holds offset' cs)
    (htag : t.tag? index = some tag) (hlength : tag.payloadLength? = some 4) :
    ∃ bits, t.word index = .ok bits ∧ u.word index = .ok bits :=
  read_congr (·.word index) _
    (fun _ _ _ _ h hc hctag => (h.word hc (hctag ▸ hlength)).1) ht hu htag

theorem wide_congr (ht : t.Holds offset cs) (hu : u.Holds offset' cs)
    (htag : t.tag? index = some tag) (hlength : tag.payloadLength? = some 8) :
    ∃ bits, t.wide index = .ok bits ∧ u.wide index = .ok bits :=
  read_congr (·.wide index) _
    (fun _ _ _ _ h hc hctag => (h.wide hc (hctag ▸ hlength)).1) ht hu htag

theorem expect_congr (ht : t.Holds offset cs) (hu : u.Holds offset' cs) (index : UInt16)
    (tag : Tag) : t.expect index tag = u.expect index tag := by
  unfold expect
  rw [ht.tag?_congr hu]

theorem className_congr (ht : t.Holds offset cs) (hu : u.Holds offset' cs) (index : UInt16) :
    t.className index = u.className index := by
  unfold className
  rw [ht.expect_congr hu]
  by_cases hclass : t.tag? index = some .classInfo
  swap
  · rw [ht.tag?_congr hu] at hclass
    rw [expect_of_ne hclass, except_error_bind, except_error_bind]
  obtain ⟨target, htarget, hutarget⟩ := ht.reference_congr hu hclass rfl
  unfold expectText
  rw [htarget, hutarget, except_ok_bind, except_ok_bind, ht.expect_congr hu]
  by_cases htext : t.tag? target = some .utf8
  · obtain ⟨text, hte, hue⟩ := ht.text_congr hu htext
    rw [hte, hue]
  · rw [ht.tag?_congr hu] at htext
    rw [expect_of_ne htext, except_error_bind, except_error_bind]

end ConstantTable.Holds

/-- The pool and the table tell the same of every index, and a search in the table finds what the
pool would answer without a new entry. -/
structure ConstantPool.AgreesWith (p : ConstantPool) (t : ConstantTable) : Prop where
  count : t.count = p.count
  tags : ∀ i, t.tag? i = p.table.tag? i
  text : ∀ i, t.tag? i = some .utf8 → ∃ text, t.text i = .ok text ∧ p.table.text i = .ok text
  int : ∀ i, t.tag? i = some .integer → ∃ value, t.int i = .ok value ∧ p.table.int i = .ok value
  float : ∀ i, t.tag? i = some .float → ∃ bits, t.word i = .ok bits ∧ p.table.word i = .ok bits
  long : ∀ i, t.tag? i = some .long → ∃ value, t.long i = .ok value ∧ p.table.long i = .ok value
  double : ∀ i, t.tag? i = some .double → ∃ bits, t.wide i = .ok bits ∧ p.table.wide i = .ok bits
  reference : ∀ i tag, t.tag? i = some tag → tag.payloadLength? = some 2 →
    ∃ target, t.reference i = .ok target ∧ p.table.reference i = .ok target
  references : ∀ i tag, t.tag? i = some tag → tag.payloadLength? = some 4 →
    ∃ both, t.references i = .ok both ∧ p.table.references i = .ok both
  handle : ∀ i, t.tag? i = some .methodHandle →
    ∃ handle, t.handle i = .ok handle ∧ p.table.handle i = .ok handle
  className : ∀ i, t.className i = p.table.className i
  search : ∀ (call : PoolCall) search, call.search? = some search →
    (∀ text ∈ call.texts, (ModifiedUtf8.encode text).size ≤ 65535) →
    ∃ found, search t = .ok found ∧
      (∀ i, found = some i ↔ ∃ p', call.run p = .ok i p' ∧ p'.count = p.count) ∧
      (found = none ↔ p.count < (call.after p).count)

theorem ConstantPool.encodedCount_eq_ok {p : ConstantPool} {count : UInt16}
    (h : p.encodedCount = .ok count) : p.count = count.toNat := by
  unfold encodedCount at h
  split at h
  · rename_i hroom
    rw [← Except.ok.inj h, UInt16.toNat_ofNat_of_lt' hroom]
  · cases h

namespace ConstantPool.Represents

open Constant

variable {p : ConstantPool} {t : ConstantTable} {offset : Nat} {cs : List Constant}

theorem agreesWith (hp : p.Represents cs) (ht : t.Holds offset cs) (hcount : t.count = p.count)
    (hroom : p.count < 65536) : p.AgreesWith t := by
  constructor
  case count => exact hcount
  case tags => exact ht.tag?_congr hp.holds
  case text => exact fun i => ht.text_congr hp.holds
  case int =>
    intro i htag
    obtain ⟨bits, hbits, hbits'⟩ := ht.word_congr hp.holds htag rfl
    exact ⟨bits.toInt32, congrArg (UInt32.toInt32 <$> ·) hbits,
      congrArg (UInt32.toInt32 <$> ·) hbits'⟩
  case float => exact fun i htag => ht.word_congr hp.holds htag rfl
  case long =>
    intro i htag
    obtain ⟨bits, hbits, hbits'⟩ := ht.wide_congr hp.holds htag rfl
    exact ⟨bits.toInt64, congrArg (UInt64.toInt64 <$> ·) hbits,
      congrArg (UInt64.toInt64 <$> ·) hbits'⟩
  case double => exact fun i htag => ht.wide_congr hp.holds htag rfl
  case reference => exact fun i tag => ht.reference_congr hp.holds
  case references => exact fun i tag => ht.references_congr hp.holds
  case handle => exact fun i htag => ht.handle_congr hp.holds htag rfl
  case className => exact ht.className_congr hp.holds
  case search =>
    intro call search hsearch hshort
    obtain ⟨find, hfind, htells⟩ :=
      PoolCall.searches hsearch fun text htext => Nat.lt_succ_of_le (hshort text htext)
    have hcs := htells cs (hp.count ▸ hroom)
    exact ⟨find cs, hfind t offset cs ht (by omega), PoolCall.eq_some_iff hp hcs,
      PoolCall.eq_none_iff hp hcs⟩

theorem fill (hp : p.Represents cs) {count : UInt16} (hcount : p.encodedCount = .ok count) :
    Fill (count.toNat - 1) cs := by
  rw [← encodedCount_eq_ok hcount, hp.count, Nat.add_sub_cancel_left]
  exact fill_slotCount cs

end ConstantPool.Represents

/-! ## Files around a pool -/

/-- What may stand behind a pool: a class header, fields, methods and attributes whose counts and
lengths fit, with anything behind them. -/
def ClassSyntax.IsRest (rest : List UInt8) : Prop :=
  ∃ (s : ClassSyntax) (trailing : List UInt8), s.WellFormed ∧ rest = s.encodeBody ++ trailing

namespace ClassFile

open Constant

variable {p : ConstantPool} {cs : List Constant} {count : UInt16} {version : Version}
  {rest : List UInt8} {bytes : Bytes} {c : ClassFile}

/-- The bytes of a file that starts with the header, the count and the entries of the pool. -/
def AroundPool (p : ConstantPool) (version : Version) (count : UInt16) (rest : List UInt8)
    (bytes : Bytes) : Prop :=
  bytes.toList = bytes32 magic ++ bytes16 version.minor ++ bytes16 version.major ++ bytes16 count ++
    p.entries.toList ++ rest

/-- The pool is read back as it was, because no other constants have its encoding. -/
theorem split_aroundPool {s : ClassSyntax} {trailing : List UInt8} (hp : p.Represents cs)
    (hcount : p.encodedCount = .ok count) (hbytes : AroundPool p version count rest bytes)
    (hs : s.WellFormed) (hsplit : bytes.toList = s.encode ++ trailing) :
    s.count = count ∧ s.constants = cs ∧ rest = s.encodeBody ++ trailing := by
  have hparts : bytes32 magic ++ bytes16 version.minor ++ bytes16 version.major ++ bytes16 count ++
      (encodeAll cs ++ rest) =
      s.encodePreamble ++ (encodeAll s.constants ++ (s.encodeBody ++ trailing)) := by
    unfold AroundPool at hbytes
    rw [← List.append_assoc, ← hp.entries, ← hbytes, hsplit, ClassSyntax.encode_eq,
      List.append_assoc, List.append_assoc]
  obtain ⟨hpreamble, hpool⟩ := List.append_inj hparts (by
    rw [ClassSyntax.length_encodePreamble]
    simp)
  have hsame : s.count = count :=
    (bytes16_injective (List.append_inj_right' hpreamble (by simp))).symm
  obtain ⟨hconstants, hrest⟩ :=
    (hp.fill hcount).encodeAll_append_inj (hsame ▸ hs.constants) hpool
  exact ⟨hsame, hconstants.symm, hrest⟩

theorem parse_aroundPool (hp : p.Represents cs) (hcount : p.encodedCount = .ok count)
    (hbytes : AroundPool p version count rest bytes) :
    (∃ c, ClassFile.parse bytes = .ok c) ↔ ClassSyntax.IsRest rest := by
  constructor
  · rintro ⟨c, hparse⟩
    obtain ⟨s, trailing, hs, hsplit, -⟩ := parse_eq_ok.mp hparse
    exact ⟨s, trailing, hs, (split_aroundPool hp hcount hbytes hs hsplit).2.2⟩
  · rintro ⟨s, trailing, hs, rfl⟩
    let around : ClassSyntax := { s with version, count, constants := cs }
    have haround : around.WellFormed := { hs with constants := hp.fill hcount }
    have hencode : bytes.toList = around.encode ++ trailing := by
      rw [hbytes, ClassSyntax.encode_eq, hp.entries]
      exact (List.append_assoc _ _ _).symm
    exact ⟨_, parse_encode bytes haround hencode⟩

theorem holds_of_aroundPool (hp : p.Represents cs) (hcount : p.encodedCount = .ok count)
    (hbytes : AroundPool p version count rest bytes) (hparse : ClassFile.parse bytes = .ok c) :
    c.pool.Holds 10 cs ∧ c.pool.count = p.count := by
  obtain ⟨s, trailing, hs, hsplit, rfl⟩ := parse_eq_ok.mp hparse
  obtain ⟨rfl, rfl, -⟩ := split_aroundPool hp hcount hbytes hs hsplit
  refine ⟨holds_classFile hs hsplit, ?_⟩
  have hpos := hp.count
  rw [ConstantPool.encodedCount_eq_ok hcount] at hpos ⊢
  rw [count_classFile hs]
  omega

/-- After any run of calls the pool and a reader of a file around its entries agree. The file is
accepted exactly if what stands behind the pool is well-formed. -/
theorem builder_agrees_with_reader (capacity : Nat) (growth : Growth) (calls : List PoolCall)
    (count : UInt16) (version : Version) (rest : List UInt8) (bytes : Bytes)
    (hcount : (PoolCall.runAll calls (.withPolicy capacity growth)).encodedCount = .ok count)
    (hbytes : AroundPool (PoolCall.runAll calls (.withPolicy capacity growth)) version count rest
      bytes) :
    ((∃ c, ClassFile.parse bytes = .ok c) ↔ ClassSyntax.IsRest rest) ∧
    ∀ c, ClassFile.parse bytes = .ok c →
      (PoolCall.runAll calls (.withPolicy capacity growth)).AgreesWith c.pool := by
  obtain ⟨cs, -, hp⟩ := PoolCall.runAll_represents calls (.withPolicy capacity growth)
  refine ⟨parse_aroundPool hp hcount hbytes, fun c hparse => ?_⟩
  obtain ⟨hholds, hsize⟩ := holds_of_aroundPool hp hcount hbytes hparse
  have hroom := count.toNat_lt
  rw [← ConstantPool.encodedCount_eq_ok hcount] at hroom
  exact hp.agreesWith hholds hsize hroom

/-- Two integers that are one constant, and a long between them. -/
def sampleCalls : List PoolCall := [.int 7, .long 9, .int 7]

/-- A class with nothing in it. -/
def bareClass : ClassSyntax where
  version := .v1_8
  count := 1
  constants := []
  flags := ⟨0x21⟩
  thisClass := 0
  superClass := 0
  interfaces := []
  fields := []
  methods := []
  attributes := []

theorem bareClass_wellFormed : bareClass.WellFormed where
  constants := fill_nil.mpr rfl
  interfaces := by decide
  fieldCount := by decide
  fields := by simp [bareClass]
  methodCount := by decide
  methods := by simp [bareClass]
  attributeCount := by decide
  attributes := by simp [bareClass]

theorem sampleCalls_agree : ∃ bytes c,
    AroundPool (PoolCall.runAll sampleCalls .empty) .v1_8 4 bareClass.encodeBody bytes ∧
      ClassFile.parse bytes = .ok c ∧
      (PoolCall.runAll sampleCalls .empty).AgreesWith c.pool := by
  have hcount : (PoolCall.runAll sampleCalls .empty).encodedCount = .ok 4 := by rfl
  have hbytes : AroundPool (PoolCall.runAll sampleCalls .empty) .v1_8 4 bareClass.encodeBody
      (bytes32 magic ++ bytes16 0 ++ bytes16 52 ++ bytes16 4 ++
        (PoolCall.runAll sampleCalls .empty).entries.toList ++ bareClass.encodeBody).toArray := rfl
  obtain ⟨haccepted, hagrees⟩ :=
    builder_agrees_with_reader 200 Growth.pool sampleCalls 4 .v1_8 _ _ hcount hbytes
  obtain ⟨c, hparse⟩ := haccepted.mpr ⟨bareClass, [], bareClass_wellFormed, by simp⟩
  exact ⟨_, c, hbytes, hparse, hagrees c hparse⟩

end ClassFile

end JavaClass
