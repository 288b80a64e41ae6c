import JavaClass.Proofs.Legality

/-!
# Pools made from texts and numbers

Calls that take no index intern a constant only after the constants that it refers to. However such
calls fail in between, every reference leads back to a constant of the right tag, and so the pool is
legal.
-/

namespace JavaClass

/-! ## References to earlier constants -/

theorem Payload.encode_references (first second : UInt16) :
    (references first second).encode = bytes16 first ++ bytes16 second := by
  have hfirst := first.toNat_lt
  have hsecond := second.toNat_lt
  have hword : (first.toUInt32 <<< 16 ||| second.toUInt32).toNat =
      BigEndian.decode (bytes16 first ++ bytes16 second) :=
    calc (first.toUInt32 <<< 16 ||| second.toUInt32).toNat
      _ = (first.toNat <<< 16) % 2 ^ 32 ||| second.toNat := by
        rw [UInt32.toNat_or, UInt32.toNat_shiftLeft]
        rfl
      _ = first.toNat * 65536 + second.toNat := by
        rw [Nat.mod_eq_of_lt (by rw [Nat.shiftLeft_eq]; omega),
          ← Nat.shiftLeft_add_eq_or_of_lt hsecond, Nat.shiftLeft_eq]
      _ = BigEndian.decode (bytes16 first ++ bytes16 second) := by
        rw [BigEndian.decode_append, length_bytes16, bytes16, bytes16, BigEndian.decode_encode,
          BigEndian.decode_encode]
        omega
  have hlength : (bytes16 first ++ bytes16 second).length = 4 := by simp
  show BigEndian.encode 4 _ = _
  rw [hword, ← hlength, BigEndian.encode_decode]

namespace Constant

open Validity

variable {cs ds : List Constant} {c : Constant} {index : UInt16} {tag : Tag} {allowed : Tag → Prop}

/-- The index is that of a constant of the list with the tag. -/
def Leads (cs : List Constant) (index : UInt16) (tag : Tag) : Prop :=
  ∃ c ∈ cs, c.tag = tag ∧ index = UInt16.ofNat (indexOf c cs)

theorem Leads.mono (h : Leads cs index tag) (hextends : cs <+: ds) : Leads ds index tag := by
  obtain ⟨c, hmem, htag, rfl⟩ := h
  obtain ⟨more, rfl⟩ := hextends
  exact ⟨c, List.mem_append_left more hmem, htag, by rw [indexOf_append hmem]⟩

/-- The tag is allowed, and the references lead into the list. -/
structure LinksInto (allowed : Tag → Prop) (cs : List Constant) (c : Constant) : Prop where
  tag : allowed c.tag
  links : ∀ link ∈ links c, Leads cs link.1 link.2

/-- The references of every constant lead to constants before it. -/
inductive Linked (allowed : Tag → Prop) : List Constant → Prop
  | nil : Linked allowed []
  | append {cs : List Constant} {c : Constant} (h : Linked allowed cs)
    (hc : LinksInto allowed cs c) : Linked allowed (cs ++ [c])

theorem Linked.linksInto {before after : List Constant}
    (h : Linked allowed (before ++ c :: after)) : LinksInto allowed before c := by
  induction after using List.reverseRecOn with
  | nil =>
    generalize hall : before ++ [c] = all at h
    cases h with
    | nil => simp at hall
    | append h hc =>
      obtain ⟨rfl, hlast⟩ := List.append_inj' hall rfl
      obtain rfl := List.singleton_inj.mp hlast
      exact hc
  | append_singleton after d ih =>
    apply ih
    generalize hall : before ++ c :: (after ++ [d]) = all at h
    cases h with
    | nil => simp at hall
    | append h hc =>
      rw [← List.cons_append, ← List.append_assoc] at hall
      obtain ⟨rfl, -⟩ := List.append_inj' hall rfl
      exact h

/-! ## Steps -/

/-- The step keeps the list linked, whether it succeeds or not, and answers the index of a constant
with the tag. -/
structure LinksFrom (allowed : Tag → Prop) (step : EStateM Error (List Constant) UInt16) (tag : Tag)
    (cs : List Constant) : Prop where
  ok : ∀ index ds, step cs = .ok index ds → Linked allowed ds ∧ cs <+: ds ∧ Leads ds index tag
  error : ∀ e ds, step cs = .error e ds → Linked allowed ds

variable {step : EStateM Error (List Constant) UInt16}

theorem linksFrom_ok (hrun : step cs = .ok index ds) (h : Linked allowed ds) (hextends : cs <+: ds)
    (hleads : Leads ds index tag) : LinksFrom allowed step tag cs := by
  constructor
  · intro index' ds' hok
    rw [hrun] at hok
    cases hok
    exact ⟨h, hextends, hleads⟩
  · intro e ds' herror
    rw [hrun] at herror
    cases herror

theorem linksFrom_error {e : Error} (hrun : step cs = .error e ds) (h : Linked allowed ds) :
    LinksFrom allowed step tag cs := by
  constructor
  · intro index ds' hok
    rw [hrun] at hok
    cases hok
  · intro e' ds' herror
    rw [hrun] at herror
    cases herror
    exact h

theorem LinksFrom.bind {next : UInt16 → EStateM Error (List Constant) UInt16} {last : Tag}
    (h : LinksFrom allowed step tag cs)
    (hnext : ∀ index ds, Linked allowed ds → cs <+: ds → Leads ds index tag →
      LinksFrom allowed (next index) last ds) :
    LinksFrom allowed (step >>= next) last cs := by
  cases hstep : step cs with
  | error e ds => exact linksFrom_error (bind_apply_error hstep) (h.error e ds hstep)
  | ok index ds =>
    obtain ⟨hlinked, hextends, hleads⟩ := h.ok index ds hstep
    have hlast := hnext index ds hlinked hextends hleads
    have hbind : (step >>= next) cs = next index ds := bind_apply_ok hstep
    constructor
    · intro answer es hok
      obtain ⟨hlinked', hextends', hleads'⟩ := hlast.ok answer es (hbind ▸ hok)
      exact ⟨hlinked', hextends.trans hextends', hleads'⟩
    · exact hbind ▸ hlast.error

theorem linksFrom_intern (h : Linked allowed cs) (hc : LinksInto allowed cs c) :
    LinksFrom allowed (intern c) c.tag cs := by
  have hleads {index : UInt16} {ds : List Constant} (hrun : intern c cs = .ok index ds) :
      Leads ds index c.tag := by
    obtain ⟨-, hmem, hindex⟩ := intern_eq_ok hrun
    exact ⟨c, hmem, rfl, hindex⟩
  by_cases hmem : c ∈ cs
  · have hrun := intern_of_mem hmem
    exact linksFrom_ok hrun h List.prefix_rfl (hleads hrun)
  by_cases hroom : 1 + slotCount cs < 65536
  · have hrun := intern_of_notMem hmem hroom
    exact linksFrom_ok hrun (h.append hc) (List.prefix_append cs [c]) (hleads hrun)
  · exact linksFrom_error (intern_of_full hmem hroom) h

theorem LinksFrom.left (h : LinksFrom allowed step tag cs) : Linked allowed (left step cs) := by
  unfold Constant.left
  cases hrun : step cs with
  | ok index ds => exact (h.ok index ds hrun).1
  | error e ds => exact h.error e ds hrun

theorem linksInto_of_nil (htag : allowed c.tag) (h : links c = []) : LinksInto allowed cs c :=
  ⟨htag, by simp [h]⟩

theorem links_reference (suits : (Payload.reference index).Suits tag) :
    links (ofPayload tag (.reference index) suits) = [(index, .utf8)] := by
  have hlength : tag.payloadLength? = some 2 := suits
  cases tag with
  | classInfo | string | methodType | moduleInfo | packageInfo =>
    simp [links, ofPayload, Payload.encode, ofNat_decode_bytes16]
  | _ => cases hlength

theorem ofNat_decode_references (first second : UInt16) :
    UInt16.ofNat (BigEndian.decode ((Payload.references first second).encode.take 2)) = first ∧
      UInt16.ofNat (BigEndian.decode ((Payload.references first second).encode.drop 2)) =
        second := by
  rw [Payload.encode_references, List.take_left' (length_bytes16 first),
    List.drop_left' (length_bytes16 first)]
  exact ⟨ofNat_decode_bytes16 first, ofNat_decode_bytes16 second⟩

theorem linksFrom_internText (h : Linked allowed cs) (hutf8 : allowed .utf8) (text : Bytes) :
    LinksFrom allowed (internText text) .utf8 cs := by
  unfold internText
  split
  · exact linksFrom_intern h (linksInto_of_nil hutf8 rfl)
  · exact linksFrom_error rfl h

theorem linksFrom_internTextReference (h : Linked allowed cs) (hutf8 : allowed .utf8)
    (suits : tag.payloadLength? = some 2) (htag : allowed tag) (value : String) :
    LinksFrom allowed (internTextReference tag suits value) tag cs := by
  refine (linksFrom_internText h hutf8 _).bind fun index ds hds _ hindex => ?_
  refine linksFrom_intern hds ⟨htag, ?_⟩
  rw [links_reference]
  simpa using hindex

theorem linksFrom_internNameAndType (h : Linked allowed cs) (hutf8 : allowed .utf8)
    (htag : allowed .nameAndType) (name descriptor : String) :
    LinksFrom allowed (internNameAndType name descriptor) .nameAndType cs := by
  refine (linksFrom_internText h hutf8 _).bind fun first ds hds _ hfirst => ?_
  refine (linksFrom_internText hds hutf8 _).bind fun second es hes hextends hsecond => ?_
  refine linksFrom_intern hes ⟨htag, ?_⟩
  obtain ⟨hname, hdescriptor⟩ := ofNat_decode_references first second
  have hlinks : links (ofPayload .nameAndType (.references first second)
      (Payload.suits_references rfl first second)) = [(first, .utf8), (second, .utf8)] := by
    simp only [links, ofPayload, hname, hdescriptor]
  rw [hlinks]
  simpa using ⟨hfirst.mono hextends, hsecond⟩

theorem linksFrom_internMemberRef (h : Linked allowed cs) (hutf8 : allowed .utf8)
    (hclass : allowed .classInfo) (hnameAndType : allowed .nameAndType)
    (hmember : tag = .fieldRef ∨ tag = .methodRef ∨ tag = .interfaceMethodRef)
    (suits : tag.payloadLength? = some 4) (htag : allowed tag) (owner name descriptor : String) :
    LinksFrom allowed (internMemberRef tag suits owner name descriptor) tag cs := by
  refine (linksFrom_internTextReference h hutf8 rfl hclass owner).bind
    fun first ds hds _ hfirst => ?_
  refine (linksFrom_internNameAndType hds hutf8 hnameAndType name descriptor).bind
    fun second es hes hextends hsecond => ?_
  refine linksFrom_intern hes ⟨htag, ?_⟩
  obtain ⟨howner, hrest⟩ := ofNat_decode_references first second
  have hlinks : links (ofPayload tag (.references first second)
      (Payload.suits_references suits first second)) =
        [(first, .classInfo), (second, .nameAndType)] := by
    rcases hmember with rfl | rfl | rfl <;> simp only [links, ofPayload, howner, hrest]
  rw [hlinks]
  simpa using ⟨hfirst.mono hextends, hsecond⟩

end Constant

/-! ## Calls -/

namespace PoolCall

open Constant

/-- The call takes texts and numbers only: no index, and no text that is encoded already. -/
def ByText : PoolCall → Prop
  | text _ | int _ | float _ | long _ | double _ | classInfo _ | string _ | methodType _
  | nameAndType .. | fieldRef .. | methodRef .. | interfaceMethodRef .. | attributeName _ => True
  | encodedText _ | word .. | wide .. | reference .. | references .. | handle .. | memberRef .. =>
    False

/-- The tags of the constants that the call interns. -/
def tags : PoolCall → List Tag
  | text _ | encodedText _ | attributeName _ => [.utf8]
  | word tag .. | wide tag .. | reference tag .. | references tag .. => [tag]
  | handle .. => [.methodHandle]
  | int _ => [.integer]
  | float _ => [.float]
  | long _ => [.long]
  | double _ => [.double]
  | classInfo _ => [.utf8, .classInfo]
  | string _ => [.utf8, .string]
  | methodType _ => [.utf8, .methodType]
  | nameAndType .. => [.utf8, .nameAndType]
  | memberRef tag .. => [.utf8, .classInfo, .nameAndType, tag]
  | fieldRef .. => [.utf8, .classInfo, .nameAndType, .fieldRef]
  | methodRef .. => [.utf8, .classInfo, .nameAndType, .methodRef]
  | interfaceMethodRef .. => [.utf8, .classInfo, .nameAndType, .interfaceMethodRef]

variable {call : PoolCall} {calls : List PoolCall} {cs : List Constant} {allowed : Tag → Prop}
  {p : ConstantPool}

theorem exists_linksFrom (hcall : call.ByText) (hallowed : ∀ tag ∈ call.tags, allowed tag)
    (h : Linked allowed cs) : ∃ tag, LinksFrom allowed call.spec tag cs := by
  cases call with
  | encodedText | word | wide | reference | references | handle | memberRef => exact hcall.elim
  | text | attributeName =>
    exact ⟨_, linksFrom_internText h (hallowed _ (by simp [tags])) _⟩
  | int | float | long | double =>
    exact ⟨_, linksFrom_intern h (linksInto_of_nil (hallowed _ (by simp [tags, ofPayload])) rfl)⟩
  | classInfo | string | methodType =>
    exact ⟨_, linksFrom_internTextReference h (hallowed _ (by simp [tags])) rfl
      (hallowed _ (by simp [tags])) _⟩
  | nameAndType =>
    exact ⟨_, linksFrom_internNameAndType h (hallowed _ (by simp [tags]))
      (hallowed _ (by simp [tags])) _ _⟩
  | fieldRef | methodRef | interfaceMethodRef =>
    exact ⟨_, linksFrom_internMemberRef h (hallowed _ (by simp [tags]))
      (hallowed _ (by simp [tags])) (hallowed _ (by simp [tags])) (by simp) rfl
      (hallowed _ (by simp [tags])) _ _ _⟩

theorem runAll_linked (allowed : Tag → Prop)
    (hcalls : ∀ call ∈ calls, call.ByText ∧ ∀ tag ∈ call.tags, allowed tag)
    (hp : p.Represents cs) (h : Linked allowed cs) :
    ∃ ds, (runAll calls p).Represents ds ∧ Linked allowed ds := by
  induction calls generalizing p cs with
  | nil => exact ⟨cs, hp, h⟩
  | cons call calls ih =>
    obtain ⟨⟨hcall, hallowed⟩, hrest⟩ := List.forall_mem_cons.mp hcalls
    obtain ⟨tag, hstep⟩ := exists_linksFrom hcall hallowed h
    exact ih hrest (call.after_represents_left hp) hstep.left

end PoolCall

namespace ConstantPool.Represents

open Constant Validity

variable {p : ConstantPool} {cs : List Constant} {allowed : Tag → Prop} {index : UInt16} {tag : Tag}

/-- In a linked pool every reference leads to a smaller index, and to the tag that it needs there. -/
theorem links_back (hp : p.Represents cs) (h : Linked allowed cs)
    (htag : p.table.tag? index = some tag) :
    allowed tag ∧ ∃ links, needs p.table index tag = .ok links ∧
      ∀ link ∈ links, link.1 < index ∧ p.table.tag? link.1 = some link.2 := by
  obtain ⟨start, c, hc, rfl⟩ := hp.holds.exists_at? htag
  obtain ⟨before, after, rfl, hindex, -⟩ := at?_eq_some.mp hc
  have hlinks := h.linksInto
  refine ⟨hlinks.tag, links c, needs_eq_ok hp.holds hc, fun link hlink => ?_⟩
  obtain ⟨d, hmem, hdtag, hd⟩ := hlinks.links link hlink
  obtain ⟨place, hat⟩ := at?_indexOf 0 hmem
  have hplace : link.1.toNat = indexOf d before := by
    have happend : indexOf d (before ++ c :: after) = indexOf d before := indexOf_append hmem
    rw [hd, UInt16.toNat_ofNat_of_lt']
    rw [← happend]
    exact hp.indexed d (List.mem_append_left _ hmem)
  rw [← hplace] at hat
  constructor
  · rw [UInt16.lt_iff_toNat_lt, hindex]
    exact lt_of_at? hat
  · rw [hp.holds.tag?, at?_append_of_eq_some _ hat]
    exact congrArg some hdtag

end ConstantPool.Represents

namespace PoolCall

open Validity

variable {call : PoolCall} {calls : List PoolCall} {tag : Tag}

theorem tags_of_byText (hcall : call.ByText) : ∀ tag ∈ call.tags,
    tag ≠ .methodHandle ∧ tag ≠ .moduleInfo ∧ tag ≠ .packageInfo ∧
      (firstMajor tag = 0 ∨ tag = .methodType) := by
  cases call with
  | encodedText | word | wide | reference | references | handle | memberRef => exact hcall.elim
  | _ =>
    dsimp only [tags]
    decide

theorem eq_methodType_of_mem_tags (hcall : call.ByText) (htag : .methodType ∈ call.tags) :
    ∃ descriptor, call = .methodType descriptor := by
  cases call with
  | methodType descriptor => exact ⟨descriptor, rfl⟩
  | encodedText | word | wide | reference | references | handle | memberRef => exact hcall.elim
  | _ => simp [tags] at htag

theorem lawful_of_links {t : ConstantTable} {version : Version}
    (hcalls : ∀ call ∈ calls, call.ByText)
    (hlinks : ∀ index tag, t.tag? index = some tag → (∃ call ∈ calls, tag ∈ call.tags) ∧
      ∃ links, needs t index tag = .ok links ∧
        ∀ link ∈ links, link.1 < index ∧ t.tag? link.1 = some link.2)
    (hversion : Version.v1_7 ≤ version ∨ ∀ descriptor, .methodType descriptor ∉ calls) :
    Lawful t version false := by
  intro index tag htag
  obtain ⟨⟨call, hmem, hmade⟩, links, hneeds, hall⟩ := hlinks index tag htag
  obtain ⟨hhandle, hmodule, hpackage, hfirst⟩ := tags_of_byText (hcalls call hmem) tag hmade
  refine ⟨?_, ?_, ⟨links, hneeds, fun link hlink => (hall link hlink).2⟩, fun h => absurd h hhandle⟩
  · rcases hfirst with hzero | rfl
    · simp [hzero]
    · obtain ⟨descriptor, rfl⟩ := eq_methodType_of_mem_tags (hcalls call hmem) hmade
      rcases hversion with hversion | hnone
      · exact major_le_of_le hversion
      · exact absurd hmem (hnone descriptor)
  · rintro (h | h)
    · exact absurd h hmodule
    · exact absurd h hpackage

/-- However calls fail that take texts and numbers only, they leave a pool in which every reference
leads to a smaller index and to the tag that the check asks for. Only method types are not known to
all versions. -/
theorem pool_of_texts_is_legal (capacity : Nat) (growth : Growth) (calls : List PoolCall)
    (hcalls : ∀ call ∈ calls, call.ByText) :
    let t := (runAll calls (.withPolicy capacity growth)).table
    (∀ index tag, t.tag? index = some tag → (∃ call ∈ calls, tag ∈ call.tags) ∧
      ∃ links, needs t index tag = .ok links ∧
        ∀ link ∈ links, link.1 < index ∧ t.tag? link.1 = some link.2) ∧
    (∀ version, Version.v1_7 ≤ version → checkPool t version false = .ok ()) ∧
    ((∀ descriptor, .methodType descriptor ∉ calls) →
      ∀ version, checkPool t version false = .ok ()) := by
  intro t
  obtain ⟨cs, hp, hlinked⟩ := runAll_linked (fun tag => ∃ call ∈ calls, tag ∈ call.tags)
    (fun call hmem => ⟨hcalls call hmem, fun tag htag => ⟨call, hmem, htag⟩⟩)
    (.withPolicy capacity growth) .nil
  have hlinks (index : UInt16) (tag : Tag) (htag : t.tag? index = some tag) :=
    hp.links_back hlinked htag
  exact ⟨hlinks,
    fun version hversion =>
      checkPool_of_lawful hp.holds (lawful_of_links hcalls hlinks (.inl hversion)),
    fun hnone version => checkPool_of_lawful hp.holds (lawful_of_links hcalls hlinks (.inr hnone))⟩

/-- A reference to a field, which brings its class and its texts, and a method type. -/
def sampleTexts : List PoolCall := [.fieldRef "a/B" "x" "I", .methodType "()V", .long 1]

theorem sampleTexts_legal :
    checkPool (runAll sampleTexts .empty).table .v1_7 false = .ok () :=
  (pool_of_texts_is_legal 200 Growth.pool sampleTexts (by simp [sampleTexts, ByText])).2.1 .v1_7
    (by decide)

end PoolCall

end JavaClass
