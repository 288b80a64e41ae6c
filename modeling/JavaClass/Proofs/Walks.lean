import JavaClass.Proofs.Decoding

/-!
# Members and attributes in bytes

The encoding of attributes and members, and the two walks over it. The checked walk passes over
exactly the encoded lists. The walk without checks, let loose on such a list, finds the same
boundaries and gives back the items.
-/

namespace JavaClass

/-! ## Encodings -/

/-- A 16-bit count, then the items. -/
def encodeCounted {α : Type} (encode : α → List UInt8) (items : List α) : List UInt8 :=
  bytes16 (UInt16.ofNat items.length) ++ items.flatMap encode

namespace Attribute

def encode (a : Attribute) : List UInt8 :=
  bytes16 a.name ++ bytes32 (UInt32.ofNat a.info.size) ++ a.info.toList

/-- The length fits its field. -/
def Fits (a : Attribute) : Prop := a.info.size < 2 ^ 32

end Attribute

namespace Member

def encode (m : Member) : List UInt8 :=
  bytes16 m.flags.bits ++ bytes16 m.name ++ bytes16 m.descriptor ++
    encodeCounted Attribute.encode m.attributes

/-- The number of attributes and each of their lengths fit their fields. -/
structure Fits (m : Member) : Prop where
  count : m.attributes.length < 65536
  attributes : ∀ a ∈ m.attributes, a.Fits

end Member

/-! ## The checked walk -/

namespace Decoder

variable {β : Type}

theorem reads_attributeInfo : Reads attributeInfo fun _ _ part =>
    ∃ a : Attribute, a.Fits ∧ part = a.encode := by
  refine ((reads_skip 2).bind fun _ => reads_u32.bind fun length => reads_skip length.toNat).congr ?_
  intro start _ part
  constructor
  · rintro ⟨_, x, _, hx, ⟨length, _, info, rfl, hinfo, rfl⟩, rfl⟩
    refine ⟨⟨UInt16.ofNat (BigEndian.decode x), info.toArray⟩, ?_, ?_⟩
    · show info.toArray.size < 2 ^ 32
      rw [List.size_toArray, hinfo]
      exact length.toNat_lt
    · simp [Attribute.encode, bytes16_ofNat_decode x hx, hinfo]
  · rintro ⟨a, hfits, rfl⟩
    have hlength : (UInt32.ofNat a.info.size).toNat = a.info.size := UInt32.toNat_ofNat_of_lt' hfits
    refine ⟨(), bytes16 a.name, _, length_bytes16 _,
      ⟨UInt32.ofNat a.info.size, _, a.info.toList, rfl, ?_, rfl⟩, ?_⟩
    · rw [Array.length_toList, hlength]
    · simp [Attribute.encode]

theorem reads_skipCounted {step : Decoder Unit} {valid : β → Prop} {encode : β → List UInt8}
    (h : Reads step fun _ _ part => ∃ b, valid b ∧ part = encode b) :
    Reads (skipCounted step) fun _ _ part => ∃ l : List β,
      l.length < 65536 ∧ (∀ b ∈ l, valid b) ∧ part = encodeCounted encode l := by
  refine (reads_u16.bind fun n => reads_times h n.toNat).congr ?_
  intro start _ part
  constructor
  · rintro ⟨n, _, _, rfl, ⟨l, hlen, hvalid, rfl⟩, rfl⟩
    refine ⟨l, hlen ▸ n.toNat_lt, hvalid, ?_⟩
    unfold encodeCounted
    rw [hlen, UInt16.ofNat_toNat]
  · rintro ⟨l, hlen, hvalid, rfl⟩
    refine ⟨UInt16.ofNat l.length, _, _, rfl, ⟨l, ?_, hvalid, rfl⟩, rfl⟩
    rw [UInt16.toNat_ofNat_of_lt' hlen]

theorem reads_memberInfo : Reads memberInfo fun _ _ part =>
    ∃ m : Member, m.Fits ∧ part = m.encode := by
  refine ((reads_skip 6).bind fun _ => reads_skipCounted reads_attributeInfo).congr ?_
  intro start _ part
  constructor
  · rintro ⟨_, x, _, hx, ⟨l, hlen, hfits, rfl⟩, rfl⟩
    -- the six bytes in front are three words
    have hsplit : x = x.take 2 ++ (x.drop 2).take 2 ++ x.drop 4 := by
      rw [List.append_assoc, show x.drop 4 = (x.drop 2).drop 2 by rw [List.drop_drop],
        List.take_append_drop, List.take_append_drop]
    refine ⟨⟨⟨UInt16.ofNat (BigEndian.decode (x.take 2))⟩,
      UInt16.ofNat (BigEndian.decode ((x.drop 2).take 2)),
      UInt16.ofNat (BigEndian.decode (x.drop 4)), l⟩, ⟨hlen, hfits⟩, ?_⟩
    unfold Member.encode
    rw [bytes16_ofNat_decode _ (by simp [hx]), bytes16_ofNat_decode _ (by simp [hx]),
      bytes16_ofNat_decode _ (by simp [hx]), ← hsplit]
  · rintro ⟨m, hfits, rfl⟩
    exact ⟨(), _, _, by simp, ⟨m.attributes, hfits.count, hfits.attributes, rfl⟩, rfl⟩

end Decoder

/-! ## The walk without checks -/

namespace Span

variable {α : Type} {s : Span} {offset : Nat} {part x y : List UInt8}

/-- The part stands in the stretch, `offset` bytes behind its start. -/
def HasAt (s : Span) (offset : Nat) (part : List UInt8) : Prop :=
  offset + part.length ≤ s.size ∧ Bytes.HasAt s.bytes (s.start + offset) part

theorem hasAt_append : s.HasAt offset (x ++ y) ↔ s.HasAt offset x ∧ s.HasAt (offset + x.length) y := by
  unfold HasAt
  rw [Bytes.hasAt_append, List.length_append, Nat.add_assoc s.start]
  constructor
  · rintro ⟨hle, hx, hy⟩
    exact ⟨⟨by omega, hx⟩, by omega, hy⟩
  · rintro ⟨⟨-, hx⟩, hle, hy⟩
    exact ⟨by omega, hx, hy⟩

theorem get16_eq_ok {v : UInt16} (h : s.HasAt offset (bytes16 v)) : s.get16 offset = .ok v := by
  have hle := h.1
  rw [length_bytes16] at hle
  unfold Span.get16
  rw [if_pos hle, Bytes.get16_eq_ok.mpr h.2]

theorem get32_eq_ok {v : UInt32} (h : s.HasAt offset (bytes32 v)) : s.get32 offset = .ok v := by
  have hle := h.1
  rw [length_bytes32] at hle
  unfold Span.get32
  rw [if_pos hle, Bytes.get32_eq_ok.mpr h.2]

/-- The stretch `n` bytes further on, up to the same end. -/
def IsRest (s : Span) (n : Nat) (rest : Span) : Prop :=
  rest.bytes = s.bytes ∧ rest.start = s.start + n ∧ rest.stop = s.stop

theorem IsRest.hasAt {n : Nat} {rest : Span} (h : s.IsRest n rest) (hat : s.HasAt n part) :
    rest.HasAt 0 part := by
  obtain ⟨hbytes, hstart, hstop⟩ := h
  have hle := hat.1
  refine ⟨?_, ?_⟩
  · unfold size at hle ⊢
    omega
  · rw [hbytes, hstart, Nat.add_zero]
    exact hat.2

theorem part_eq_ok (s : Span) (first last : Nat) (hle : first ≤ last) (hlast : last ≤ s.size) :
    ∃ p, s.part first last = .ok p ∧ p.bytes = s.bytes ∧ p.start = s.start + first ∧
      p.stop = s.start + last := by
  have hstop := s.stop_le_size
  have hsize : s.size = s.stop - s.start := rfl
  have hbounds : s.start + first ≤ s.start + last ∧ s.start + last ≤ s.bytes.size := by
    have := s.start_le_stop
    omega
  unfold Span.part
  rw [if_pos hlast, Bytes.span, dif_pos hbounds]
  exact ⟨_, rfl, rfl, rfl, rfl⟩

theorem rest_eq_ok (s : Span) (n : Nat) (h : n ≤ s.size) : ∃ rest, s.part n s.size = .ok rest ∧
    s.IsRest n rest := by
  obtain ⟨rest, hpart, hbytes, hstart, hstop⟩ := part_eq_ok s n s.size h le_rfl
  refine ⟨rest, hpart, hbytes, hstart, ?_⟩
  have := s.start_le_stop
  rw [hstop, size]
  omega

theorem collectInto_eq_ok {next : Span → Except Error (α × Span)} {valid : α → Prop}
    {encode : α → List UInt8}
    (hnext : ∀ s a, valid a → s.HasAt 0 (encode a) →
      ∃ rest, next s = .ok (a, rest) ∧ s.IsRest (encode a).length rest)
    (items : Array α) (l : List α) (hvalid : ∀ a ∈ l, valid a) (h : s.HasAt 0 (l.flatMap encode)) :
    collectInto next items l.length s = .ok (items ++ l.toArray) := by
  induction l generalizing s items with
  | nil => simp [collectInto]
  | cons a l ih =>
    rw [List.flatMap_cons, hasAt_append, Nat.zero_add] at h
    obtain ⟨rest, hok, hrest⟩ := hnext s a (hvalid a (by simp)) h.1
    have hitems := ih (items.push a) (fun b hb => hvalid b (by simp [hb])) (hrest.hasAt h.2)
    simp only [List.length_cons, collectInto, hok]
    show collectInto next (items.push a) l.length rest = _
    rw [hitems]
    simp

theorem collect_eq_ok {next : Span → Except Error (α × Span)} {valid : α → Prop}
    {encode : α → List UInt8}
    (hnext : ∀ s a, valid a → s.HasAt 0 (encode a) →
      ∃ rest, next s = .ok (a, rest) ∧ s.IsRest (encode a).length rest)
    (l : List α) (hvalid : ∀ a ∈ l, valid a) (h : s.HasAt 0 (l.flatMap encode)) :
    s.collect next l.length = .ok l := by
  unfold collect
  rw [collectInto_eq_ok hnext #[] l hvalid h]
  simp [Functor.map, Except.map]

theorem nextAttribute_eq_ok (s : Span) (a : Attribute) (hfits : a.Fits) (h : s.HasAt 0 a.encode) :
    ∃ rest, s.nextAttribute = .ok (a, rest) ∧ s.IsRest a.encode.length rest := by
  have hsize : a.encode.length = 6 + a.info.size := by simp [Attribute.encode]; omega
  have hle := h.1
  unfold Attribute.encode at h
  rw [hasAt_append, hasAt_append] at h
  obtain ⟨⟨hname, hlength⟩, hinfo⟩ := h
  simp only [length_bytes16, length_bytes32, List.length_append, Nat.zero_add] at hlength hinfo
  have hstop : (UInt32.ofNat a.info.size).toNat = a.info.size := UInt32.toNat_ofNat_of_lt' hfits
  obtain ⟨info, hpart, hbytes, hstart, hend⟩ :=
    part_eq_ok s 6 (6 + a.info.size) (by omega) (by omega)
  obtain ⟨rest, hrest, hisRest⟩ := rest_eq_ok s (6 + a.info.size) (by omega)
  have hcontent : info.content = a.info := by
    have hextract := hinfo.2.extract_eq
    rw [Array.length_toList, Array.toArray_toList, Nat.add_assoc] at hextract
    unfold content
    rw [hbytes, hstart, hend, hextract]
  refine ⟨rest, ?_, hsize ▸ hisRest⟩
  simp only [nextAttribute, get16_eq_ok hname, get32_eq_ok hlength, except_ok_bind, hstop, hpart,
    hrest, hcontent]
  rfl

theorem attributes_eq_ok {l : List Attribute} (hlen : l.length < 65536) (hfits : ∀ a ∈ l, a.Fits)
    (h : s.HasAt 0 (l.flatMap Attribute.encode)) : s.attributes (UInt16.ofNat l.length) = .ok l := by
  unfold Span.attributes
  rw [UInt16.toNat_ofNat_of_lt' hlen]
  exact collect_eq_ok nextAttribute_eq_ok l hfits h

theorem attributesEnd_eq_ok (l : List Attribute) (hfits : ∀ a ∈ l, a.Fits)
    (h : s.HasAt offset (l.flatMap Attribute.encode)) :
    s.attributesEnd offset l.length = .ok (offset + (l.flatMap Attribute.encode).length) := by
  induction l generalizing offset with
  | nil => rfl
  | cons a l ih =>
    have hsize : a.encode.length = 6 + a.info.size := by simp [Attribute.encode]; omega
    have hstop : (UInt32.ofNat a.info.size).toNat = a.info.size :=
      UInt32.toNat_ofNat_of_lt' (hfits a (by simp))
    rw [List.flatMap_cons, hasAt_append] at h
    obtain ⟨ha, hl⟩ := h
    have hrest := ih (fun b hb => hfits b (by simp [hb])) hl
    unfold Attribute.encode at ha
    rw [hasAt_append, hasAt_append, length_bytes16] at ha
    simp only [List.length_cons, attributesEnd, get32_eq_ok ha.1.2, except_ok_bind, hstop,
      ← hsize, hrest, List.flatMap_cons, List.length_append, Nat.add_assoc]

theorem nextMember_eq_ok (s : Span) (m : Member) (hfits : m.Fits) (h : s.HasAt 0 m.encode) :
    ∃ rest, s.nextMember = .ok (m, rest) ∧ s.IsRest m.encode.length rest := by
  have hsize : m.encode.length = 8 + (m.attributes.flatMap Attribute.encode).length := by
    simp [Member.encode, encodeCounted]
    omega
  have hle := h.1
  unfold Member.encode at h
  rw [encodeCounted, hasAt_append, hasAt_append, hasAt_append, hasAt_append] at h
  obtain ⟨⟨⟨hflags, hname⟩, hdescriptor⟩, hcount, hattributes⟩ := h
  simp only [length_bytes16, List.length_append, Nat.zero_add, Nat.reduceAdd]
    at hname hdescriptor hcount hattributes
  have hcount16 : (UInt16.ofNat m.attributes.length).toNat = m.attributes.length :=
    UInt16.toNat_ofNat_of_lt' hfits.count
  have hend := attributesEnd_eq_ok m.attributes hfits.attributes hattributes
  obtain ⟨inner, hpart, hbytes, hstart, hstop⟩ := part_eq_ok s 8
    (8 + (m.attributes.flatMap Attribute.encode).length) (by omega) (by omega)
  obtain ⟨rest, hrest, hisRest⟩ := rest_eq_ok s
    (8 + (m.attributes.flatMap Attribute.encode).length) (by omega)
  have hinner : inner.HasAt 0 (m.attributes.flatMap Attribute.encode) := by
    refine ⟨by unfold size; omega, ?_⟩
    rw [hbytes, hstart, Nat.add_zero]
    exact hattributes.2
  have hlist := attributes_eq_ok hfits.count hfits.attributes hinner
  refine ⟨rest, ?_, hsize ▸ hisRest⟩
  simp only [nextMember, get16_eq_ok hflags, get16_eq_ok hname, get16_eq_ok hdescriptor,
    get16_eq_ok hcount, except_ok_bind, hcount16, hend, hpart, hlist, hrest]
  rfl

theorem members_eq_ok {l : List Member} (hlen : l.length < 65536) (hfits : ∀ m ∈ l, m.Fits)
    (h : s.HasAt 0 (l.flatMap Member.encode)) : s.members (UInt16.ofNat l.length) = .ok l := by
  unfold Span.members
  rw [UInt16.toNat_ofNat_of_lt' hlen]
  exact collect_eq_ok nextMember_eq_ok l hfits h

end Span

namespace Bytes

variable {bytes : Bytes} {start : Nat}

theorem span_eq_ok (bytes : Bytes) (start stop : Nat) (hle : start ≤ stop) (hstop : stop ≤ bytes.size) :
    ∃ s, bytes.span start stop = .ok s ∧ s.bytes = bytes ∧ s.start = start ∧ s.stop = stop := by
  unfold Bytes.span
  rw [dif_pos ⟨hle, hstop⟩]
  exact ⟨_, rfl, rfl, rfl, rfl⟩

theorem span_hasAt {α : Type} {encode : α → List UInt8} {l : List α} {stop : Nat}
    (h : HasAt bytes start (encodeCounted encode l))
    (hle : start + (encodeCounted encode l).length ≤ stop) (hstop : stop ≤ bytes.size) :
    ∃ s, bytes.span (start + 2) stop = .ok s ∧ s.HasAt 0 (l.flatMap encode) := by
  rw [encodeCounted, List.length_append, length_bytes16] at hle
  rw [encodeCounted, hasAt_append, length_bytes16] at h
  obtain ⟨s, hs, hbytes, hstart, hend⟩ :=
    span_eq_ok bytes (start + 2) stop (by omega) hstop
  refine ⟨s, hs, by unfold Span.size; omega, ?_⟩
  rw [hbytes, hstart]
  exact h.2

theorem count_eq_ok {α : Type} {encode : α → List UInt8} {l : List α}
    (h : HasAt bytes start (encodeCounted encode l)) :
    bytes.get16 start = .ok (UInt16.ofNat l.length) := by
  rw [encodeCounted, hasAt_append] at h
  exact get16_eq_ok.mpr h.1

theorem members_eq_ok {l : List Member} (hlen : l.length < 65536) (hfits : ∀ m ∈ l, m.Fits)
    (h : HasAt bytes start (encodeCounted Member.encode l)) :
    bytes.members start (start + (encodeCounted Member.encode l).length) = .ok l := by
  obtain ⟨s, hs, hat⟩ := span_hasAt h le_rfl h.le
  simp only [Bytes.members, count_eq_ok h, hs, except_ok_bind]
  exact Span.members_eq_ok hlen hfits hat

theorem attributes_eq_ok {l : List Attribute} (hlen : l.length < 65536) (hfits : ∀ a ∈ l, a.Fits)
    (h : HasAt bytes start (encodeCounted Attribute.encode l)) : bytes.attributes start = .ok l := by
  obtain ⟨s, hs, hat⟩ := span_hasAt h h.le le_rfl
  simp only [Bytes.attributes, count_eq_ok h, hs, except_ok_bind]
  exact Span.attributes_eq_ok hlen hfits hat

theorem length_flatMap_bytes16 (l : List UInt16) : (l.flatMap bytes16).length = 2 * l.length := by
  induction l with
  | nil => rfl
  | cons v l ih =>
    rw [List.flatMap_cons, List.length_append, ih, length_bytes16, List.length_cons]
    omega

theorem words_eq_ok {l : List UInt16} (h : HasAt bytes start (l.flatMap bytes16)) :
    bytes.words start l.length = .ok l := by
  induction l using List.reverseRecOn with
  | nil => rfl
  | append_singleton l v ih =>
    rw [List.flatMap_append, hasAt_append, List.flatMap_singleton] at h
    have hfront := ih h.1
    have hlast := get16_eq_ok.mpr h.2
    rw [length_flatMap_bytes16] at hlast
    rw [words] at hfront ⊢
    rw [List.length_append, List.length_singleton, List.range_succ, List.mapM_append, hfront]
    simp [hlast]

end Bytes
end JavaClass
