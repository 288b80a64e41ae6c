import JavaClass.Proofs.Grammar

/-!
# Cut files

A decoder that succeeds runs out of bytes on every shorter start of what it took. The error tells how
many bytes there are, and asks for some that lie behind these. Being so is kept by putting decoders
one after the other: up to the cut the shorter bytes are read in the same way.
-/

namespace JavaClass

namespace Bytes

variable {bytes : Bytes} {offset k : Nat} {part : List UInt8}

theorem size_front (h : k ≤ bytes.size) : (bytes.extract 0 k).size = k := by
  rw [Array.size_extract, Nat.min_eq_left h, Nat.sub_zero]

theorem toList_front (bytes : Bytes) (k : Nat) : (bytes.extract 0 k).toList = bytes.toList.take k := by
  rw [Array.toList_extract, List.extract_eq_take_drop, Nat.sub_zero, List.drop_zero]

theorem HasAt.front (h : HasAt bytes offset part) (hk : offset + part.length ≤ k) :
    HasAt (bytes.extract 0 k) offset part := by
  obtain ⟨before, after, hsplit, rfl⟩ := hasAt_iff_append.mp h
  have hcut : (before ++ part).length ≤ k := by rwa [List.length_append]
  refine hasAt_iff_append.mpr ⟨before, after.take (k - (before ++ part).length), ?_, rfl⟩
  rw [toList_front, hsplit, List.take_append, List.take_of_length_le hcut]

end Bytes

namespace Decoder

variable {α β : Type} {d : Decoder α} {f : α → Decoder β} {spells : Nat → α → List UInt8 → Prop}
  {step : Decoder Unit} {skips : Nat → Unit → List UInt8 → Prop} {c : Cursor} {k : Nat}

/-- The decoder fails because it asks for bytes behind the last one. -/
def RunsOut (d : Decoder α) (c : Cursor) : Prop :=
  ∃ offset needed c', d c = .error (.truncated offset needed c.bytes.size) c' ∧
    offset ≤ c.bytes.size ∧ c.bytes.size < offset + needed

/-- Wherever the decoder succeeds, it runs out of bytes if only a shorter start of what it took is
there. -/
def NeedsAll (d : Decoder α) : Prop :=
  ∀ c c' a k, d c = .ok a c' → c'.position ≤ c.bytes.size → c.position ≤ k → k < c'.position →
    RunsOut d ⟨c.bytes.extract 0 k, c.position⟩

/-! ## Putting decoders together -/

theorem RunsOut.bind (h : RunsOut d c) : RunsOut (d >>= f) c := by
  obtain ⟨offset, needed, c', herror, hle, hlt⟩ := h
  exact ⟨offset, needed, c', bind_apply_error herror, hle, hlt⟩

/-- A cut behind what the first decoder took hits the second one, after the first has done the
same. -/
theorem NeedsAll.bind (h : NeedsAll d) (hd : Reads d spells) (hf : ∀ a, NeedsAll (f a)) :
    NeedsAll (d >>= f) := by
  intro c c' b k hrun hle hpos hk
  obtain ⟨a, t, hdc, hfc⟩ := bind_eq_ok.mp hrun
  obtain ⟨part, hpart, hat, rfl⟩ := (hd c t a (by omega)).mp hdc
  by_cases hcut : k < c.position + part.length
  · apply RunsOut.bind
    exact h c _ a k hdc hat.le hpos hcut
  · have hfront := hat.front (not_lt.mp hcut)
    have hsame := (hd ⟨c.bytes.extract 0 k, c.position⟩ _ a hfront.1).mpr ⟨part, hpart, hfront, rfl⟩
    unfold RunsOut
    rw [bind_apply_ok hsame]
    exact hf a _ c' b k hfc hle (not_lt.mp hcut) hk

theorem needsAll_pure (a : α) : NeedsAll (pure a) := by
  intro c c' b k hrun _ hpos hk
  obtain ⟨-, rfl⟩ := pure_eq_ok.mp hrun
  omega

theorem needsAll_throw (e : Error) : NeedsAll (throw e : Decoder α) := by
  rintro c c' a k ⟨⟩

theorem needsAll_position : NeedsAll position := by
  rintro c c' n k ⟨⟩ _ hpos hk
  omega

theorem NeedsAll.followed (h : NeedsAll d)
    (hf : ∀ a t b t', f a t = .ok b t' → t'.position = t.position) : NeedsAll (d >>= f) := by
  intro c c' b k hrun hle hpos hk
  obtain ⟨a, t, hdc, hfc⟩ := bind_eq_ok.mp hrun
  have hstay := hf a t b c' hfc
  apply RunsOut.bind
  exact h c t a k hdc (by omega) hpos (by omega)

theorem NeedsAll.times (h : NeedsAll step) (hstep : Reads step skips) (n : Nat) :
    NeedsAll (times step n) := by
  induction n with
  | zero => exact needsAll_pure ()
  | succ n ih => exact h.bind hstep fun _ => ih

theorem NeedsAll.manyInto (h : NeedsAll d) (hd : Reads d spells) (items : Array α) (n : Nat) :
    NeedsAll (manyInto items d n) := by
  induction n generalizing items with
  | zero => exact needsAll_pure items
  | succ n ih => exact h.bind hd fun a => ih (items.push a)

/-! ## Primitive reads -/

theorem Reads.needsAll_of_length {n : Nat} (hd : Reads d spells)
    (hlength : ∀ start a part, spells start a part → part.length = n)
    (hshort : ∀ t : Cursor, t.remaining < n →
      d t = .error (.truncated t.position n t.bytes.size) t) : NeedsAll d := by
  intro c c' a k hrun hle hpos hk
  obtain ⟨part, hpart, hat, rfl⟩ := (hd c c' a (by omega)).mp hrun
  obtain rfl := hlength _ _ _ hpart
  have hend : k < c.position + part.length := hk
  have hsize : (c.bytes.extract 0 k).size = k := Bytes.size_front (by omega)
  refine ⟨c.position, part.length, _, hshort _ ?_, ?_, ?_⟩
  · simp only [Cursor.remaining, hsize]
    omega
  · simpa only [hsize] using hpos
  · simpa only [hsize] using hk

theorem needsAll_skip (n : Nat) : NeedsAll (skip n) := by
  apply (reads_skip n).needsAll_of_length fun _ _ _ h => h
  intro t hshort
  unfold skip
  rw [if_pos hshort]

theorem needsAll_take (n : Nat) : NeedsAll (take n) := by
  apply (reads_take n).needsAll_of_length fun _ _ _ h => h.2
  intro t hshort
  unfold take
  rw [if_pos hshort]

theorem needsAll_u8 : NeedsAll u8 :=
  (needsAll_take 1).bind (reads_take 1) fun _ => needsAll_pure _

theorem needsAll_u16 : NeedsAll u16 :=
  (needsAll_take 2).bind (reads_take 2) fun _ => needsAll_pure _

theorem needsAll_u32 : NeedsAll u32 :=
  (needsAll_take 4).bind (reads_take 4) fun _ => needsAll_pure _

/-! ## Members and attributes -/

theorem NeedsAll.skipCounted (h : NeedsAll step) (hstep : Reads step skips) :
    NeedsAll (skipCounted step) :=
  needsAll_u16.bind reads_u16 fun n => h.times hstep n.toNat

theorem needsAll_attributeInfo : NeedsAll attributeInfo := by
  apply (needsAll_skip 2).bind (reads_skip 2)
  intro _
  apply needsAll_u32.bind reads_u32
  intro length
  exact needsAll_skip length.toNat

theorem needsAll_memberInfo : NeedsAll memberInfo := by
  apply (needsAll_skip 6).bind (reads_skip 6)
  intro _
  exact needsAll_attributeInfo.skipCounted reads_attributeInfo

/-! ## The pool -/

theorem needsAll_tag : NeedsAll tag := by
  apply needsAll_u8.bind reads_u8
  intro byte
  cases Tag.ofByte? byte with
  | some known => exact needsAll_pure known
  | none => exact needsAll_throw (.invalidTag byte)

theorem needsAll_skipPayload (tag : Tag) : NeedsAll (skipPayload tag) := by
  unfold skipPayload
  cases tag.payloadLength? with
  | some length => exact needsAll_skip length
  | none => exact needsAll_u16.bind reads_u16 fun length => needsAll_skip length.toNat

theorem needsAll_constantsInto (starts : Array (Option Nat)) (n : Nat) :
    NeedsAll (constantsInto starts n) := by
  induction n using Nat.strong_induction_on generalizing starts with
  | _ n ih =>
    rcases n with _ | n
    · exact needsAll_pure starts
    rw [constantsInto]
    apply needsAll_position.bind reads_position
    intro start
    apply needsAll_tag.bind reads_tag
    intro tag
    apply (needsAll_skipPayload tag).bind (reads_skipPayload tag)
    intro _
    split
    · rcases n with _ | n
      · exact needsAll_pure _
      · exact ih n (by omega) _
    · exact ih n (by omega) _

theorem needsAll_constants : NeedsAll constants :=
  needsAll_u16.bind reads_u16 fun count => needsAll_constantsInto #[none] (count.toNat - 1)

/-! ## The whole file -/

theorem needsAll_magicNumber : NeedsAll magicNumber := by
  apply needsAll_u32.bind reads_u32
  intro found
  split
  · exact needsAll_pure ()
  · exact needsAll_throw (.invalidMagic found)

theorem needsAll_version : NeedsAll version := by
  apply needsAll_u16.bind reads_u16
  intro minor
  exact needsAll_u16.bind reads_u16 fun major => needsAll_pure (Version.mk major minor)

theorem needsAll_classHeader : NeedsAll classHeader := by
  apply (needsAll_skip 6).bind (reads_skip 6)
  intro _
  apply needsAll_u16.bind reads_u16
  intro interfaceCount
  exact needsAll_skip (2 * interfaceCount.toNat)

theorem needsAll_sections : NeedsAll sections := by
  have hmembers := needsAll_memberInfo.skipCounted reads_memberInfo
  have hattributes := needsAll_attributeInfo.skipCounted reads_attributeInfo
  have hmarked {next : Nat → Decoder Sections} (h : ∀ n, NeedsAll (next n)) :
      NeedsAll (position >>= next) := needsAll_position.bind reads_position h
  refine hmarked fun header => needsAll_classHeader.bind reads_classHeader fun _ => ?_
  refine hmarked fun fields => hmembers.bind (reads_skipCounted reads_memberInfo) fun _ => ?_
  refine hmarked fun methods => hmembers.bind (reads_skipCounted reads_memberInfo) fun _ => ?_
  refine hmarked fun attributes =>
    hattributes.bind (reads_skipCounted reads_attributeInfo) fun _ => ?_
  exact hmarked fun stop => needsAll_pure (Sections.mk header fields methods attributes stop)

theorem needsAll_layout : NeedsAll layout := by
  apply needsAll_magicNumber.bind reads_magicNumber
  intro _
  apply needsAll_version.bind reads_version
  intro version
  apply needsAll_constants.bind reads_constants
  intro starts
  apply needsAll_sections.followed
  rintro sections t b t' hrun
  rw [(pure_eq_ok.mp hrun).2]

/-! ## From the first byte on -/

section Run

variable {bytes : Bytes} {a : α} {c' : Cursor}

theorem NeedsAll.run (h : NeedsAll d) (hrun : d (Cursor.start bytes) = .ok a c')
    (hle : c'.position ≤ bytes.size) (hk : k < c'.position) :
    ∃ offset needed, d.run (bytes.extract 0 k) = .error (.truncated offset needed k) ∧
      offset ≤ k ∧ k < offset + needed := by
  obtain ⟨offset, needed, t, herror, hoffset, hneeded⟩ :=
    h (Cursor.start bytes) c' a k hrun hle (Nat.zero_le k) hk
  have hsize : (bytes.extract 0 k).size = k := Bytes.size_front (by omega)
  change d (Cursor.start (bytes.extract 0 k)) = .error (.truncated _ _ (bytes.extract 0 k).size) t
    at herror
  change offset ≤ (bytes.extract 0 k).size at hoffset
  change (bytes.extract 0 k).size < _ at hneeded
  rw [hsize] at herror hoffset hneeded
  refine ⟨offset, needed, ?_, hoffset, hneeded⟩
  unfold Decoder.run
  rw [herror]

theorem Reads.run {part trailing : List UInt8} (hd : Reads d spells) (h : NeedsAll d)
    (hpart : spells 0 a part) (hsplit : bytes.toList = part ++ trailing) :
    d.run bytes = .ok a ∧ ∀ k < part.length, ∃ offset needed,
      d.run (bytes.extract 0 k) = .error (.truncated offset needed k) ∧
        offset ≤ k ∧ k < offset + needed := by
  have hat : bytes.HasAt 0 part := ClassFile.hasAt_zero.mpr ⟨trailing, hsplit⟩
  have hrun : d (Cursor.start bytes) = .ok a ⟨bytes, 0 + part.length⟩ :=
    (hd _ _ a (Nat.zero_le _)).mpr ⟨part, hpart, hat, rfl⟩
  refine ⟨?_, fun k hk => h.run hrun hat.le (by rwa [Nat.zero_add])⟩
  unfold Decoder.run
  rw [hrun]

end Run

end Decoder

theorem ClassFile.parse_front {bytes : Bytes} {c : ClassFile} {k : Nat}
    (h : ClassFile.parse bytes = .ok c) (hk : k < c.size) :
    ∃ offset needed, ClassFile.parse (bytes.extract 0 k) = .error (.truncated offset needed k) ∧
      offset ≤ k ∧ k < offset + needed := by
  obtain ⟨s, trailing, hs, hsplit, rfl⟩ := parse_eq_ok.mp h
  obtain ⟨-, hfront⟩ := Decoder.reads_layout.run Decoder.needsAll_layout ⟨s, hs, rfl, rfl⟩ hsplit
  obtain ⟨offset, needed, herror, hbounds⟩ := hfront k hk
  refine ⟨offset, needed, ?_, hbounds⟩
  unfold ClassFile.parse
  rw [herror, except_error_bind]

end JavaClass
