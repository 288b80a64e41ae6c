import JavaClass.Proofs.Constants
import JavaClass.Proofs.Steps

/-!
# Tables of known constants

A table that holds constants answers every query from them: the tag, the place and the payload of
an index, and the index of a payload.
-/

namespace JavaClass

/-- The constants stand in the bytes of the table from `offset` on, and the table points to each of
them. -/
structure ConstantTable.Holds (t : ConstantTable) (offset : Nat) (cs : List Constant) : Prop where
  starts : ∀ index : Nat, t.starts[index]?.join = (Constant.at? offset cs index).map Prod.fst
  entries : t.bytes.HasAt offset (Constant.encodeAll cs)

namespace ConstantTable

variable {t : ConstantTable} {index : UInt16} {tag : Tag}

theorem expect_of_tag (h : t.tag? index = some tag) : t.expect index tag = .ok () := by
  unfold expect
  rw [if_pos h]

theorem expect_of_ne (h : t.tag? index ≠ some tag) :
    t.expect index tag = .error (.unexpectedEntry tag (t.tag? index)) := by
  unfold expect
  rw [if_neg h]

theorem expect_eq_ok (h : t.expect index tag = .ok ()) : t.tag? index = some tag := by
  by_contra hne
  rw [expect_of_ne hne] at h
  cases h

end ConstantTable

namespace ConstantTable.Holds

open Constant

variable {t : ConstantTable} {offset start n : Nat} {index : UInt16} {cs : List Constant}
  {c : Constant} {tag : Tag} {payload : Payload}

theorem hasAt {i : Nat} (h : t.Holds offset cs) (hc : at? offset cs i = some (start, c)) :
    t.bytes.HasAt start c.encode := by
  obtain ⟨before, after, rfl, -, rfl⟩ := at?_eq_some.mp hc
  have hentries := h.entries
  rw [encodeAll_append, encodeAll_cons, Bytes.hasAt_append, Bytes.hasAt_append] at hentries
  exact hentries.2.1

theorem byte_eq {i : Nat} (h : t.Holds offset cs) (hc : at? offset cs i = some (start, c)) :
    t.bytes[start]? = some c.tag.byte :=
  (Bytes.hasAt_cons.mp (h.hasAt hc)).1

theorem spell_hasAt {i : Nat} (h : t.Holds offset cs) (hc : at? offset cs i = some (start, c)) :
    t.bytes.HasAt (start + 1) (c.tag.spell c.payload) :=
  (Bytes.hasAt_cons.mp (h.hasAt hc)).2

theorem start? (h : t.Holds offset cs) (index : UInt16) :
    t.start? index = (at? offset cs index.toNat).map Prod.fst :=
  h.starts index.toNat

theorem tag? (h : t.Holds offset cs) (index : UInt16) :
    t.tag? index = (at? offset cs index.toNat).map (·.2.tag) := by
  unfold ConstantTable.tag?
  rw [h.start?]
  cases hc : at? offset cs index.toNat with
  | none => rfl
  | some entry =>
    obtain ⟨start, c⟩ := entry
    simp [h.byte_eq hc, Tag.ofByte?_byte]

theorem exists_at? (h : t.Holds offset cs) (htag : t.tag? index = some tag) :
    ∃ start c, at? offset cs index.toNat = some (start, c) ∧ c.tag = tag := by
  rw [h.tag?] at htag
  obtain ⟨⟨start, c⟩, hc, rfl⟩ := Option.map_eq_some_iff.mp htag
  exact ⟨start, c, hc, rfl⟩

theorem payloadOffset (h : t.Holds offset cs) (hc : at? offset cs index.toNat = some (start, c)) :
    t.payloadOffset index = .ok (start + 1) := by
  simp [ConstantTable.payloadOffset, h.start?, hc]

theorem textBytes (h : t.Holds offset cs) (hc : at? offset cs index.toNat = some (start, c))
    (htext : c.tag = .utf8) : t.textBytes index = .ok c.payload.toArray := by
  have hfits : c.payload.length < 65536 := Tag.fits_utf8.mp (htext ▸ c.fits)
  have hspell := h.spell_hasAt hc
  rw [htext, Tag.spell_utf8, Bytes.hasAt_append, length_bytes16] at hspell
  have hslice : t.bytes.slice (start + 1 + 2) (start + 1 + 2 + c.payload.length) =
      .ok c.payload.toArray := Bytes.slice_eq_ok.mpr ⟨by simp, hspell.2⟩
  simp only [ConstantTable.textBytes, h.payloadOffset hc, textAt]
  show (t.bytes.get16 (start + 1) >>= _) = _
  rw [Bytes.get16_eq_ok.mpr hspell.1]
  show t.bytes.slice _ (_ + (UInt16.ofNat c.payload.length).toNat) = _
  rw [UInt16.toNat_ofNat_of_lt' hfits, hslice]

/-! ## Typed reads -/

theorem exists_payload (h : t.Holds offset cs) (hc : at? offset cs index.toNat = some (start, c))
    (hlength : c.tag.payloadLength? = some n) :
    c.payload.length = n ∧ t.payloadOffset index = .ok (start + 1) ∧
      t.bytes.HasAt (start + 1) c.payload := by
  have hspell := h.spell_hasAt hc
  rw [Tag.spell_of_length hlength] at hspell
  exact ⟨(Tag.fits_of_length hlength).mp c.fits, h.payloadOffset hc, hspell⟩

theorem word_eq_ok {β : Type} {spell : β → List UInt8} {value : List UInt8 → β}
    {read : Bytes → Nat → Except Error β} {width : Nat}
    (hread : ∀ {bytes offset v}, read bytes offset = .ok v ↔ Bytes.HasAt bytes offset (spell v))
    (hspell : ∀ l, l.length = width → spell (value l) = l) (h : t.Holds offset cs)
    (hc : at? offset cs index.toNat = some (start, c)) (hlength : c.tag.payloadLength? = some width) :
    (t.payloadOffset index >>= read t.bytes) = .ok (value c.payload) ∧
      c.payload = spell (value c.payload) := by
  obtain ⟨hlen, hoffset, hat⟩ := h.exists_payload hc hlength
  have hword := hspell c.payload hlen
  refine ⟨?_, hword.symm⟩
  rw [hoffset, except_ok_bind, hread, hword]
  exact hat

theorem reference (h : t.Holds offset cs) (hc : at? offset cs index.toNat = some (start, c))
    (hlength : c.tag.payloadLength? = some 2) :
    t.reference index = .ok (UInt16.ofNat (BigEndian.decode c.payload)) ∧
      c.payload = (Payload.reference (UInt16.ofNat (BigEndian.decode c.payload))).encode :=
  word_eq_ok Bytes.get16_eq_ok bytes16_ofNat_decode h hc hlength

theorem exists_reference (h : t.Holds offset cs) (htag : t.tag? index = some tag)
    (hlength : tag.payloadLength? = some 2) : ∃ target, t.reference index = .ok target := by
  obtain ⟨start, c, hc, rfl⟩ := h.exists_at? htag
  exact ⟨_, (h.reference hc hlength).1⟩

theorem word (h : t.Holds offset cs) (hc : at? offset cs index.toNat = some (start, c))
    (hlength : c.tag.payloadLength? = some 4) :
    t.word index = .ok (UInt32.ofNat (BigEndian.decode c.payload)) ∧
      c.payload = (Payload.word (UInt32.ofNat (BigEndian.decode c.payload))).encode :=
  word_eq_ok Bytes.get32_eq_ok bytes32_ofNat_decode h hc hlength

theorem wide (h : t.Holds offset cs) (hc : at? offset cs index.toNat = some (start, c))
    (hlength : c.tag.payloadLength? = some 8) :
    t.wide index = .ok (UInt64.ofNat (BigEndian.decode c.payload)) ∧
      c.payload = (Payload.wide (UInt64.ofNat (BigEndian.decode c.payload))).encode :=
  word_eq_ok Bytes.get64_eq_ok bytes64_ofNat_decode h hc hlength

theorem references (h : t.Holds offset cs) (hc : at? offset cs index.toNat = some (start, c))
    (hlength : c.tag.payloadLength? = some 4) :
    t.references index = .ok (UInt16.ofNat (BigEndian.decode (c.payload.take 2)),
      UInt16.ofNat (BigEndian.decode (c.payload.drop 2))) := by
  obtain ⟨hlen, hoffset, hat⟩ := h.exists_payload hc hlength
  have hfront : (c.payload.take 2).length = 2 := by rw [List.length_take, hlen]; rfl
  have hback : (c.payload.drop 2).length = 2 := by rw [List.length_drop, hlen]
  rw [← List.take_append_drop 2 c.payload, Bytes.hasAt_append, hfront] at hat
  have hfirst := Bytes.get16_eq_ok.mpr ((bytes16_ofNat_decode _ hfront).symm ▸ hat.1)
  have hsecond := Bytes.get16_eq_ok.mpr ((bytes16_ofNat_decode _ hback).symm ▸ hat.2)
  unfold ConstantTable.references
  rw [hoffset, except_ok_bind, hfirst, except_ok_bind, hsecond]
  rfl

theorem handle (h : t.Holds offset cs) (hc : at? offset cs index.toNat = some (start, c))
    (hlength : c.tag.payloadLength? = some 3) :
    t.handle index = .ok (c.payload.headD 0, UInt16.ofNat (BigEndian.decode c.payload.tail)) ∧
      c.payload = (Payload.handle (c.payload.headD 0)
        (UInt16.ofNat (BigEndian.decode c.payload.tail))).encode := by
  obtain ⟨hlen, hoffset, hat⟩ := h.exists_payload hc hlength
  obtain ⟨kind, rest, hpayload⟩ := List.exists_cons_of_length_eq_add_one hlen
  rw [hpayload] at hlen hat ⊢
  obtain ⟨hkind, hrest⟩ := Bytes.hasAt_cons.mp hat
  have hword := bytes16_ofNat_decode rest (by simpa using hlen)
  refine ⟨?_, by simp only [List.headD_cons, List.tail_cons, Payload.encode, hword]⟩
  have hbyte := Bytes.byteAt_eq_ok.mpr (Bytes.hasAt_singleton.mpr hkind)
  have hindex := Bytes.get16_eq_ok.mpr (hword.symm ▸ hrest)
  unfold ConstantTable.handle
  rw [hoffset, except_ok_bind, hbyte, except_ok_bind, hindex]
  rfl

/-! ## Searching for a payload -/

/-- Index 65536, which no 16-bit index reaches, may be the second slot of the last constant. -/
theorem isMatch {i : Nat} (h : t.Holds offset cs) (hlast : at? offset cs 65536 = none)
    (suits : payload.Suits tag) (hi : i ≤ 65536) :
    t.isMatch tag (payload.isAt t.bytes) i =
      .ok (decide ((at? offset cs i).map Prod.snd = some (ofPayload tag payload suits))) := by
  unfold ConstantTable.isMatch
  rw [h.start?]
  rcases Nat.lt_or_eq_of_le hi with hlt | rfl
  swap
  · rw [hlast]
    rfl
  rw [UInt16.toNat_ofNat_of_lt' hlt]
  cases hc : at? offset cs i with
  | none => simp
  | some entry =>
    obtain ⟨start, c⟩ := entry
    simp only [Option.map_some, h.byte_eq hc, Option.some.injEq, Tag.byte_injective.eq_iff]
    split
    · rename_i htag
      have hlen := (Tag.fits_of_length suits).mp (htag ▸ c.fits)
      have hspell := h.spell_hasAt hc
      rw [htag, Tag.spell_of_length suits] at hspell
      rw [Payload.isAt_eq_ok hspell hlen]
      congr 1
      have hiff : c = ofPayload tag payload suits ↔ c.payload = payload.encode := by
        simp [Constant.ext_iff, ofPayload, htag]
      rw [Bool.eq_iff_iff, beq_iff_eq, decide_eq_true_eq, hiff]
    · rename_i htag
      have hne : c ≠ ofPayload tag payload suits := fun heq => htag (by rw [heq]; rfl)
      simp [hne]

theorem lastMatch (h : t.Holds offset cs) (hlast : at? offset cs 65536 = none)
    (suits : payload.Suits tag) (hn : n ≤ 65537) :
    (∃ i < n, (at? offset cs i).map Prod.snd = some (ofPayload tag payload suits) ∧
      t.lastMatch tag (payload.isAt t.bytes) n = .ok (some (UInt16.ofNat i))) ∨
    ((∀ i < n, (at? offset cs i).map Prod.snd ≠ some (ofPayload tag payload suits)) ∧
      t.lastMatch tag (payload.isAt t.bytes) n = .ok none) := by
  induction n with
  | zero => exact .inr ⟨by simp, rfl⟩
  | succ n ih =>
    have hstep : t.lastMatch tag (payload.isAt t.bytes) (n + 1) =
        if (at? offset cs n).map Prod.snd = some (ofPayload tag payload suits) then
          .ok (some (UInt16.ofNat n))
        else t.lastMatch tag (payload.isAt t.bytes) n := by
      rw [ConstantTable.lastMatch, h.isMatch hlast suits (by omega)]
      show (if decide _ = true then _ else _) = _
      simp only [decide_eq_true_eq]
      rfl
    rw [hstep]
    split
    · rename_i hfound
      exact .inl ⟨n, by omega, hfound, rfl⟩
    · rename_i hmiss
      rcases ih (by omega) with ⟨i, hi, hfound, heq⟩ | ⟨hnone, heq⟩
      · exact .inl ⟨i, by omega, hfound, heq⟩
      · refine .inr ⟨fun i hi => ?_, heq⟩
        rcases Nat.lt_succ_iff_lt_or_eq.mp hi with hlt | rfl
        · exact hnone i hlt
        · exact hmiss

end ConstantTable.Holds
end JavaClass
