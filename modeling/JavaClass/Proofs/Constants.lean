import JavaClass.Constant.Table
import JavaClass.Proofs.Bytes
import Mathlib.Data.List.Basic

/-!
# Constants and their indexes

A constant is a tag with a payload that fits it. Constants that stand one after the other get their
indexes from the slots they take, and a table that points to where each of them starts answers
queries about them.
-/

namespace JavaClass

namespace Tag

theorem ofByte?_eq_some {b : UInt8} {t : Tag} : ofByte? b = some t ↔ b = t.byte := by
  constructor
  · intro h
    have htest : (t.byte == b) = true := List.find?_some (p := fun t => byte t == b) h
    exact (eq_of_beq htest).symm
  · rintro rfl
    exact ofByte?_byte t

theorem byte_injective : Function.Injective byte := fun a b h => by
  have := ofByte?_byte a
  rw [h, ofByte?_byte] at this
  exact (Option.some.inj this).symm

theorem slots_pos (t : Tag) : 0 < t.slots := by
  cases t <;> decide

theorem slots_le_two (t : Tag) : t.slots ≤ 2 := by
  cases t <;> decide

theorem slots_eq_two {t : Tag} : t.slots = 2 ↔ t = long ∨ t = double := by
  cases t <;> decide

/-- The bytes are as many as the tag asks for, or at most 65535 for a text. -/
def Fits (t : Tag) (payload : List UInt8) : Prop :=
  match t.payloadLength? with
  | some length => payload.length = length
  | none => payload.length < 65536

instance (t : Tag) (payload : List UInt8) : Decidable (t.Fits payload) := by
  unfold Fits
  exact match t.payloadLength? with
    | some _ => inferInstance
    | none => inferInstance

/-- What stands behind the tag: the payload, for a text with its length in front. -/
def spell (t : Tag) (payload : List UInt8) : List UInt8 :=
  match t.payloadLength? with
  | some _ => payload
  | none => bytes16 (UInt16.ofNat payload.length) ++ payload

theorem fits_of_text {t : Tag} (h : t.payloadLength? = none) {payload : List UInt8} :
    t.Fits payload ↔ payload.length < 65536 := by simp only [Fits, h]

theorem spell_of_text {t : Tag} (h : t.payloadLength? = none) (payload : List UInt8) :
    t.spell payload = bytes16 (UInt16.ofNat payload.length) ++ payload := by simp only [spell, h]

theorem fits_utf8 {payload : List UInt8} : utf8.Fits payload ↔ payload.length < 65536 :=
  fits_of_text rfl

theorem spell_utf8 (payload : List UInt8) :
    utf8.spell payload = bytes16 (UInt16.ofNat payload.length) ++ payload :=
  spell_of_text rfl payload

theorem fits_of_length {t : Tag} {n : Nat} (h : t.payloadLength? = some n) {payload : List UInt8} :
    t.Fits payload ↔ payload.length = n := by simp only [Fits, h]

theorem spell_of_length {t : Tag} {n : Nat} (h : t.payloadLength? = some n)
    (payload : List UInt8) : t.spell payload = payload := by simp only [spell, h]

end Tag

/-- A constant of the pool. -/
@[ext]
structure Constant where
  tag : Tag
  payload : List UInt8
  fits : tag.Fits payload
  deriving DecidableEq

namespace Constant

def slots (c : Constant) : Nat := c.tag.slots

def encode (c : Constant) : List UInt8 := c.tag.byte :: c.tag.spell c.payload

def encodeAll (cs : List Constant) : List UInt8 := cs.flatMap encode

/-- The slots that the constants take together. -/
def slotCount (cs : List Constant) : Nat := (cs.map slots).sum

/-- The constants slot by slot, each with where it starts. -/
def placed (offset : Nat) : List Constant → List (Option (Nat × Constant))
  | [] => []
  | c :: cs =>
    some (offset, c) :: (List.replicate (c.slots - 1) none ++ placed (offset + c.encode.length) cs)

/-- The constant of an index, with where it starts if the first one starts at `offset`. -/
def at? (offset : Nat) (cs : List Constant) (index : Nat) : Option (Nat × Constant) :=
  (none :: placed offset cs)[index]?.join

variable {c : Constant} {cs ds : List Constant} {offset index start : Nat}

theorem slots_pos (c : Constant) : 0 < c.slots := c.tag.slots_pos

@[simp] theorem encodeAll_nil : encodeAll [] = [] := rfl
@[simp] theorem encodeAll_cons : encodeAll (c :: cs) = c.encode ++ encodeAll cs := rfl
@[simp] theorem encodeAll_append : encodeAll (cs ++ ds) = encodeAll cs ++ encodeAll ds := by
  simp [encodeAll]

@[simp] theorem slotCount_nil : slotCount [] = 0 := rfl
@[simp] theorem slotCount_cons : slotCount (c :: cs) = c.slots + slotCount cs := by simp [slotCount]
@[simp] theorem slotCount_append : slotCount (cs ++ ds) = slotCount cs + slotCount ds := by
  simp [slotCount]

@[simp] theorem length_placed : (placed offset cs).length = slotCount cs := by
  induction cs generalizing offset with
  | nil => rfl
  | cons c cs ih =>
    have := c.slots_pos
    simp [placed, ih]
    omega

theorem placed_append :
    placed offset (cs ++ ds) = placed offset cs ++ placed (offset + (encodeAll cs).length) ds := by
  induction cs generalizing offset with
  | nil => simp [placed]
  | cons c cs ih => simp [placed, ih, Nat.add_assoc]

theorem at?_cons : at? offset (c :: cs) index =
    if index = 1 then some (offset, c)
    else if index < 1 + c.slots then none
    else at? (offset + c.encode.length) cs (index - c.slots) := by
  have hpos := c.slots_pos
  split
  · rename_i h
    simp [h, at?, placed]
  · split
    · rename_i hne hlt
      rcases Nat.eq_zero_or_pos index with rfl | hindex
      · rfl
      · obtain ⟨i, rfl⟩ : ∃ i, index = i + 2 := ⟨index - 2, by omega⟩
        have hi : i < c.slots - 1 := by omega
        simp [at?, placed, List.getElem?_append_left, hi]
    · rename_i hne hge
      obtain ⟨n, hn⟩ : ∃ n, c.slots = n + 1 := ⟨c.slots - 1, by omega⟩
      obtain ⟨i, rfl⟩ : ∃ i, index = n + i + 2 := ⟨index - c.slots - 1, by omega⟩
      have hrest : n + i + 2 - (n + 1) = i + 1 := by omega
      simp [at?, placed, hn, hrest, List.getElem?_append_right]

theorem at?_eq_some : at? offset cs index = some (start, c) ↔
    ∃ before after, cs = before ++ c :: after ∧ index = 1 + slotCount before ∧
      start = offset + (encodeAll before).length := by
  induction cs generalizing offset index with
  | nil => cases index <;> simp [at?, placed]
  | cons d cs ih =>
    rw [at?_cons]
    constructor
    · intro h
      split at h
      · rename_i hindex
        obtain ⟨rfl, rfl⟩ := Prod.mk.inj (Option.some.inj h)
        exact ⟨[], cs, rfl, by simpa using hindex, rfl⟩
      · split at h
        · simp at h
        · obtain ⟨before, after, rfl, hindex, rfl⟩ := ih.mp h
          refine ⟨d :: before, after, rfl, ?_, ?_⟩
          · rw [slotCount_cons]
            omega
          · simp [Nat.add_assoc]
    · rintro ⟨before, after, hsplit, rfl, rfl⟩
      rcases before with _ | ⟨e, before⟩
      · obtain ⟨rfl, rfl⟩ := List.cons.inj hsplit
        simp
      · obtain ⟨rfl, rfl⟩ := List.cons.inj hsplit
        have hpos := d.slots_pos
        rw [slotCount_cons, if_neg (by omega), if_neg (by omega), ih]
        exact ⟨before, after, rfl, by omega, by simp [Nat.add_assoc]⟩

theorem at?_zero : at? offset cs 0 = none := rfl

theorem at?_second (h : at? offset cs index = some (start, c)) (hwide : c.slots = 2) :
    at? offset cs (index + 1) = none := by
  rw [Option.eq_none_iff_forall_ne_some]
  rintro ⟨other, d⟩ hd
  obtain ⟨before, after, rfl, rfl, -⟩ := at?_eq_some.mp h
  obtain ⟨before', after', hsplit, hindex, -⟩ := at?_eq_some.mp hd
  -- one of the two fronts is a start of the other, and its slots leave no room for this index
  rcases List.append_eq_append_iff.mp hsplit with ⟨between, rfl, hrest⟩ | ⟨between, rfl, hrest⟩
  · rcases between with _ | ⟨e, between⟩
    · simp at hindex
    · obtain ⟨rfl, -⟩ := List.cons.inj hrest
      simp only [slotCount_append, slotCount_cons] at hindex
      omega
  · simp only [slotCount_append] at hindex
    omega

theorem at?_shift (cs : List Constant) (offset index : Nat) :
    at? offset cs index = (at? 0 cs index).map fun (start, c) => (offset + start, c) := by
  ext ⟨start, c⟩
  simp only [Option.map_eq_some_iff, Prod.exists, Prod.mk.injEq, at?_eq_some]
  constructor
  · rintro ⟨before, after, rfl, rfl, rfl⟩
    exact ⟨_, c, ⟨before, after, rfl, rfl, rfl⟩, by omega, rfl⟩
  · rintro ⟨_, _, ⟨before, after, rfl, rfl, rfl⟩, rfl, rfl⟩
    exact ⟨before, after, rfl, rfl, by omega⟩

theorem at?_snd (cs : List Constant) (offset offset' index : Nat) :
    (at? offset cs index).map Prod.snd = (at? offset' cs index).map Prod.snd := by
  rw [at?_shift cs offset, at?_shift cs offset', Option.map_map, Option.map_map]
  rfl

theorem at?_append_of_eq_some (ds : List Constant) (h : at? offset cs index = some (start, c)) :
    at? offset (cs ++ ds) index = some (start, c) := by
  obtain ⟨before, after, rfl, rfl, rfl⟩ := at?_eq_some.mp h
  exact at?_eq_some.mpr ⟨before, after ++ ds, by simp, rfl, rfl⟩

end Constant

/-! ## Constants of a known shape -/

/-- The payload is as long as the tag asks for. -/
def Payload.Suits (payload : Payload) (tag : Tag) : Prop :=
  tag.payloadLength? = some payload.encode.length

theorem Payload.Suits.slots_eq {payload : Payload} {tag : Tag} (h : payload.Suits tag) :
    payload.slots = tag.slots := by
  have htag : tag.slots = if tag.payloadLength? = some 8 then 2 else 1 := by cases tag <;> rfl
  rw [htag, h]
  cases payload <;> simp [encode, Payload.slots]

namespace Constant

/-- The constant of a tag and a payload that suits it. -/
def ofPayload (tag : Tag) (payload : Payload) (suits : payload.Suits tag) : Constant where
  tag := tag
  payload := payload.encode
  fits := (Tag.fits_of_length suits).mpr rfl

/-- The constant of an encoded text. -/
def ofText (text : Bytes) (short : text.size < 65536) : Constant where
  tag := .utf8
  payload := text.toList
  fits := Tag.fits_utf8.mpr short

theorem encode_ofPayload {tag : Tag} {payload : Payload} (h : payload.Suits tag) :
    (ofPayload tag payload h).encode = tag.byte :: payload.encode := by
  unfold encode
  rw [ofPayload, Tag.spell_of_length h]

theorem encode_ofText {text : Bytes} (h : text.size < 65536) :
    (ofText text h).encode =
      Tag.utf8.byte :: (bytes16 (UInt16.ofNat text.size) ++ text.toList) := by
  unfold encode
  rw [ofText, Tag.spell_utf8, Array.length_toList]

end Constant

theorem Payload.isAt_eq_ok {payload : Payload} {bytes : Bytes} {offset : Nat} {part : List UInt8}
    (h : bytes.HasAt offset part) (hlen : part.length = payload.encode.length) :
    payload.isAt bytes offset = .ok (part == payload.encode) := by
  cases payload with
  | reference index => exact Bytes.holds16_eq_ok h (by simpa [encode] using hlen)
  | handle kind index =>
    obtain ⟨k, part, rfl⟩ := List.exists_cons_of_length_eq_add_one hlen
    obtain ⟨hkind, hindex⟩ := Bytes.hasAt_cons.mp h
    have hfound := Bytes.holds16_eq_ok (v := index) hindex (by simpa [encode] using hlen)
    simp only [isAt, Bytes.byteAt_eq_ok.mpr (Bytes.hasAt_singleton.mpr hkind), encode]
    show (if k == kind then bytes.holds16 (offset + 1) index else pure false) = _
    split
    · rename_i hk
      rw [hfound]
      simp [hk]
    · rename_i hk
      simp [hk]
      rfl
  | word value => exact Bytes.holds32_eq_ok h (by simpa [encode] using hlen)
  | wide value => exact Bytes.holds64_eq_ok h (by simpa [encode] using hlen)

end JavaClass
