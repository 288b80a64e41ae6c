import JavaClass.ClassFile
import JavaClass.Proofs.Decoding
import JavaClass.Proofs.Tables

/-!
# The walk over the pool

The declared count says how many slots the constants fill. The walk passes over exactly such
constants and notes where each of them starts.
-/

namespace JavaClass

/-! ## Constants that fill slots -/

namespace Constant

variable {c d : Constant} {cs ds : List Constant} {n offset : Nat} {x y : List UInt8}

/-- The constants fill `n` slots, and each of them starts within these. The second slot of the last
one may be one too many. -/
def Fill (n : Nat) (cs : List Constant) : Prop :=
  n ≤ slotCount cs ∧ ∀ before c after, cs = before ++ c :: after → slotCount before < n

theorem fill_nil : Fill n [] ↔ n = 0 := by
  constructor
  · rintro ⟨hle, -⟩
    simpa using hle
  · rintro rfl
    exact ⟨le_rfl, by simp⟩

theorem fill_cons : Fill n (c :: cs) ↔ 0 < n ∧ Fill (n - c.slots) cs := by
  constructor
  · rintro ⟨hle, hstarts⟩
    rw [slotCount_cons] at hle
    refine ⟨hstarts [] c cs rfl, by omega, ?_⟩
    rintro before d after rfl
    have := hstarts (c :: before) d after rfl
    rw [slotCount_cons] at this
    omega
  · rintro ⟨hpos, hle, hstarts⟩
    refine ⟨by rw [slotCount_cons]; omega, ?_⟩
    rintro before d after hsplit
    rcases before with _ | ⟨e, before⟩
    · exact hpos
    · obtain ⟨rfl, rfl⟩ := List.cons.inj hsplit
      have := hstarts before d after rfl
      rw [slotCount_cons]
      omega

theorem fill_zero : Fill 0 cs ↔ cs = [] := by
  cases cs with
  | nil => simp [fill_nil]
  | cons c cs => simp [fill_cons]

theorem fill_slotCount (cs : List Constant) : Fill (slotCount cs) cs := by
  refine ⟨le_rfl, ?_⟩
  rintro before c after rfl
  have := c.slots_pos
  simp only [slotCount_append, slotCount_cons]
  omega

theorem Fill.lt_of_at? {index start : Nat} (h : Fill n cs)
    (hc : at? offset cs index = some (start, c)) : index < 1 + n := by
  obtain ⟨before, after, rfl, rfl, -⟩ := at?_eq_some.mp hc
  have := h.2 before c after rfl
  omega

theorem Fill.slotCount_le (h : Fill n cs) : slotCount cs ≤ n + 1 := by
  rcases List.eq_nil_or_concat' cs with rfl | ⟨before, c, rfl⟩
  · simp
  · have hstart := h.2 before c [] rfl
    have hslots : c.slots ≤ 2 := c.tag.slots_le_two
    simp only [slotCount_append, slotCount_cons, slotCount_nil]
    omega

theorem encode_append_inj (h : c.encode ++ x = d.encode ++ y) : c = d ∧ x = y := by
  have htag : c.tag = d.tag := Tag.byte_injective (List.cons.inj h).1
  have hspell : c.tag.spell c.payload ++ x = d.tag.spell d.payload ++ y := (List.cons.inj h).2
  have hcfits := c.fits
  have hdfits := d.fits
  rw [← htag] at hspell hdfits
  suffices c.payload = d.payload ∧ x = y from ⟨Constant.ext htag this.1, this.2⟩
  cases hlength : c.tag.payloadLength? with
  | some n =>
    rw [Tag.spell_of_length hlength, Tag.spell_of_length hlength] at hspell
    rw [Tag.fits_of_length hlength] at hcfits hdfits
    exact List.append_inj hspell (hcfits.trans hdfits.symm)
  | none =>
    rw [Tag.spell_of_text hlength, Tag.spell_of_text hlength, List.append_assoc,
      List.append_assoc] at hspell
    rw [Tag.fits_of_text hlength] at hcfits hdfits
    obtain ⟨hcount, hrest⟩ := List.append_inj hspell (by simp)
    have hlen := congrArg UInt16.toNat (bytes16_injective hcount)
    rw [UInt16.toNat_ofNat_of_lt' hcfits, UInt16.toNat_ofNat_of_lt' hdfits] at hlen
    exact List.append_inj hrest hlen

theorem Fill.encodeAll_append_inj (hc : Fill n cs) (hd : Fill n ds)
    (h : encodeAll cs ++ x = encodeAll ds ++ y) : cs = ds ∧ x = y := by
  induction cs generalizing n ds with
  | nil =>
    obtain rfl := fill_nil.mp hc
    obtain rfl := fill_zero.mp hd
    exact ⟨rfl, h⟩
  | cons c cs ih =>
    obtain ⟨hpos, hcs⟩ := fill_cons.mp hc
    rcases ds with _ | ⟨d, ds⟩
    · rw [fill_nil.mp hd] at hpos
      omega
    · obtain ⟨-, hds⟩ := fill_cons.mp hd
      rw [encodeAll_cons, encodeAll_cons, List.append_assoc, List.append_assoc] at h
      obtain ⟨rfl, hrest⟩ := encode_append_inj h
      obtain ⟨rfl, hxy⟩ := ih hcs hds hrest
      exact ⟨rfl, hxy⟩

end Constant

/-! ## What the constant walk reads -/

namespace Decoder

open Constant

theorem reads_tag : Reads tag fun _ t part => part = [t.byte] := by
  refine Reads.congr (reads_u8.bind fun byte =>
    (?known : Reads _ fun _ t part => byte = t.byte ∧ part = [])) fun start t part => ?_
  case known =>
    cases hbyte : Tag.ofByte? byte with
    | some known =>
      obtain rfl := Tag.ofByte?_eq_some.mp hbyte
      refine (reads_pure known).congr fun start t part => ?_
      rw [Tag.byte_injective.eq_iff, eq_comm]
    | none =>
      refine (reads_throw _).congr fun start t part => ?_
      constructor
      · rintro ⟨⟩
      · rintro ⟨rfl, -⟩
        rw [Tag.ofByte?_byte] at hbyte
        cases hbyte
  constructor
  · rintro ⟨_, _, _, rfl, ⟨rfl, rfl⟩, rfl⟩
    rfl
  · rintro rfl
    exact ⟨t.byte, _, [], rfl, ⟨rfl, rfl⟩, rfl⟩

theorem reads_skipPayload (tag : Tag) : Reads (skipPayload tag) fun _ _ part =>
    ∃ payload, tag.Fits payload ∧ part = tag.spell payload := by
  unfold skipPayload
  cases hlength : tag.payloadLength? with
  | some length =>
    refine (reads_skip length).congr fun start _ part => ?_
    simp only [Tag.fits_of_length hlength, Tag.spell_of_length hlength]
    constructor
    · rintro hpart
      exact ⟨part, hpart, rfl⟩
    · rintro ⟨_, hpart, rfl⟩
      exact hpart
  | none =>
    refine (reads_u16.bind fun length => reads_skip length.toNat).congr fun start _ part => ?_
    simp only [Tag.fits_of_text hlength, Tag.spell_of_text hlength]
    constructor
    · rintro ⟨length, _, payload, rfl, hlen, rfl⟩
      exact ⟨payload, hlen ▸ length.toNat_lt, by rw [hlen, UInt16.ofNat_toNat]⟩
    · rintro ⟨payload, hfits, rfl⟩
      exact ⟨_, _, payload, rfl, (UInt16.toNat_ofNat_of_lt' hfits).symm, rfl⟩

/-- Where each of the first `n` slots starts. -/
def slotStarts (n start : Nat) (cs : List Constant) : Array (Option Nat) :=
  (((placed start cs).take n).map (Option.map Prod.fst)).toArray

theorem slotStarts_cons (n start : Nat) (c : Constant) (cs : List Constant) :
    slotStarts (n + 1) start (c :: cs) = #[some start] ++
      (Array.replicate (min (c.slots - 1) n) none ++
        slotStarts (n + 1 - c.slots) (start + c.encode.length) cs) := by
  have hpos := c.slots_pos
  have hrest : n - (c.slots - 1) = n + 1 - c.slots := by omega
  simp [slotStarts, placed, List.take_append, List.take_replicate, hrest, Nat.min_comm]

theorem size_slotStarts {n start : Nat} {cs : List Constant} (h : Fill n cs) :
    (slotStarts n start cs).size = n := by
  simp [slotStarts, h.1]

theorem slotStarts_getElem? {n : Nat} {cs : List Constant} (h : Fill n cs) (start index : Nat) :
    (#[none] ++ slotStarts n start cs)[index]?.join = (at? start cs index).map Prod.fst := by
  have hlist : #[none] ++ slotStarts n start cs =
      (none :: ((placed start cs).take n).map (Option.map Prod.fst)).toArray :=
    Array.toList_inj.mp (by simp [slotStarts])
  rw [hlist, List.getElem?_toArray]
  rcases index with _ | i
  · rfl
  have hplaced : at? start cs (i + 1) = (placed start cs)[i]?.join := rfl
  rw [hplaced, List.getElem?_cons_succ, List.getElem?_map]
  by_cases hi : i < n
  · rw [List.getElem?_take_of_lt hi]
    cases (placed start cs)[i]? with
    | none => rfl
    | some slot => cases slot <;> rfl
  · have hnone : at? start cs (i + 1) = none := by
      rw [Option.eq_none_iff_forall_ne_some]
      rintro ⟨other, c⟩ hc
      have := h.lt_of_at? hc
      omega
    rw [← hplaced, hnone, List.getElem?_eq_none (by rw [List.length_take]; omega)]
    rfl

/-- The start of a constant is pushed before its slots are counted, and a wide constant in the last
slot gets no second one. -/
theorem reads_constantsInto (starts : Array (Option Nat)) (n : Nat) :
    Reads (constantsInto starts n) fun start result part => ∃ cs, Fill n cs ∧
      part = encodeAll cs ∧ result = starts ++ slotStarts n start cs := by
  induction n using Nat.strong_induction_on generalizing starts with
  | _ n ih =>
    rcases n with _ | n
    · refine (reads_pure starts).congr fun start result part => ?_
      constructor
      · rintro ⟨rfl, rfl⟩
        exact ⟨[], fill_zero.mpr rfl, rfl, by simp [slotStarts]⟩
      · rintro ⟨cs, hfill, rfl, rfl⟩
        rw [fill_zero.mp hfill]
        exact ⟨by simp, rfl⟩
    rw [constantsInto]
    refine Reads.congr (reads_position.bind fun first => reads_tag.bind fun t =>
      (reads_skipPayload t).bind fun _ => (?next : Reads _ fun start result part =>
        ∃ cs, Fill (n + 1 - t.slots) cs ∧ part = encodeAll cs ∧
          result = starts ++ (#[some first] ++ (Array.replicate (min (t.slots - 1) n) none ++
            slotStarts (n + 1 - t.slots) start cs)))) fun start result part => ?_
    case next =>
      have hslots : t.slots = 1 ∨ t.slots = 2 := by
        have hpos := t.slots_pos
        have hle := t.slots_le_two
        omega
      rcases hslots with hone | htwo
      · rw [if_neg (by omega), hone]
        refine (ih n (by omega) _).congr fun start result part => ?_
        simp
      · rw [if_pos htwo, htwo]
        rcases n with _ | n
        · refine (ih 0 (by omega) _).congr fun start result part => ?_
          simp
        · have hpush (rest : Array (Option Nat)) : (starts.push (some first)).push none ++ rest =
              starts ++ (#[some first, none] ++ rest) := Array.toList_inj.mp (by simp)
          refine (ih n (by omega) _).congr fun start result part => ?_
          simp [hpush]
    constructor
    · rintro ⟨_, _, _, ⟨rfl, rfl⟩, ⟨t, _, _, rfl, ⟨_, _, _, ⟨payload, hfits, rfl⟩,
        ⟨cs, hfill, rfl, rfl⟩, rfl⟩, rfl⟩, rfl⟩
      refine ⟨⟨t, payload, hfits⟩ :: cs, fill_cons.mpr ⟨by omega, hfill⟩, ?_, ?_⟩
      · simp [encode]
      · simp [slotStarts_cons, Constant.slots, encode, Nat.add_assoc, Nat.add_comm]
    · rintro ⟨cs, hfill, rfl, rfl⟩
      rcases cs with _ | ⟨c, cs⟩
      · cases fill_nil.mp hfill
      · obtain ⟨-, hrest⟩ := fill_cons.mp hfill
        have hstart : start + c.encode.length =
            start + 0 + 1 + (c.tag.spell c.payload).length := by
          simp only [encode, List.length_cons]
          omega
        refine ⟨start, [], _, ⟨rfl, rfl⟩, ⟨c.tag, _, _, rfl, ⟨(), _, _, ⟨c.payload, c.fits, rfl⟩,
          ⟨cs, hrest, rfl, ?_⟩, rfl⟩, rfl⟩, by simp [encode]⟩
        rw [slotStarts_cons, hstart]
        rfl

end Decoder
end JavaClass
