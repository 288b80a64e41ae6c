import JavaClass.Proofs.CheckedTexts
import Mathlib.Data.Nat.Bitwise

/-!
# Text that is trusted

The walk over bytes that nobody has checked, byte by byte at their offsets and in the bits that they
are put together from. It stays inside, whatever the bytes are, and the shortcuts for plain bytes do
not change what it reads.
-/

namespace JavaClass

namespace Utf16

/-- The characters that units spell. A surrogate spells none, unless it is the high one in front of
a low one. -/
inductive Spells : List UInt16 → List (Option Char) → Prop
  | nil : Spells [] []
  | char (c : Char) {rest : List UInt16} {chars : List (Option Char)} (tail : Spells rest chars) :
      Spells (ofChar c ++ rest) (some c :: chars)
  | unpaired {u : UInt16} {rest : List UInt16} {chars : List (Option Char)}
      (surrogate : isHigh u = true ∨ isLow u = true)
      (alone : isHigh u = true → ∀ v ∈ rest.head?, isLow v = false) (tail : Spells rest chars) :
      Spells (u :: rest) (none :: chars)

theorem scalarsInto_unpaired (read : Array (Option Char)) {u : UInt16} {rest : List UInt16}
    (surrogate : isHigh u = true ∨ isLow u = true)
    (alone : isHigh u = true → ∀ v ∈ rest.head?, isLow v = false) :
    scalarsInto read (u :: rest) = scalarsInto (read.push none) rest := by
  cases rest with
  | nil => simp [scalarsInto, surrogate]
  | cons v rest =>
    have hpair : ¬(isHigh u && isLow v) = true := by
      intro h
      rw [Bool.and_eq_true] at h
      simp [alone h.1 v rfl] at h
    simp [scalarsInto, hpair, surrogate]

theorem Spells.scalarsInto_eq {units : List UInt16} {chars : List (Option Char)}
    (h : Spells units chars) (read : Array (Option Char)) :
    scalarsInto read units = read ++ chars.toArray := by
  induction h generalizing read with
  | nil => simp [scalarsInto]
  | char c _ ih =>
    rw [scalarsInto_ofChar, ih]
    simp
  | unpaired surrogate alone _ ih =>
    rw [scalarsInto_unpaired read surrogate alone, ih]
    simp

theorem Spells.exists_single {u : UInt16} {rest : List UInt16} {chars : List (Option Char)}
    (high : isHigh u = false) (low : isLow u = false) (tail : Spells rest chars) :
    ∃ more, Spells (u :: rest) more := by
  obtain ⟨c, hc⟩ := exists_ofChar_single high low
  have h := tail.char c
  rw [hc] at h
  exact ⟨_, h⟩

theorem exists_spells (read : Array (Option Char)) (units : List UInt16) :
    ∃ chars, Spells units chars := by
  fun_induction scalarsInto read units with
  | case1 => exact ⟨[], .nil⟩
  | case2 read u =>
    by_cases hsurrogate : isHigh u = true ∨ isLow u = true
    · exact ⟨_, .unpaired hsurrogate (by simp) .nil⟩
    · rw [not_or, Bool.not_eq_true, Bool.not_eq_true] at hsurrogate
      exact Spells.exists_single hsurrogate.1 hsurrogate.2 .nil
  | case3 read u v rest hpair ih =>
    rw [Bool.and_eq_true] at hpair
    obtain ⟨chars, htail⟩ := ih
    obtain ⟨c, hc⟩ := exists_ofChar_pair hpair.1 hpair.2
    have h := htail.char c
    rw [hc] at h
    exact ⟨_, h⟩
  | case4 read u v rest hpair hsurrogate ih =>
    obtain ⟨chars, htail⟩ := ih
    rw [Bool.or_eq_true] at hsurrogate
    refine ⟨_, .unpaired hsurrogate (fun hhigh w hw => ?_) htail⟩
    obtain rfl := Option.some.inj hw
    simpa [hhigh] using hpair
  | case5 read u v rest hpair hsurrogate ih =>
    obtain ⟨chars, htail⟩ := ih
    simp only [Bool.or_eq_true, not_or, Bool.not_eq_true] at hsurrogate
    exact Spells.exists_single hsurrogate.1 hsurrogate.2 htail

theorem spells_iff {units : List UInt16} {chars : List (Option Char)} :
    Spells units chars ↔ chars = scalars units := by
  have hunique {others : List (Option Char)} (h : Spells units others) :
      others = scalars units := by
    rw [scalars, h.scalarsInto_eq, Array.empty_append, List.toList_toArray]
  constructor
  · exact hunique
  · rintro rfl
    obtain ⟨others, h⟩ := exists_spells #[] units
    exact hunique h ▸ h

end Utf16

namespace ModifiedUtf8

/-! ## The walk at offsets -/

/-- The six low bits of the byte at the offset. Behind the end they are zero. -/
def trailAt (bytes : Bytes) (i : Nat) : UInt16 :=
  (bytes[i]?.map fun b => (b &&& 0x3F).toUInt16).getD 0

/-- Appends the units from the offset on. Bit 7 and then bit 5 of the lead byte decide how far the
walk goes; only the lead byte has to be inside. -/
def walkFrom (bytes : Bytes) (read : Array UInt16) (i : Nat) : Except Error (Array UInt16) :=
  if i < bytes.size then do
    let b ← bytes.byteAt i
    if b &&& 0x80 = 0 then walkFrom bytes (read.push b.toUInt16) (i + 1)
    else if b &&& 0x20 ≠ 0 then
      walkFrom bytes (read.push ((b.toUInt16 &&& 0x0F) <<< 12 ||| trailAt bytes (i + 1) <<< 6 |||
        trailAt bytes (i + 2))) (i + 3)
    else walkFrom bytes (read.push ((b.toUInt16 &&& 0x1F) <<< 6 ||| trailAt bytes (i + 1))) (i + 2)
  else .ok read
termination_by bytes.size - i

/-- As `decodeReusing`, in bits and at offsets. Bytes without bit 7 have to be UTF-8 already. -/
def decodeAt (scratch : Array UInt16) (bytes : Bytes) : Except Error (String × Array UInt16) :=
  match bytes.findIdx? (fun b => b &&& 0x80 != 0) with
  | none =>
    match String.fromUTF8? ⟨bytes⟩ with
    | some text => .ok (text, scratch)
    | none => .error (.malformedText 0)
  | some first => do
    let plain ← bytes.slice 0 first
    let units ← walkFrom bytes (scratch.shrink 0 ++ plain.map UInt8.toUInt16) first
    return (Utf16.decodeLossy units.toList, units)

/-! ## Bits -/

theorem bit_eq_zero_iff {b mask : UInt8} {k : Nat} (hmask : mask.toNat = 2 ^ k) :
    b &&& mask = 0 ↔ b.toNat / 2 ^ k % 2 = 0 := by
  rw [← UInt8.toNat_inj, UInt8.toNat_and, hmask, Nat.and_two_pow, Nat.testBit_eq_decide_div_mod_eq]
  rcases Nat.mod_two_eq_zero_or_one (b.toNat / 2 ^ k) with h | h
  · simp [h]
  · simp [h]

theorem plain_iff {b : UInt8} : b &&& 0x80 = 0 ↔ b.toNat < 0x80 := by
  have hb : b.toNat < 256 := b.toNat_lt
  rw [bit_eq_zero_iff (k := 7) rfl]
  omega

theorem wide_iff {b : UInt8} : b &&& 0x20 ≠ 0 ↔ b.toNat / 32 % 2 = 1 := by
  rw [ne_eq, bit_eq_zero_iff (k := 5) rfl]
  omega

theorem toNat_or_of_shifted {high low : UInt16} {k a : Nat} (hhigh : high.toNat = 2 ^ k * a)
    (hlow : low.toNat < 2 ^ k) : (high ||| low).toNat = 2 ^ k * a + low.toNat := by
  rw [UInt16.toNat_or, hhigh, Nat.two_pow_add_eq_or_of_lt hlow]

theorem toNat_shiftLeft {k : Nat} (u : UInt16) (hk : k < 16) (hu : u.toNat * 2 ^ k < 65536) :
    (u <<< UInt16.ofNat k).toNat = 2 ^ k * u.toNat := by
  have hshift : (UInt16.ofNat k).toNat % 16 = k := by
    rw [UInt16.toNat_ofNat_of_lt' (by show k < 65536; omega), Nat.mod_eq_of_lt hk]
  rw [UInt16.toNat_shiftLeft, hshift, Nat.shiftLeft_eq, Nat.mod_eq_of_lt hu, Nat.mul_comm]

theorem toNat_trailAt (bytes : Bytes) (i : Nat) :
    (trailAt bytes i).toNat = (bytes[i]?.getD 0).toNat % 64 := by
  unfold trailAt
  cases bytes[i]? with
  | none => rfl
  | some b =>
    show (b &&& 0x3F).toUInt16.toNat = b.toNat % 64
    rw [UInt8.toNat_toUInt16, UInt8.toNat_and]
    exact Nat.and_two_pow_sub_one_eq_mod b.toNat 6

theorem twoByteUnit_of_bits (bytes : Bytes) (b : UInt8) (i : Nat) :
    (b.toUInt16 &&& 0x1F) <<< 6 ||| trailAt bytes i = twoByteUnit b bytes[i]? := by
  have htrail := toNat_trailAt bytes i
  have hlead : (b.toUInt16 &&& 0x1F).toNat = b.toNat % 32 := by
    rw [UInt16.toNat_and, UInt8.toNat_toUInt16]
    exact Nat.and_two_pow_sub_one_eq_mod b.toNat 5
  have hhigh : ((b.toUInt16 &&& 0x1F) <<< 6).toNat = 2 ^ 6 * (b.toNat % 32) := by
    rw [← hlead]
    exact toNat_shiftLeft _ (k := 6) (by decide) (by omega)
  apply UInt16.toNat_inj.mp
  rw [toNat_or_of_shifted hhigh (by omega), htrail, twoByteUnit, Utf16.toNat_unit (by omega)]
  omega

theorem threeByteUnit_of_bits (bytes : Bytes) (b : UInt8) (i j : Nat) :
    (b.toUInt16 &&& 0x0F) <<< 12 ||| trailAt bytes i <<< 6 ||| trailAt bytes j =
      threeByteUnit b bytes[i]? bytes[j]? := by
  have hnext := toNat_trailAt bytes i
  have hlast := toNat_trailAt bytes j
  have hlead : (b.toUInt16 &&& 0x0F).toNat = b.toNat % 16 := by
    rw [UInt16.toNat_and, UInt8.toNat_toUInt16]
    exact Nat.and_two_pow_sub_one_eq_mod b.toNat 4
  have hhigh : ((b.toUInt16 &&& 0x0F) <<< 12).toNat = 2 ^ 12 * (b.toNat % 16) := by
    rw [← hlead]
    exact toNat_shiftLeft _ (k := 12) (by decide) (by omega)
  have hmiddle : (trailAt bytes i <<< 6).toNat = 2 ^ 6 * (trailAt bytes i).toNat :=
    toNat_shiftLeft _ (k := 6) (by decide) (by omega)
  have hfront : ((b.toUInt16 &&& 0x0F) <<< 12 ||| trailAt bytes i <<< 6).toNat =
      2 ^ 6 * (b.toNat % 16 * 64 + (trailAt bytes i).toNat) := by
    rw [toNat_or_of_shifted hhigh (by omega), hmiddle]
    omega
  apply UInt16.toNat_inj.mp
  rw [toNat_or_of_shifted hfront (by omega), hnext, hlast, threeByteUnit,
    Utf16.toNat_unit (by omega)]
  omega

/-! ## The walk and its shortcuts -/

theorem walkFrom_eq (bytes : Bytes) (read : Array UInt16) (i : Nat) :
    walkFrom bytes read i = .ok (unitsInto read (bytes.toList.drop i)) := by
  induction hleft : bytes.size - i using Nat.strong_induction_on generalizing read i with
  | _ left ih =>
    rw [walkFrom]
    split
    · rename_i hi
      have hbyte : bytes.byteAt i = .ok bytes[i] := by
        rw [Bytes.byteAt, Array.getElem?_eq_getElem hi]
      have hdrop : bytes.toList.drop i = bytes[i] :: bytes.toList.drop (i + 1) := by
        rw [List.drop_eq_getElem_cons (by simpa using hi), Array.getElem_toList]
      have hnext : (bytes.toList.drop (i + 1))[0]? = bytes[i + 1]? := by simp
      have hlast : (bytes.toList.drop (i + 1))[1]? = bytes[i + 2]? := by simp
      rw [hbyte, hdrop, unitsInto, hnext, hlast, List.drop_drop, List.drop_drop]
      show (if _ then _ else _) = _
      simp only [plain_iff, wide_iff, twoByteUnit_of_bits, threeByteUnit_of_bits]
      split
      · exact ih _ (by omega) _ _ rfl
      · split
        · exact ih _ (by omega) _ _ rfl
        · exact ih _ (by omega) _ _ rfl
    · rename_i hi
      rw [List.drop_eq_nil_of_le (by simpa using hi), unitsInto]

theorem size_unitsInto_le (read : Array UInt16) (bytes : List UInt8) :
    (unitsInto read bytes).size ≤ read.size + bytes.length := by
  fun_induction unitsInto read bytes with
  | case1 read => simp
  | case2 read b rest hplain ih =>
    simp only [Array.size_push] at ih
    simp only [List.length_cons]
    omega
  | case3 read b rest hplain hwide ih =>
    simp only [Array.size_push, List.length_drop] at ih
    simp only [List.length_cons]
    omega
  | case4 read b rest hplain hwide ih =>
    simp only [Array.size_push, List.length_drop] at ih
    simp only [List.length_cons]
    omega

/-! ## Plain bytes are UTF-8 -/

theorem utf8_of_plain {b : UInt8} (h : b.toNat < 0x80) :
    String.utf8EncodeChar (Char.ofNat b.toNat) = [b] := by
  have hc : (Char.ofNat b.toNat).val.toNat = b.toNat := Utf16.char_toNat_ofNat (by omega)
  simp only [String.utf8EncodeChar, hc, if_pos (Nat.le_of_lt_succ h)]
  simp

theorem toByteArray_of_plain {bytes : Bytes} (h : ∀ b ∈ bytes.toList, b.toNat < 0x80) :
    (String.ofList (bytes.toList.map fun b => Char.ofNat b.toNat)).toByteArray = ⟨bytes⟩ := by
  have hflat : (bytes.toList.map fun b => Char.ofNat b.toNat).flatMap String.utf8EncodeChar =
      bytes.toList := by
    rw [List.flatMap_map]
    exact (List.flatMap_congr fun b hb => utf8_of_plain (h b hb)).trans (List.flatMap_singleton' _)
  apply ByteArray.ext
  rw [data_toByteArray, String.toList_ofList, hflat]

theorem fromUTF8?_toByteArray (text : String) : String.fromUTF8? text.toByteArray = some text := by
  unfold String.fromUTF8?
  rw [dif_pos text.isValidUTF8]
  rfl

theorem decodeAt_eq (scratch : Array UInt16) (bytes : Bytes) :
    decodeAt scratch bytes = .ok (decodeReusing scratch bytes) := by
  have hbit : (fun b : UInt8 => b &&& 0x80 != 0) = fun b => decide (0x80 ≤ b.toNat) := by
    funext b
    rw [Bool.eq_iff_iff, bne_iff_ne, ne_eq, plain_iff, decide_eq_true_eq, Nat.not_lt]
  unfold decodeAt
  rw [hbit]
  cases hfirst : bytes.findIdx? (fun b => 0x80 ≤ b.toNat) with
  | none =>
    rw [decodeReusing_of_plain scratch hfirst,
      ← toByteArray_of_plain (plain_of_findIdx? hfirst), fromUTF8?_toByteArray]
  | some first =>
    obtain ⟨hlt, -, -⟩ := Array.findIdx?_eq_some_iff_getElem.mp hfirst
    have hslice : bytes.slice 0 first = .ok (bytes.extract 0 first) :=
      if_pos ⟨Nat.zero_le _, hlt.le⟩
    have hwalk := walkFrom_eq bytes
    unfold decodeReusing
    rw [hfirst]
    simp only [hslice, hwalk, bind, Except.bind, pure, Except.pure]

theorem snd_decodeReusing (scratch : Array UInt16) (bytes : Bytes) :
    (decodeReusing scratch bytes).2 =
      if bytes.any (fun b => 0x80 ≤ b.toNat) then unitsInto #[] bytes.toList else scratch := by
  have hany : (bytes.findIdx? fun b => 0x80 ≤ b.toNat).isSome =
      bytes.any fun b => 0x80 ≤ b.toNat := Array.findIdx?_isSome
  rw [← hany]
  cases hfirst : bytes.findIdx? (fun b => 0x80 ≤ b.toNat) with
  | none =>
    rw [decodeReusing_of_plain scratch hfirst]
    rfl
  | some first =>
    rw [decodeReusing_of_first scratch hfirst]
    rfl

/-- A walk from the first byte gets through any bytes, in no more units than there are bytes.
Decoding does not leave the bytes either, and gives the characters that those units spell, whatever
the scratch array holds. -/
theorem trusted_text_is_walked (bytes : Bytes) :
    ∃ units, walkFrom bytes #[] 0 = .ok units ∧ units.size ≤ bytes.size ∧
      ∀ scratch, decodeAt scratch bytes = .ok (decodeReusing scratch bytes) ∧
        (∀ text, (decodeReusing scratch bytes).1 = text ↔ ∃ chars, Utf16.Spells units.toList chars ∧
          text = String.ofList (chars.map (·.getD Utf16.replacement))) ∧
        (decodeReusing scratch bytes).2 =
          if bytes.any (fun b => 0x80 ≤ b.toNat) then units else scratch := by
  refine ⟨unitsInto #[] bytes.toList, walkFrom_eq bytes #[] 0, ?_, fun scratch =>
    ⟨decodeAt_eq scratch bytes, fun text => ?_, snd_decodeReusing scratch bytes⟩⟩
  · simpa using size_unitsInto_le #[] bytes.toList
  · rw [fst_decodeReusing]
    simp only [Utf16.spells_iff, exists_eq_left]
    exact eq_comm

end ModifiedUtf8

end JavaClass
