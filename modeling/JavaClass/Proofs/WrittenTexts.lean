import JavaClass.Proofs.Buffers
import JavaClass.Proofs.Texts

/-!
# Text in buffers and back

A buffer gets every unit of a text in the same form, the units of the plain characters in front too,
although their bytes are only copied. The form has no zero byte, its length is known beforehand, and
the checked reading accepts it as well as the trusted one.
-/

namespace JavaClass.ModifiedUtf8

/-! ## The bytes of a unit -/

/-- The six low bits behind their mark: `10xxxxxx`. -/
def trailer (u : UInt16) : UInt8 := (0x80 : UInt8) ||| (u &&& 0x3F).toUInt8

/-- One unit in bits: `0xxxxxxx`, `110xxxxx 10xxxxxx` or `1110xxxx 10xxxxxx 10xxxxxx`. Zero takes
the second form. -/
def unitBits (u : UInt16) : List UInt8 :=
  if u = 0 ∨ 0x80 ≤ u ∧ u < 0x800 then [(0xC0 : UInt8) ||| (u >>> 6).toUInt8, trailer u]
  else if u < 0x80 then [u.toUInt8]
  else [(0xE0 : UInt8) ||| (u >>> 12).toUInt8, trailer (u >>> 6), trailer u]

theorem mark_or {mark low : UInt8} {k a n : Nat} (hmark : mark.toNat = 2 ^ k * a)
    (hlow : low.toNat = n) (hn : n < 2 ^ k) (hsum : mark.toNat + n < 256) :
    mark ||| low = UInt8.ofNat (mark.toNat + n) := by
  apply UInt8.toNat_inj.mp
  rw [UInt8.toNat_or, toNat_byte hsum, hlow, hmark, Nat.two_pow_add_eq_or_of_lt hn]

theorem toNat_shiftRight {k : Nat} (u : UInt16) (hk : k < 16) :
    (u >>> UInt16.ofNat k).toNat = u.toNat / 2 ^ k := by
  have hshift : (UInt16.ofNat k).toNat % 16 = k := by
    rw [UInt16.toNat_ofNat_of_lt' (by show k < 65536; omega), Nat.mod_eq_of_lt hk]
  rw [UInt16.toNat_shiftRight, hshift, Nat.shiftRight_eq_div_pow]

theorem trailer_eq (u : UInt16) : trailer u = UInt8.ofNat (0x80 + u.toNat % 64) := by
  have hlow : (u &&& 0x3F).toUInt8.toNat = u.toNat % 64 := by
    have hmask := Nat.and_two_pow_sub_one_eq_mod u.toNat 6
    rw [UInt16.toNat_toUInt8, UInt16.toNat_and]
    show (u.toNat &&& (2 ^ 6 - 1)) % 2 ^ 8 = _
    omega
  exact mark_or (k := 6) (a := 2) rfl hlow (by omega) (by show 128 + _ < _; omega)

theorem ofUnit_eq_unitBits (u : UInt16) : ofUnit u = unitBits u := by
  have hu : u.toNat < 65536 := u.toNat_lt
  have hsix : (u >>> 6).toNat = u.toNat / 64 := toNat_shiftRight u (k := 6) (by decide)
  have htwelve : (u >>> 12).toNat = u.toNat / 4096 := toNat_shiftRight u (k := 12) (by decide)
  have hzero : u = 0 ↔ u.toNat = 0 := UInt16.toNat_inj.symm
  have hplain : 0x80 ≤ u ↔ 0x80 ≤ u.toNat := UInt16.le_iff_toNat_le
  have hplain' : u < 0x80 ↔ u.toNat < 0x80 := UInt16.lt_iff_toNat_lt
  have hwide : u < 0x800 ↔ u.toNat < 0x800 := UInt16.lt_iff_toNat_lt
  unfold ofUnit unitBits
  simp only [hzero, hplain, hplain', hwide, trailer_eq, hsix]
  by_cases hthree : 0x800 ≤ u.toNat
  · rw [if_pos hthree, if_neg (by omega), if_neg (by omega)]
    have hlead : (u >>> 12).toUInt8.toNat = u.toNat / 4096 := by
      rw [UInt16.toNat_toUInt8, htwelve]
      omega
    rw [mark_or (k := 4) (a := 14) rfl hlead (by omega) (by show 224 + _ < _; omega)]
    rfl
  · rw [if_neg hthree]
    by_cases htwo : 0x80 ≤ u.toNat ∨ u.toNat = 0
    · rw [if_pos htwo, if_pos (by omega)]
      have hlead : (u >>> 6).toUInt8.toNat = u.toNat / 64 := by
        rw [UInt16.toNat_toUInt8, hsix]
        omega
      rw [mark_or (k := 5) (a := 6) rfl hlead (by omega) (by show 192 + _ < _; omega)]
      rfl
    · rw [if_neg htwo, if_neg (by omega), if_pos (by omega)]
      rfl

/-! ## Lengths -/

theorem length_ofUnit (u : UInt16) : (ofUnit u).length = unitLength u := by
  unfold ofUnit unitLength
  grind

theorem ofNat_ne_zero {n : Nat} (hpos : 0 < n) (h : n < 256) : UInt8.ofNat n ≠ 0 := by
  intro hzero
  have hn : (UInt8.ofNat n).toNat = 0 := congrArg UInt8.toNat hzero
  rw [toNat_byte h] at hn
  omega

theorem ne_zero_of_mem_ofUnit {u : UInt16} {b : UInt8} (h : b ∈ ofUnit u) : b ≠ 0 := by
  have hu : u.toNat < 65536 := u.toNat_lt
  unfold ofUnit at h
  dsimp only at h
  split at h
  · simp only [List.mem_cons, List.not_mem_nil, or_false] at h
    rcases h with rfl | rfl | rfl
    · exact ofNat_ne_zero (by omega) (by omega)
    · exact ofNat_ne_zero (by omega) (by omega)
    · exact ofNat_ne_zero (by omega) (by omega)
  · split at h
    · simp only [List.mem_cons, List.not_mem_nil, or_false] at h
      rcases h with rfl | rfl
      · exact ofNat_ne_zero (by omega) (by omega)
      · exact ofNat_ne_zero (by omega) (by omega)
    · obtain rfl := List.mem_singleton.mp h
      exact ofNat_ne_zero (by omega) (by omega)

theorem zero_notMem_encode (text : String) : 0 ∉ (encode text).toList := by
  intro hmem
  have hunits : 0 ∈ (Utf16.encode text.toList).flatMap ofUnit := hmem
  obtain ⟨u, -, hu⟩ := List.mem_flatMap.mp hunits
  exact ne_zero_of_mem_ofUnit hu rfl

theorem size_encode (text : String) : (encode text).size = encodedLength text := by
  unfold encode encodedLength
  rw [List.size_toArray, List.length_flatMap, ← List.foldl_map (f := unitLength),
    ← List.sum_eq_foldl]
  congr 2
  funext u
  exact length_ofUnit u

/-- A zero character takes two bytes in the place of one, and one above U+FFFF six in the place of
four; no other grows. -/
theorem length_ofChar_le (c : Char) :
    ((Utf16.ofChar c).flatMap ofUnit).length ≤ 2 * c.utf8Size := by
  have hc := Utf16.toNat_lt c
  have hvalue : c.val.toNat = c.toNat := rfl
  have hsize : c.utf8Size = if c.toNat ≤ 0x7F then 1 else if c.toNat ≤ 0x7FF then 2
      else if c.toNat ≤ 0xFFFF then 3 else 4 := by
    unfold Char.utf8Size
    simp only [UInt32.le_iff_toNat_le, hvalue]
    rfl
  unfold Utf16.ofChar
  dsimp only
  split
  · rename_i hsmall
    rw [List.flatMap_cons, List.flatMap_nil, List.append_nil, length_ofUnit, unitLength,
      Utf16.toNat_unit hsmall, hsize]
    grind
  · rename_i hlarge
    have hunits (u : UInt16) : unitLength u ≤ 3 := by
      unfold unitLength
      grind
    rw [hsize, if_neg (by omega), if_neg (by omega), if_neg (by omega)]
    have hhigh := hunits (UInt16.ofNat (0xD800 + (c.toNat - 0x10000) / 0x400))
    have hlow := hunits (UInt16.ofNat (0xDC00 + (c.toNat - 0x10000) % 0x400))
    simp only [List.flatMap_cons, List.flatMap_nil, List.append_nil, List.length_append,
      length_ofUnit]
    omega

theorem size_encode_le (text : String) : (encode text).size ≤ 2 * text.utf8ByteSize := by
  have hsize : text.utf8ByteSize = String.utf8Len text.toList := by
    conv_lhs => rw [← String.ofList_toList (s := text)]
    exact String.utf8ByteSize_ofList _
  have hchars (chars : List Char) :
      ((Utf16.encode chars).flatMap ofUnit).length ≤ 2 * String.utf8Len chars := by
    induction chars with
    | nil => simp [Utf16.encode]
    | cons c chars ih =>
      have hc := length_ofChar_le c
      rw [Utf16.encode] at ih ⊢
      rw [List.flatMap_cons, List.flatMap_append, List.length_append, String.utf8Len_cons]
      omega
  rw [hsize, encode, List.size_toArray]
  exact hchars text.toList

/-! ## Reading checked text -/

theorem checkedUnitsInto_flatMap_ofUnit (read : Array UInt16) (offset : Nat)
    (units : List UInt16) : checkedUnitsInto read offset (units.flatMap ofUnit) =
      .ok () (read ++ units.toArray) := by
  obtain ⟨seqs, hsplits, hunits⟩ := exists_sequences_ofUnit units
  have hread := checkedUnitsInto_sequences read offset seqs []
  rw [List.append_nil, hsplits, hunits] at hread
  rw [hread, checkedUnitsInto]

theorem utf16_decode?_encode (text : List Char) :
    Utf16.decode? (Utf16.encode text) = some (String.ofList text) := by
  have hall : (Utf16.scalars (Utf16.encode text)).all (·.isSome) = true := by
    simp [Utf16.scalars_encode]
  rw [Utf16.decode?, if_pos hall, Utf16.decodeLossy_encode]

theorem decodeReusing?_encode (text : String) (scratch : Array UInt16) :
    decodeReusing? (encode text) scratch = .ok text (Utf16.encode text.toList).toArray := by
  have hread := checkedUnitsInto_flatMap_ofUnit (scratch.shrink 0) 0 (Utf16.encode text.toList)
  have hunits : scratch.shrink 0 ++ (Utf16.encode text.toList).toArray =
      (Utf16.encode text.toList).toArray := Array.toList_inj.mp (by simp)
  unfold decodeReusing?
  rw [encode, hread, hunits]
  simp [utf16_decode?_encode]

theorem decodeReusing_encode (text : String) (scratch : Array UInt16) :
    (decodeReusing scratch (encode text)).1 = text := by
  rw [fst_decodeReusing, ← decode_eq_walk, decode_encode]

theorem encode_injective : Function.Injective encode := by
  intro text other h
  have htext := decode_encode text
  rwa [h, decode_encode, eq_comm] at htext

/-! ## Texts in buffers -/

theorem isValid_of_findIdx? {text : String} {first : Nat}
    (h : text.toByteArray.data.findIdx? (fun byte => !isPlainByte byte) = some first) :
    String.Pos.Raw.IsValid text ⟨first⟩ := by
  rw [findIdx?_utf8] at h
  split at h
  · cases h
  · obtain rfl := Option.some.inj h
    have hplain : ∀ c ∈ text.toList.takeWhile isPlain, isPlain c = true :=
      List.all_eq_true.mp List.all_takeWhile
    refine String.Pos.Raw.isValid_iff_exists_append.mpr
      ⟨String.ofList (text.toList.takeWhile isPlain), String.ofList (text.toList.dropWhile isPlain),
        ?_, ?_⟩
    · rw [← String.ofList_append, List.takeWhile_append_dropWhile, String.ofList_toList]
    · rw [String.rawEndPos_ofList, utf8Len_plain hplain]

/-- A text is appended to a buffer as the bits of all its units, from wherever on they are encoded
and whatever the buffer is. The bytes are as many as told, hold no zero, and determine the text:
both ways of reading give it back. -/
theorem putText_reads_back (b : ByteBuffer) :
    (∀ text : String,
      let bytes := (Utf16.encode text.toList).flatMap unitBits
      (b.putTextCounted text).2.toList = b.toList ++ bytes ∧
      (∀ first, text.toByteArray.data.findIdx? (fun byte => !isPlainByte byte) = some first →
        String.Pos.Raw.IsValid text ⟨first⟩) ∧
      (b.putTextCounted text).1 = encodedLength text ∧ encodedLength text = bytes.length ∧
      encodedLength text ≤ 2 * text.utf8ByteSize ∧ 0 ∉ bytes ∧
      (∀ scratch, (decodeReusing scratch bytes.toArray).1 = text) ∧
      (∀ scratch, ∃ units, decodeReusing? bytes.toArray scratch = .ok text units)) ∧
    unitBits 0 = [0xC0, 0x80] ∧
    (∀ u, Utf16.isHigh u = true ∨ Utf16.isLow u = true → (unitBits u).length = 3) ∧
    Function.Injective fun text => (b.putText text).toList := by
  have hbits (text : String) :
      (encode text).toList = (Utf16.encode text.toList).flatMap unitBits := by
    rw [encode, funext ofUnit_eq_unitBits]
  refine ⟨fun text => ?_, rfl, fun u hu => ?_, fun text other h => ?_⟩
  · have harray : ((Utf16.encode text.toList).flatMap unitBits).toArray = encode text := by
      rw [← hbits, Array.toArray_toList]
    have hcount : (b.putTextCounted text).1 = (encode text).size := by
      simp only [Buffer.putTextCounted, Buffer.size_eq, Buffer.toList_putText, List.length_append,
        Array.length_toList]
      omega
    have hlength : encodedLength text = ((Utf16.encode text.toList).flatMap unitBits).length := by
      rw [← size_encode, ← hbits, Array.length_toList]
    refine ⟨?_, fun first => isValid_of_findIdx?, ?_, hlength, ?_, ?_, fun scratch => ?_,
      fun scratch => ?_⟩
    · rw [← hbits]
      exact Buffer.toList_putText b text
    · rw [hcount, size_encode]
    · rw [← size_encode]
      exact size_encode_le text
    · rw [← hbits]
      exact zero_notMem_encode text
    · rw [harray, decodeReusing_encode]
    · rw [harray]
      exact ⟨_, decodeReusing?_encode text scratch⟩
  · rw [← ofUnit_eq_unitBits, length_ofUnit]
    have hrange : 0x800 ≤ u.toNat := by
      simp only [Utf16.isHigh, Utf16.isLow, Bool.and_eq_true, decide_eq_true_eq] at hu
      omega
    unfold unitLength
    rw [if_neg (by omega), if_neg (by omega), if_neg (by omega)]
  · have htexts : b.toList ++ (encode text).toList = b.toList ++ (encode other).toList := by
      simpa using h
    exact encode_injective (Array.toList_inj.mp (List.append_cancel_left htexts))

end JavaClass.ModifiedUtf8
