import JavaClass.Proofs.Sequences

/-!
# Text there and back

Encoded text is read back as it was, whatever its characters. Reading is one walk over the bytes;
that plain bytes in front are copied makes no difference.
-/

namespace JavaClass

namespace Utf16

theorem toNat_lt (c : Char) : c.toNat < 0xD800 ∨ 0xDFFF < c.toNat ∧ c.toNat < 0x110000 := c.valid

theorem toNat_unit {n : Nat} (h : n < 0x10000) : (UInt16.ofNat n).toNat = n :=
  UInt16.toNat_ofNat_of_lt' h

/-! ## Characters in units -/

theorem scalarsInto_single (read : Array (Option Char)) (u : UInt16) (rest : List UInt16)
    (h : u.toNat < 0xD800 ∨ 0xDFFF < u.toNat) :
    scalarsInto read (u :: rest) = scalarsInto (read.push (some (Char.ofNat u.toNat))) rest := by
  have hhigh : isHigh u = false := by
    simp only [isHigh, Bool.and_eq_false_iff, decide_eq_false_iff_not]
    omega
  have hlow : isLow u = false := by
    simp only [isLow, Bool.and_eq_false_iff, decide_eq_false_iff_not]
    omega
  cases rest with
  | nil => simp [scalarsInto, hhigh, hlow]
  | cons v rest => simp [scalarsInto, hhigh, hlow]

theorem scalarsInto_pair (read : Array (Option Char)) (u v : UInt16) (rest : List UInt16)
    (hhigh : isHigh u = true) (hlow : isLow v = true) :
    scalarsInto read (u :: v :: rest) = scalarsInto (read.push (some (pair u v))) rest := by
  simp [scalarsInto, hhigh, hlow]

theorem scalarsInto_ofChar (read : Array (Option Char)) (c : Char) (rest : List UInt16) :
    scalarsInto read (ofChar c ++ rest) = scalarsInto (read.push (some c)) rest := by
  have hc := toNat_lt c
  unfold ofChar
  dsimp only
  split
  · rename_i hsmall
    have hunit := toNat_unit hsmall
    rw [List.singleton_append, scalarsInto_single read _ rest (by omega), hunit, Char.ofNat_toNat]
  · rename_i hlarge
    have hhighUnit := toNat_unit (n := 0xD800 + (c.toNat - 0x10000) / 0x400) (by omega)
    have hlowUnit := toNat_unit (n := 0xDC00 + (c.toNat - 0x10000) % 0x400) (by omega)
    have hhigh : isHigh (UInt16.ofNat (0xD800 + (c.toNat - 0x10000) / 0x400)) = true := by
      simp only [isHigh, hhighUnit, Bool.and_eq_true, decide_eq_true_eq]
      omega
    have hlow : isLow (UInt16.ofNat (0xDC00 + (c.toNat - 0x10000) % 0x400)) = true := by
      simp only [isLow, hlowUnit, Bool.and_eq_true, decide_eq_true_eq]
      omega
    have hpair : pair (UInt16.ofNat (0xD800 + (c.toNat - 0x10000) / 0x400))
        (UInt16.ofNat (0xDC00 + (c.toNat - 0x10000) % 0x400)) = c := by
      have hvalue : 0x10000 + (0xD800 + (c.toNat - 0x10000) / 0x400 - 0xD800) * 0x400 +
          (0xDC00 + (c.toNat - 0x10000) % 0x400 - 0xDC00) = c.toNat := by omega
      rw [pair, hhighUnit, hlowUnit, hvalue, Char.ofNat_toNat]
    rw [List.cons_append, List.singleton_append, scalarsInto_pair read _ _ rest hhigh hlow, hpair]

theorem scalarsInto_encode (read : Array (Option Char)) (text : List Char) :
    scalarsInto read (encode text) = read ++ (text.map some).toArray := by
  induction text generalizing read with
  | nil => simp [encode, scalarsInto]
  | cons c text ih =>
    have hrest := ih (read.push (some c))
    rw [encode] at hrest ⊢
    rw [List.flatMap_cons, scalarsInto_ofChar, hrest]
    simp

theorem scalars_encode (text : List Char) : scalars (encode text) = text.map some := by
  simp [scalars, scalarsInto_encode]

theorem decodeLossy_encode (text : List Char) : decodeLossy (encode text) = String.ofList text := by
  simp [decodeLossy, scalars_encode, Function.comp_def]

theorem scalarsInto_plain (read : Array (Option Char)) (units : List UInt16)
    (h : ∀ u ∈ units, u.toNat < 0x80) :
    scalarsInto read units = read ++ (units.map fun u => some (Char.ofNat u.toNat)).toArray := by
  induction units generalizing read with
  | nil => simp [scalarsInto]
  | cons u units ih =>
    have hu := h u (by simp)
    rw [scalarsInto_single read u units (by omega), ih _ fun v hv => h v (by simp [hv])]
    simp

end Utf16

namespace ModifiedUtf8

/-! ## Units in bytes -/

theorem unitsInto_plain (read : Array UInt16) (bytes rest : List UInt8)
    (h : ∀ b ∈ bytes, b.toNat < 0x80) :
    unitsInto read (bytes ++ rest) =
      unitsInto (read ++ (bytes.map UInt8.toUInt16).toArray) rest := by
  induction bytes generalizing read with
  | nil => simp
  | cons b bytes ih =>
    rw [List.cons_append, unitsInto, if_pos (h b (by simp)), ih _ fun c hc => h c (by simp [hc])]
    simp

theorem unitsInto_flatMap_ofUnit (read : Array UInt16) (units : List UInt16) :
    unitsInto read (units.flatMap ofUnit) = read ++ units.toArray := by
  obtain ⟨seqs, hsplits, hunits⟩ := exists_sequences_ofUnit units
  rw [← hsplits, unitsInto_sequences, hunits]

/-! ## Reading trusted text -/

theorem plain_of_findIdx? {bytes : Bytes} (h : bytes.findIdx? (fun b => 0x80 ≤ b.toNat) = none) :
    ∀ b ∈ bytes.toList, b.toNat < 0x80 := by
  intro b hb
  simpa using Array.findIdx?_eq_none_iff.mp h b (Array.mem_def.mpr hb)

theorem decodeReusing_of_plain (scratch : Array UInt16) {bytes : Bytes}
    (h : bytes.findIdx? (fun b => 0x80 ≤ b.toNat) = none) :
    decodeReusing scratch bytes =
      (String.ofList (bytes.toList.map fun b => Char.ofNat b.toNat), scratch) := by
  unfold decodeReusing
  rw [h]

theorem decodeReusing_of_first (scratch : Array UInt16) {bytes : Bytes} {first : Nat}
    (h : bytes.findIdx? (fun b => 0x80 ≤ b.toNat) = some first) :
    decodeReusing scratch bytes =
      (Utf16.decodeLossy (unitsInto #[] bytes.toList).toList, unitsInto #[] bytes.toList) := by
  obtain ⟨hlt, -, hbefore⟩ := Array.findIdx?_eq_some_iff_getElem.mp h
  have hplain : ∀ b ∈ bytes.toList.take first, b.toNat < 0x80 := by
    intro b hb
    obtain ⟨i, hi, rfl⟩ := List.mem_take_iff_getElem.mp hb
    have hi' := hbefore i (by omega)
    simpa using hi'
  have hwalk := unitsInto_plain #[] (bytes.toList.take first) (bytes.toList.drop first) hplain
  rw [List.take_append_drop] at hwalk
  have hcopied : scratch.shrink 0 ++ (bytes.extract 0 first).map UInt8.toUInt16 =
      #[] ++ ((bytes.toList.take first).map UInt8.toUInt16).toArray :=
    Array.toList_inj.mp (by simp)
  unfold decodeReusing
  rw [h]
  simp only [hwalk, ← hcopied]

/-- The copied front and the shortcut for plain text give what a walk from the first byte gives,
whatever the scratch array holds. -/
theorem fst_decodeReusing (scratch : Array UInt16) (bytes : Bytes) :
    (decodeReusing scratch bytes).1 = Utf16.decodeLossy (unitsInto #[] bytes.toList).toList := by
  cases hfirst : bytes.findIdx? (fun b => 0x80 ≤ b.toNat) with
  | none =>
    have hplain := plain_of_findIdx? hfirst
    have hwalk := unitsInto_plain #[] bytes.toList [] hplain
    rw [List.append_nil] at hwalk
    have hunits : ∀ u ∈ bytes.toList.map UInt8.toUInt16, u.toNat < 0x80 := by
      intro u hu
      obtain ⟨b, hb, rfl⟩ := List.mem_map.mp hu
      rw [UInt8.toNat_toUInt16]
      exact hplain b hb
    have hscalars := Utf16.scalarsInto_plain #[] _ hunits
    rw [decodeReusing_of_plain scratch hfirst, hwalk, unitsInto]
    simp only [Utf16.decodeLossy, Utf16.scalars, Array.empty_append, hscalars]
    simp [Function.comp_def]
  | some first => rw [decodeReusing_of_first scratch hfirst]

theorem decode_eq_walk (bytes : Bytes) :
    decode bytes = Utf16.decodeLossy (unitsInto #[] bytes.toList).toList :=
  fst_decodeReusing #[] bytes

theorem decode_encode (text : String) : decode (encode text) = text := by
  rw [decode_eq_walk, encode, unitsInto_flatMap_ofUnit]
  simp [Utf16.decodeLossy_encode]

end ModifiedUtf8
end JavaClass
