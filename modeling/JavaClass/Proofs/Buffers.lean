import JavaClass.Buffer.Text
import JavaClass.Proofs.Bytes
import Mathlib.Data.String.Basic

/-!
# What buffers hold

Every appending operation adds its bytes at the end and nothing else; room is reserved on the side.
A text is written in two halves, and the second one starts where a character starts.
-/

namespace JavaClass

/-! ## Plain characters -/

namespace ModifiedUtf8

/-- A character that is its own single byte in plain and in modified UTF-8. -/
def isPlain (c : Char) : Bool := 0 < c.toNat && c.toNat < 0x80

theorem isPlain_iff {c : Char} : isPlain c = true ↔ 0 < c.toNat ∧ c.toNat < 0x80 := by
  simp [isPlain]

theorem ofUnit_of_isPlain {c : Char} (h : isPlain c = true) :
    Utf16.ofChar c = [UInt16.ofNat c.toNat] ∧
      ofUnit (UInt16.ofNat c.toNat) = [UInt8.ofNat c.toNat] := by
  rw [isPlain_iff] at h
  have hunit : (UInt16.ofNat c.toNat).toNat = c.toNat := UInt16.toNat_ofNat_of_lt' (by
    show c.toNat < 65536
    omega)
  refine ⟨?_, ?_⟩
  · rw [Utf16.ofChar, if_pos (by omega)]
  · rw [ofUnit, hunit, if_neg (by omega), if_neg (by omega)]

theorem flatMap_ofUnit_plain {text : List Char} (h : ∀ c ∈ text, isPlain c = true) :
    (Utf16.encode text).flatMap ofUnit = text.map fun c => UInt8.ofNat c.toNat := by
  induction text with
  | nil => rfl
  | cons c text ih =>
    obtain ⟨hchar, hunit⟩ := ofUnit_of_isPlain (h c (by simp))
    have hrest := ih fun d hd => h d (by simp [hd])
    simp only [Utf16.encode] at hrest
    simp [Utf16.encode, hchar, hunit, hrest]

/-! ## Where the plain bytes of a text end -/

theorem utf8_of_isPlain {c : Char} (h : isPlain c = true) :
    String.utf8EncodeChar c = [UInt8.ofNat c.toNat] ∧ isPlainByte (UInt8.ofNat c.toNat) = true := by
  rw [isPlain_iff] at h
  have hbyte : (UInt8.ofNat c.toNat).toNat = c.toNat := UInt8.toNat_ofNat_of_lt' (by
    show c.toNat < 256
    omega)
  refine ⟨?_, ?_⟩
  · have hsmall : c.val.toNat ≤ 127 := by
      have := h.2
      rw [Char.toNat] at this
      omega
    simp only [String.utf8EncodeChar, if_pos hsmall]
    rfl
  · simp only [isPlainByte, Bool.and_eq_true, bne_iff_ne, ne_eq, decide_eq_true_eq,
      ← UInt8.toNat_inj, UInt8.lt_iff_toNat_lt, hbyte]
    exact ⟨by simp; omega, h.2⟩

theorem utf8_of_not_isPlain {c : Char} (h : ¬ isPlain c = true) : ∃ lead more,
    String.utf8EncodeChar c = lead :: more ∧ isPlainByte lead = false := by
  rw [isPlain_iff] at h
  have hvalue : c.val.toNat = c.toNat := rfl
  have hbyte {n : Nat} (hn : n < 256) (hstop : n = 0 ∨ 0x80 ≤ n) :
      isPlainByte (UInt8.ofNat n) = false := by
    have htoNat : (UInt8.ofNat n).toNat = n := UInt8.toNat_ofNat_of_lt' hn
    simp only [isPlainByte, Bool.and_eq_false_iff, bne_eq_false_iff_eq, decide_eq_false_iff_not,
      ← UInt8.toNat_inj, UInt8.lt_iff_toNat_lt, htoNat]
    rcases hstop with rfl | hlarge
    · exact .inl rfl
    · exact .inr (by simp; omega)
  unfold String.utf8EncodeChar
  simp only [hvalue]
  split
  · exact ⟨_, [], rfl, hbyte (by omega) (by omega)⟩
  · split
    · exact ⟨_, _, rfl, hbyte (by omega) (by omega)⟩
    · split
      · exact ⟨_, _, rfl, hbyte (by omega) (by omega)⟩
      · exact ⟨_, _, rfl, hbyte (by omega) (by omega)⟩

theorem data_toByteArray (text : String) :
    text.toByteArray.data = (text.toList.flatMap String.utf8EncodeChar).toArray := by
  have h : text = String.ofList text.toList := String.ofList_toList.symm
  rw [h, String.toByteArray_ofList, String.toList_ofList]
  simp [List.utf8Encode]

theorem flatMap_utf8_plain {text : List Char} (h : ∀ c ∈ text, isPlain c = true) :
    text.flatMap String.utf8EncodeChar = text.map fun c => UInt8.ofNat c.toNat := by
  induction text with
  | nil => rfl
  | cons c text ih =>
    rw [List.flatMap_cons, List.map_cons, (utf8_of_isPlain (h c (by simp))).1,
      ih fun d hd => h d (by simp [hd])]
    rfl

theorem findIdx?_utf8 (text : String) :
    text.toByteArray.data.findIdx? (fun byte => !isPlainByte byte) =
      if text.toList.dropWhile isPlain = [] then none
      else some (text.toList.takeWhile isPlain).length := by
  have hplain : ∀ c ∈ text.toList.takeWhile isPlain, isPlain c = true :=
    List.all_eq_true.mp List.all_takeWhile
  have hfront : ((text.toList.takeWhile isPlain).map fun c => UInt8.ofNat c.toNat).findIdx?
      (fun byte => !isPlainByte byte) = none := by
    rw [List.findIdx?_eq_none_iff]
    intro byte hbyte
    obtain ⟨c, hc, rfl⟩ := List.mem_map.mp hbyte
    simp [(utf8_of_isPlain (hplain c hc)).2]
  rw [data_toByteArray, List.findIdx?_toArray,
    ← List.takeWhile_append_dropWhile (p := isPlain) (l := text.toList), List.flatMap_append,
    flatMap_utf8_plain hplain, List.findIdx?_append, hfront,
    List.takeWhile_append_dropWhile (p := isPlain) (l := text.toList)]
  cases hrest : text.toList.dropWhile isPlain with
  | nil => rfl
  | cons c rest =>
    have hc : ¬ isPlain c = true := by
      have hhead := List.head_dropWhile_not isPlain (l := text.toList) (by simp [hrest])
      simpa [hrest] using hhead
    obtain ⟨lead, more, hlead, hstop⟩ := utf8_of_not_isPlain hc
    simp [hlead, hstop, List.findIdx?_cons]

theorem utf8Len_plain {text : List Char} (h : ∀ c ∈ text, isPlain c = true) :
    String.utf8Len text = text.length := by
  induction text with
  | nil => rfl
  | cons c text ih =>
    have hc := isPlain_iff.mp (h c (by simp))
    have hsize : c.utf8Size = 1 := by
      rw [Char.utf8Size_eq_one_iff, UInt32.le_iff_toNat_le]
      have hvalue : c.val.toNat = c.toNat := rfl
      rw [hvalue]
      show c.toNat ≤ 127
      omega
    rw [String.utf8Len_cons, hsize, ih fun d hd => h d (by simp [hd]), List.length_cons]

theorem extract_utf8 (text : String) :
    String.Pos.Raw.extract text ⟨(text.toList.takeWhile isPlain).length⟩ text.rawEndPos =
      String.ofList (text.toList.dropWhile isPlain) := by
  have hplain : ∀ c ∈ text.toList.takeWhile isPlain, isPlain c = true :=
    List.all_eq_true.mp List.all_takeWhile
  have hextract := String.extract_of_valid (text.toList.takeWhile isPlain)
    (text.toList.dropWhile isPlain) []
  rw [List.append_nil, List.takeWhile_append_dropWhile, String.ofList_toList,
    ← String.utf8Len_append, List.takeWhile_append_dropWhile, utf8Len_plain hplain] at hextract
  rw [← hextract]
  congr
  rw [← String.rawEndPos_ofList, String.ofList_toList]

end ModifiedUtf8

namespace Buffer

variable {α : Type}

/-- What the buffer holds. -/
def toList (b : Buffer α) : List α := b.data.toList

theorem size_eq (b : Buffer α) : b.size = b.toList.length := (Array.length_toList).symm

@[simp] theorem toList_withPolicy (capacity : Nat) (growth : Growth) :
    (withPolicy capacity growth : Buffer α).toList = [] := rfl

@[simp] theorem toList_withCapacity (capacity : Nat) :
    (withCapacity capacity : Buffer α).toList = [] := rfl

@[simp] theorem data_reserve (b : Buffer α) (n : Nat) : (b.reserve n).data = b.data := by
  unfold reserve tryReserve
  dsimp only
  split <;> rfl

@[simp] theorem toList_reserve (b : Buffer α) (n : Nat) : (b.reserve n).toList = b.toList := by
  simp [toList]

@[simp] theorem toList_write (b : Buffer α) (values : List α) :
    (b.write values).toList = b.toList ++ values := by
  simp [toList, write]

@[simp] theorem toList_append (b : Buffer α) (values : Array α) :
    (b.append values).toList = b.toList ++ values.toList := by
  simp [toList, append]

@[simp] theorem toList_truncate (b : Buffer α) (n : Nat) :
    (b.truncate n).toList = b.toList.take n := by
  simp [toList, truncate]

section Bytes

variable (b : ByteBuffer)

@[simp] theorem toList_put (values : List UInt8) : (b.put values).toList = b.toList ++ values := by
  simp [put]

@[simp] theorem toList_skip (n : Nat) : (b.skip n).toList = b.toList ++ List.replicate n 0 := by
  simp [skip]

@[simp] theorem toList_put8 (v : UInt8) : (b.put8 v).toList = b.toList ++ [v] := by
  simp [put8, push, toList]

@[simp] theorem toList_put16 (v : UInt16) : (b.put16 v).toList = b.toList ++ bytes16 v :=
  toList_put b _

@[simp] theorem toList_putMemberHeader (flags name descriptor : UInt16) :
    (b.putMemberHeader flags name descriptor).toList =
      b.toList ++ (bytes16 flags ++ bytes16 name ++ bytes16 descriptor) :=
  toList_put b _

@[simp] theorem toList_putAttributeHeader (name : UInt16) (length : UInt32) :
    (b.putAttributeHeader name length).toList = b.toList ++ (bytes16 name ++ bytes32 length) :=
  toList_put b _

@[simp] theorem toList_putWordAttribute (name : UInt16) (length : UInt32) (value : UInt16) :
    (b.putWordAttribute name length value).toList =
      b.toList ++ (bytes16 name ++ bytes32 length ++ bytes16 value) :=
  toList_put b _

@[simp] theorem toList_putReference (tag : UInt8) (index : UInt16) :
    (b.putReference tag index).toList = b.toList ++ tag :: bytes16 index :=
  toList_put b _

/-- Both halves of a text, the plain characters and the rest, are written in the same form. -/
@[simp] theorem toList_putText (text : String) :
    (b.putText text).toList = b.toList ++ (ModifiedUtf8.encode text).toList := by
  have hplain : ∀ c ∈ text.toList.takeWhile ModifiedUtf8.isPlain, ModifiedUtf8.isPlain c = true :=
    List.all_eq_true.mp List.all_takeWhile
  have hsplit := List.takeWhile_append_dropWhile (p := ModifiedUtf8.isPlain) (l := text.toList)
  have hencode : (ModifiedUtf8.encode text).toList =
      (text.toList.takeWhile ModifiedUtf8.isPlain).map (fun c => UInt8.ofNat c.toNat) ++
        (Utf16.encode (text.toList.dropWhile ModifiedUtf8.isPlain)).flatMap ModifiedUtf8.ofUnit := by
    rw [← ModifiedUtf8.flatMap_ofUnit_plain hplain, ← List.flatMap_append, Utf16.encode,
      Utf16.encode, ← List.flatMap_append, hsplit]
    rfl
  have hbytes : text.toByteArray.data.toList =
      (text.toList.takeWhile ModifiedUtf8.isPlain).map (fun c => UInt8.ofNat c.toNat) ++
        (text.toList.dropWhile ModifiedUtf8.isPlain).flatMap String.utf8EncodeChar := by
    rw [ModifiedUtf8.data_toByteArray, ← ModifiedUtf8.flatMap_utf8_plain hplain,
      ← List.flatMap_append, hsplit]
  unfold putText
  dsimp only
  rw [ModifiedUtf8.findIdx?_utf8, hencode]
  by_cases hrest : text.toList.dropWhile ModifiedUtf8.isPlain = []
  · rw [if_pos hrest]
    simp [hbytes, hrest, Utf16.encode]
  · rw [if_neg hrest]
    simp [hbytes, ModifiedUtf8.extract_utf8]

theorem toList_overwrite (before old after values : List UInt8)
    (hlen : old.length = values.length) (h : b.toList = before ++ old ++ after) :
    (b.overwrite before.length values).toList = before ++ values ++ after :=
  Bytes.toList_overwrite before old after values hlen h

end Bytes
end Buffer
end JavaClass
