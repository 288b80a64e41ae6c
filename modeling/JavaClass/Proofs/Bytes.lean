import JavaClass.Packing
import Mathlib.Data.List.Induction
import Mathlib.Data.List.Infix
import Mathlib.Tactic.Ring

/-!
# Numbers and parts of byte strings

Big-endian numbers and their bytes determine each other. A part stands at an offset of a byte
string, and a checked read succeeds exactly where the part it reads for stands.
-/

namespace JavaClass

/-! ## Big-endian numbers -/

namespace BigEndian

@[simp] theorem length_encode (width n : Nat) : (encode width n).length = width := by
  induction width with
  | zero => rfl
  | succ width ih => simp [encode, ih]

theorem encode_succ (width n : Nat) :
    encode (width + 1) n = UInt8.ofNat (n / 256 ^ width) :: encode width n := by
  rw [encode, Nat.shiftRight_eq_div_pow, pow_mul]
  rfl

theorem decode_append (x y : List UInt8) :
    decode (x ++ y) = decode x * 256 ^ y.length + decode y := by
  induction y using List.reverseRecOn with
  | nil => simp [decode]
  | append_singleton y b ih =>
    have hstep (l : List UInt8) : decode (l ++ [b]) = 256 * decode l + b.toNat := by simp [decode]
    rw [← List.append_assoc, hstep, hstep, ih, List.length_append, List.length_singleton, pow_succ]
    ring

theorem decode_cons (b : UInt8) (l : List UInt8) :
    decode (b :: l) = b.toNat * 256 ^ l.length + decode l := by
  simpa [decode] using decode_append [b] l

theorem decode_lt (l : List UInt8) : decode l < 256 ^ l.length := by
  induction l with
  | nil => simp [decode]
  | cons b l ih =>
    have hb : b.toNat + 1 ≤ 256 := b.toNat_lt
    calc decode (b :: l) = b.toNat * 256 ^ l.length + decode l := decode_cons b l
      _ < (b.toNat + 1) * 256 ^ l.length := by rw [add_mul, one_mul]; omega
      _ ≤ 256 * 256 ^ l.length := Nat.mul_le_mul_right _ hb
      _ = 256 ^ (b :: l).length := by rw [List.length_cons, pow_succ, mul_comm]

theorem decode_encode (width n : Nat) : decode (encode width n) = n % 256 ^ width := by
  induction width with
  | zero => simp [encode, decode, Nat.mod_one]
  | succ width ih =>
    have hdigit : (UInt8.ofNat (n / 256 ^ width)).toNat = n / 256 ^ width % 256 := by simp
    rw [encode_succ, decode_cons, ih, length_encode, hdigit, pow_succ, Nat.mod_mul]
    ring

theorem encode_add_mul (width n k : Nat) : encode width (n + 256 ^ width * k) = encode width n := by
  induction width generalizing k with
  | zero => rfl
  | succ width ih =>
    have hsplit : 256 ^ (width + 1) * k = 256 ^ width * (256 * k) := by ring
    rw [encode_succ, encode_succ, hsplit, ih, Nat.add_mul_div_left _ _ (Nat.pow_pos (by decide))]
    congr 1
    apply UInt8.toNat_inj.mp
    simp

theorem encode_decode (l : List UInt8) : encode l.length (decode l) = l := by
  induction l with
  | nil => rfl
  | cons b l ih =>
    have hsum : decode (b :: l) = decode l + 256 ^ l.length * b.toNat := by rw [decode_cons]; ring
    have hdigit : decode (b :: l) / 256 ^ l.length = b.toNat := by
      rw [hsum, Nat.add_mul_div_left _ _ (Nat.pow_pos (by decide)), Nat.div_eq_of_lt (decode_lt l), zero_add]
    rw [List.length_cons, encode_succ, hdigit, hsum, encode_add_mul, ih, UInt8.ofNat_toNat]

end BigEndian

/-! ## Words -/

@[simp] theorem length_bytes16 (v : UInt16) : (bytes16 v).length = 2 := BigEndian.length_encode 2 _
@[simp] theorem length_bytes32 (v : UInt32) : (bytes32 v).length = 4 := BigEndian.length_encode 4 _
@[simp] theorem length_bytes64 (v : UInt64) : (bytes64 v).length = 8 := BigEndian.length_encode 8 _

theorem ofNat_decode_bytes16 (v : UInt16) : UInt16.ofNat (BigEndian.decode (bytes16 v)) = v := by
  unfold bytes16
  rw [BigEndian.decode_encode, Nat.mod_eq_of_lt (by simpa using v.toNat_lt),
    UInt16.ofNat_toNat]

theorem ofNat_decode_bytes32 (v : UInt32) : UInt32.ofNat (BigEndian.decode (bytes32 v)) = v := by
  unfold bytes32
  rw [BigEndian.decode_encode, Nat.mod_eq_of_lt (by simpa using v.toNat_lt),
    UInt32.ofNat_toNat]

theorem ofNat_decode_bytes64 (v : UInt64) : UInt64.ofNat (BigEndian.decode (bytes64 v)) = v := by
  unfold bytes64
  rw [BigEndian.decode_encode, Nat.mod_eq_of_lt (by simpa using v.toNat_lt),
    UInt64.ofNat_toNat]

theorem bytes16_ofNat_decode (l : List UInt8) (h : l.length = 2) :
    bytes16 (UInt16.ofNat (BigEndian.decode l)) = l := by
  have hlt := BigEndian.decode_lt l
  rw [h] at hlt
  unfold bytes16
  rw [UInt16.toNat_ofNat_of_lt' hlt, ← h, BigEndian.encode_decode]

theorem bytes32_ofNat_decode (l : List UInt8) (h : l.length = 4) :
    bytes32 (UInt32.ofNat (BigEndian.decode l)) = l := by
  have hlt := BigEndian.decode_lt l
  rw [h] at hlt
  unfold bytes32
  rw [UInt32.toNat_ofNat_of_lt' hlt, ← h, BigEndian.encode_decode]

theorem bytes64_ofNat_decode (l : List UInt8) (h : l.length = 8) :
    bytes64 (UInt64.ofNat (BigEndian.decode l)) = l := by
  have hlt := BigEndian.decode_lt l
  rw [h] at hlt
  unfold bytes64
  rw [UInt64.toNat_ofNat_of_lt' hlt, ← h, BigEndian.encode_decode]

theorem bytes16_injective : Function.Injective bytes16 := fun a b h => by
  rw [← ofNat_decode_bytes16 a, h, ofNat_decode_bytes16]

/-! ## Parts -/

namespace Bytes

variable {bytes : Bytes} {offset : Nat} {part x y : List UInt8}

/-- The part stands in the bytes at the offset. -/
def HasAt (bytes : Bytes) (offset : Nat) (part : List UInt8) : Prop :=
  offset ≤ bytes.size ∧ part <+: bytes.toList.drop offset

theorem hasAt_iff_append : HasAt bytes offset part ↔
    ∃ before after, bytes.toList = before ++ part ++ after ∧ before.length = offset := by
  constructor
  · rintro ⟨hle, after, h⟩
    refine ⟨bytes.toList.take offset, after, ?_, by simpa using hle⟩
    rw [List.append_assoc, h, List.take_append_drop]
  · rintro ⟨before, after, h, rfl⟩
    have hsize : bytes.size = (before ++ part ++ after).length := by rw [← h, Array.length_toList]
    exact ⟨by rw [hsize]; simp, after, by simp [h]⟩

theorem hasAt_nil (h : offset ≤ bytes.size) : HasAt bytes offset [] := ⟨h, List.nil_prefix⟩

theorem HasAt.le (h : HasAt bytes offset part) : offset + part.length ≤ bytes.size := by
  have hstart := h.1
  have hle := List.IsPrefix.length_le h.2
  have hsize : bytes.toList.length = bytes.size := Array.length_toList
  rw [List.length_drop, hsize] at hle
  omega

theorem HasAt.extract_eq (h : HasAt bytes offset part) :
    bytes.extract offset (offset + part.length) = part.toArray := by
  apply Array.toList_inj.mp
  rw [Array.toList_extract, List.extract_eq_take_drop, Nat.add_sub_cancel_left]
  exact (List.prefix_iff_eq_take.mp h.2).symm

theorem hasAt_extract (bytes : Bytes) (offset n : Nat) (h : offset + n ≤ bytes.size) :
    HasAt bytes offset (bytes.extract offset (offset + n)).toList := by
  refine ⟨by omega, ?_⟩
  rw [Array.toList_extract, List.extract_eq_take_drop]
  exact List.take_prefix _ _

theorem hasAt_append : HasAt bytes offset (x ++ y) ↔
    HasAt bytes offset x ∧ HasAt bytes (offset + x.length) y := by
  constructor
  · intro h
    have hx : HasAt bytes offset x := ⟨h.1, (List.prefix_append x y).trans h.2⟩
    refine ⟨hx, hx.le, ?_⟩
    simpa [List.drop_drop] using List.IsPrefix.drop h.2 x.length
  · rintro ⟨hx, hy⟩
    obtain ⟨rest, hrest⟩ := hx.2
    have hdrop : bytes.toList.drop (offset + x.length) = rest := by
      rw [← List.drop_drop, ← hrest, List.drop_left]
    refine ⟨hx.1, ?_⟩
    rw [← hrest, List.prefix_append_right_inj, ← hdrop]
    exact hy.2

theorem hasAt_singleton {b : UInt8} : HasAt bytes offset [b] ↔ bytes[offset]? = some b := by
  constructor
  · intro h
    obtain ⟨before, after, hsplit, rfl⟩ := hasAt_iff_append.mp h
    rw [← Array.getElem?_toList, hsplit]
    simp
  · intro h
    obtain ⟨hlt, rfl⟩ := Array.getElem?_eq_some_iff.mp h
    have hdrop : bytes.toList.drop offset = bytes[offset] :: bytes.toList.drop (offset + 1) := by
      rw [List.drop_eq_getElem_cons (by simpa using hlt), Array.getElem_toList]
    exact ⟨hlt.le, by simp [hdrop]⟩

theorem hasAt_cons {b : UInt8} : HasAt bytes offset (b :: part) ↔
    bytes[offset]? = some b ∧ HasAt bytes (offset + 1) part := by
  rw [← List.singleton_append, hasAt_append, hasAt_singleton, List.length_singleton]

/-! ## Checked reads -/

theorem slice_eq_ok {start stop : Nat} {content : Bytes} :
    bytes.slice start stop = .ok content ↔
      stop = start + content.size ∧ HasAt bytes start content.toList := by
  unfold slice
  constructor
  · intro h
    split at h
    · rename_i hle
      obtain rfl := Except.ok.inj h
      have hstop : start + (stop - start) = stop := by omega
      refine ⟨by simp; omega, ?_⟩
      have hpart := hasAt_extract bytes start (stop - start) (by omega)
      rwa [hstop] at hpart
    · simp at h
  · rintro ⟨rfl, h⟩
    have hle := h.le
    have heq := h.extract_eq
    rw [Array.length_toList] at hle heq
    rw [if_pos ⟨by omega, hle⟩, heq]

theorem window_eq_ok {width : Nat} :
    bytes.window offset width = .ok part ↔ part.length = width ∧ HasAt bytes offset part := by
  unfold window
  constructor
  · intro h
    cases hs : bytes.slice offset (offset + width) with
    | error e => simp [hs] at h
    | ok content =>
      rw [hs] at h
      obtain rfl := Except.ok.inj h
      have hat := slice_eq_ok.mp hs
      exact ⟨by rw [Array.length_toList]; omega, hat.2⟩
  · rintro ⟨rfl, h⟩
    have hs : bytes.slice offset (offset + part.length) = .ok part.toArray :=
      slice_eq_ok.mpr ⟨by simp, h⟩
    rw [hs]
    rfl

theorem byteAt_eq_ok {b : UInt8} : bytes.byteAt offset = .ok b ↔ HasAt bytes offset [b] := by
  rw [hasAt_singleton]
  unfold byteAt
  cases bytes[offset]? <;> simp

theorem word_eq_ok {β : Type} {spell : β → List UInt8} {value : List UInt8 → β} {width : Nat}
    (hlen : ∀ v, (spell v).length = width) (hspell : ∀ l, l.length = width → spell (value l) = l)
    (hvalue : ∀ v, value (spell v) = v) (v : β) :
    value <$> bytes.window offset width = .ok v ↔ HasAt bytes offset (spell v) := by
  constructor
  · intro h
    cases hw : bytes.window offset width with
    | error e => simp [hw] at h
    | ok part =>
      obtain ⟨hpart, hat⟩ := window_eq_ok.mp hw
      rw [hw] at h
      obtain rfl := Except.ok.inj h
      rwa [hspell part hpart]
  · intro h
    rw [window_eq_ok.mpr ⟨hlen v, h⟩]
    exact congrArg Except.ok (hvalue v)

theorem get16_eq_ok {v : UInt16} : bytes.get16 offset = .ok v ↔ HasAt bytes offset (bytes16 v) :=
  word_eq_ok length_bytes16 bytes16_ofNat_decode ofNat_decode_bytes16 v

theorem get32_eq_ok {v : UInt32} : bytes.get32 offset = .ok v ↔ HasAt bytes offset (bytes32 v) :=
  word_eq_ok length_bytes32 bytes32_ofNat_decode ofNat_decode_bytes32 v

theorem get64_eq_ok {v : UInt64} : bytes.get64 offset = .ok v ↔ HasAt bytes offset (bytes64 v) :=
  word_eq_ok length_bytes64 bytes64_ofNat_decode ofNat_decode_bytes64 v

theorem word_matches {β : Type} [BEq β] [LawfulBEq β] {spell : β → List UInt8}
    {value : List UInt8 → β} {width : Nat} (hspell : ∀ l, l.length = width → spell (value l) = l)
    (hvalue : ∀ v, value (spell v) = v) (v : β) (h : HasAt bytes offset part)
    (hlen : part.length = width) :
    (· == v) <$> (value <$> bytes.window offset width) = .ok (part == spell v) := by
  rw [window_eq_ok.mpr ⟨hlen, h⟩]
  show Except.ok (value part == v) = _
  congr 1
  rw [Bool.eq_iff_iff, beq_iff_eq, beq_iff_eq]
  constructor
  · rintro rfl
    exact (hspell part hlen).symm
  · rintro rfl
    exact hvalue v

theorem holds16_eq_ok {v : UInt16} (h : HasAt bytes offset part) (hlen : part.length = 2) :
    bytes.holds16 offset v = .ok (part == bytes16 v) :=
  word_matches bytes16_ofNat_decode ofNat_decode_bytes16 v h hlen

theorem holds32_eq_ok {v : UInt32} (h : HasAt bytes offset part) (hlen : part.length = 4) :
    bytes.holds32 offset v = .ok (part == bytes32 v) :=
  word_matches bytes32_ofNat_decode ofNat_decode_bytes32 v h hlen

theorem holds64_eq_ok {v : UInt64} (h : HasAt bytes offset part) (hlen : part.length = 8) :
    bytes.holds64 offset v = .ok (part == bytes64 v) :=
  word_matches bytes64_ofNat_decode ofNat_decode_bytes64 v h hlen

/-! ## Patches -/

@[simp] theorem size_overwrite (bytes : Bytes) (offset : Nat) (values : List UInt8) :
    (overwrite bytes offset values).size = bytes.size := by
  induction values generalizing bytes offset with
  | nil => rfl
  | cons v values ih => rw [overwrite, ih, Array.size_setIfInBounds]

theorem toList_overwrite (before old after values : List UInt8) (hlen : old.length = values.length)
    (h : bytes.toList = before ++ old ++ after) :
    (overwrite bytes before.length values).toList = before ++ values ++ after := by
  induction values generalizing bytes before old with
  | nil =>
    obtain rfl := List.eq_nil_of_length_eq_zero hlen
    exact h
  | cons v values ih =>
    obtain ⟨o, old, rfl⟩ := List.exists_cons_of_length_eq_add_one hlen
    have hset : (bytes.setIfInBounds before.length v).toList = (before ++ [v]) ++ old ++ after := by
      simp [h]
    have hrest := ih (before ++ [v]) old (by simpa using hlen) hset
    simpa [overwrite] using hrest

end Bytes
end JavaClass
