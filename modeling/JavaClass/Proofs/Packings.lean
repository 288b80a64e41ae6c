import JavaClass.Proofs.Bytes
import JavaClass.Proofs.Steps

/-!
# Two ways to keep words

Converting a whole window and shifting byte after byte give the same words and the same bytes. Only
where a word does not fit does it show which way was taken: a comparison of four or eight bytes one
by one may have answered already.
-/

namespace JavaClass

/-! ## Bytes as digits -/

namespace BigEndian

theorem or_of_bytes16 (a b : UInt8) :
    a.toUInt16 <<< 8 ||| b.toUInt16 = UInt16.ofNat (decode [a, b]) := by
  have ha := a.toNat_lt
  have hb := b.toNat_lt
  have hhigh : (a.toUInt16 <<< 8).toNat = 2 ^ 8 * a.toNat := by
    simp [Nat.shiftLeft_eq]
    omega
  apply UInt16.toNat_inj.mp
  rw [UInt16.toNat_or, hhigh, UInt8.toNat_toUInt16, ← Nat.two_pow_add_eq_or_of_lt hb]
  simp [decode]
  omega

theorem or_of_bytes32 (a b c d : UInt8) :
    a.toUInt32 <<< 24 ||| b.toUInt32 <<< 16 ||| c.toUInt32 <<< 8 ||| d.toUInt32 =
      UInt32.ofNat (decode [a, b, c, d]) := by
  have ha := a.toNat_lt
  have hb := b.toNat_lt
  have hc := c.toNat_lt
  have hd := d.toNat_lt
  have hfirst : (a.toUInt32 <<< 24).toNat = 2 ^ 24 * a.toNat := by
    simp [Nat.shiftLeft_eq]
    omega
  have hsecond : (b.toUInt32 <<< 16).toNat = 2 ^ 16 * b.toNat := by
    simp [Nat.shiftLeft_eq]
    omega
  have hthird : (c.toUInt32 <<< 8).toNat = 2 ^ 8 * c.toNat := by
    simp [Nat.shiftLeft_eq]
    omega
  have htwo : 2 ^ 24 * a.toNat ||| 2 ^ 16 * b.toNat = 2 ^ 16 * (2 ^ 8 * a.toNat + b.toNat) := by
    rw [← Nat.two_pow_add_eq_or_of_lt (by omega)]
    omega
  have hthree : 2 ^ 16 * (2 ^ 8 * a.toNat + b.toNat) ||| 2 ^ 8 * c.toNat =
      2 ^ 8 * (2 ^ 16 * a.toNat + 2 ^ 8 * b.toNat + c.toNat) := by
    rw [← Nat.two_pow_add_eq_or_of_lt (by omega)]
    omega
  apply UInt32.toNat_inj.mp
  rw [UInt32.toNat_or, UInt32.toNat_or, UInt32.toNat_or, hfirst, hsecond, hthird,
    UInt8.toNat_toUInt32, htwo, hthree, ← Nat.two_pow_add_eq_or_of_lt hd]
  simp [decode]
  omega

theorem or_of_words64 {x y : List UInt8} (hx : x.length = 4) (hy : y.length = 4) :
    (UInt32.ofNat (decode x)).toUInt64 <<< 32 ||| (UInt32.ofNat (decode y)).toUInt64 =
      UInt64.ofNat (decode (x ++ y)) := by
  have hhigh : decode x < 2 ^ 32 := by
    have := decode_lt x
    rwa [hx] at this
  have hlow : decode y < 2 ^ 32 := by
    have := decode_lt y
    rwa [hy] at this
  have hshift : ((UInt32.ofNat (decode x)).toUInt64 <<< 32).toNat = 2 ^ 32 * decode x := by
    simp [Nat.shiftLeft_eq]
    omega
  have hword : (UInt32.ofNat (decode y)).toUInt64.toNat = decode y := by
    rw [UInt32.toNat_toUInt64, UInt32.toNat_ofNat_of_lt' hlow]
  apply UInt64.toNat_inj.mp
  rw [UInt64.toNat_or, hshift, hword, ← Nat.two_pow_add_eq_or_of_lt hlow, decode_append, hy,
    UInt64.toNat_ofNat_of_lt' (by show _ < 2 ^ 64; omega)]
  omega

theorem encode_add (k m n : Nat) : encode (k + m) n = encode k (n / 256 ^ m) ++ encode m n := by
  induction k with
  | zero => rw [zero_add, encode, List.nil_append]
  | succ k ih =>
    rw [Nat.add_right_comm, encode_succ, encode_succ, ih, Nat.div_div_eq_div_mul, ← pow_add,
      Nat.add_comm m k]
    rfl

end BigEndian

theorem bytes16_eq (v : UInt16) : bytes16 v = [(v >>> 8).toUInt8, v.toUInt8] := by
  simp [bytes16, BigEndian.encode, ← UInt8.toNat_inj]

theorem bytes32_eq (v : UInt32) : bytes32 v =
    [(v >>> 24).toUInt8, (v >>> 16).toUInt8, (v >>> 8).toUInt8, v.toUInt8] := by
  simp [bytes32, BigEndian.encode, ← UInt8.toNat_inj]

theorem bytes64_eq (v : UInt64) :
    bytes64 v = bytes32 (v >>> 32).toUInt32 ++ bytes32 v.toUInt32 := by
  have hv : v.toNat < 2 ^ 64 := v.toNat_lt
  have hhigh : (v >>> 32).toUInt32.toNat = v.toNat / 256 ^ 4 := by
    simp [Nat.shiftRight_eq_div_pow]
    omega
  have hlow : BigEndian.encode 4 v.toUInt32.toNat = BigEndian.encode 4 v.toNat := by
    have hsplit : v.toNat = v.toUInt32.toNat + 256 ^ 4 * (v.toNat / 256 ^ 4) := by
      rw [UInt64.toNat_toUInt32]
      omega
    conv_rhs => rw [hsplit, BigEndian.encode_add_mul]
  rw [bytes32, bytes32, hhigh, hlow]
  exact BigEndian.encode_add 4 4 v.toNat

/-! ## Windows and patches in parts -/

namespace Bytes

variable {bytes : Bytes} {offset : Nat} {x y : List UInt8} {v : UInt8} {n : Nat}

theorem window_error (h : bytes.size < offset + n) :
    bytes.window offset n = .error .outOfRange := by
  unfold window slice
  rw [if_neg (by omega)]
  rfl

theorem byteAt_error (h : bytes.size ≤ offset) : bytes.byteAt offset = .error .outOfRange := by
  unfold byteAt
  rw [Array.getElem?_eq_none h]

theorem exists_part (h : offset + n ≤ bytes.size) :
    ∃ part : List UInt8, part.length = n ∧ bytes.HasAt offset part := by
  refine ⟨_, ?_, hasAt_extract bytes offset n h⟩
  simp
  omega

theorem window_add (bytes : Bytes) (offset k n : Nat) : bytes.window offset (k + n) = do
    let x ← bytes.window offset k
    let y ← bytes.window (offset + k) n
    return x ++ y := by
  by_cases hfirst : offset + k ≤ bytes.size
  · obtain ⟨x, rfl, hx⟩ := exists_part hfirst
    rw [window_eq_ok.mpr ⟨rfl, hx⟩, except_ok_bind]
    by_cases hsecond : offset + x.length + n ≤ bytes.size
    · obtain ⟨y, rfl, hy⟩ := exists_part hsecond
      rw [window_eq_ok.mpr ⟨rfl, hy⟩, except_ok_bind]
      exact window_eq_ok.mpr ⟨List.length_append, hasAt_append.mpr ⟨hx, hy⟩⟩
    · have hmissing : bytes.window (offset + x.length) n = .error .outOfRange :=
        window_error (by omega)
      rw [hmissing, window_error (by omega)]
      rfl
  · rw [window_error (n := k) (by omega), window_error (by omega)]
    rfl

theorem window_one (bytes : Bytes) (offset : Nat) :
    bytes.window offset 1 = (fun b => [b]) <$> bytes.byteAt offset := by
  by_cases h : offset < bytes.size
  · obtain ⟨part, hlen, hpart⟩ := exists_part (n := 1) h
    obtain ⟨b, rfl⟩ := List.length_eq_one_iff.mp hlen
    rw [window_eq_ok.mpr ⟨hlen, hpart⟩, byteAt_eq_ok.mpr hpart]
    rfl
  · rw [window_error (by omega), byteAt_error (by omega)]
    rfl

theorem overwrite_append (bytes : Bytes) (offset : Nat) (x y : List UInt8) :
    overwrite bytes offset (x ++ y) =
      overwrite (overwrite bytes offset x) (offset + x.length) y := by
  induction x generalizing bytes offset with
  | nil => rfl
  | cons v x ih =>
    rw [List.cons_append, overwrite, ih, overwrite, List.length_cons, Nat.add_assoc,
      Nat.add_comm 1]

theorem patch_error (h : bytes.size < offset + x.length) :
    bytes.patch offset x = .error .outOfRange := by
  unfold patch
  rw [if_neg (by omega)]

theorem patch_append (bytes : Bytes) (offset : Nat) (x y : List UInt8) :
    bytes.patch offset (x ++ y) = bytes.patch offset x >>= (·.patch (offset + x.length) y) := by
  by_cases hx : offset + x.length ≤ bytes.size
  · have hfirst : bytes.patch offset x = .ok (overwrite bytes offset x) := if_pos hx
    rw [hfirst, except_ok_bind]
    unfold patch
    rw [size_overwrite, overwrite_append, List.length_append, Nat.add_assoc]
  · rw [patch_error (x := x) (by omega), patch_error (by rw [List.length_append]; omega)]
    rfl

end Bytes

/-! ## Words byte after byte -/

namespace Packing.Bytewise

open BigEndian

variable {bytes : Bytes} {offset : Nat} {l x y part : List UInt8}

theorem get16_eq (bytes : Bytes) (offset : Nat) :
    get16 bytes offset = windowed.get16 bytes offset := by
  show _ = (UInt16.ofNat ∘ decode) <$> bytes.window offset (1 + 1)
  simp only [Bytes.window_add, Bytes.window_one, map_bind, bind_map_left, map_pure]
  refine bind_congr fun a => bind_congr fun b => ?_
  rw [or_of_bytes16]
  rfl

theorem get32_eq (bytes : Bytes) (offset : Nat) :
    get32 bytes offset = windowed.get32 bytes offset := by
  show _ = (UInt32.ofNat ∘ decode) <$> bytes.window offset (1 + (1 + (1 + 1)))
  simp only [Bytes.window_add, Bytes.window_one, map_bind, bind_map_left, map_pure, bind_assoc,
    pure_bind]
  refine bind_congr fun a => bind_congr fun b => bind_congr fun c => bind_congr fun d => ?_
  rw [or_of_bytes32]
  rfl

theorem get64_eq (bytes : Bytes) (offset : Nat) :
    get64 bytes offset = windowed.get64 bytes offset := by
  show _ = (UInt64.ofNat ∘ decode) <$> bytes.window offset (4 + 4)
  unfold get64
  simp only [get32_eq, windowed, Bytes.window_add, map_bind, bind_map_left, map_pure]
  refine except_bind_congr fun x hx => except_bind_congr fun y hy => ?_
  have hword := or_of_words64 (Bytes.window_eq_ok.mp hx).1 (Bytes.window_eq_ok.mp hy).1
  exact congrArg pure hword

theorem set8_eq (bytes : Bytes) (offset : Nat) (v : UInt8) :
    set8 bytes offset v = bytes.patch offset [v] := by
  unfold set8 Bytes.patch
  split
  · rename_i h
    rw [if_pos (show offset + [v].length ≤ bytes.size from h), Bytes.overwrite, Bytes.overwrite,
      Array.setIfInBounds,
      dif_pos h]
  · rename_i h
    rw [if_neg (show ¬offset + [v].length ≤ bytes.size from h)]

theorem patch_cons (bytes : Bytes) (offset : Nat) (v : UInt8) (l : List UInt8) :
    bytes.patch offset (v :: l) = set8 bytes offset v >>= (·.patch (offset + 1) l) := by
  rw [set8_eq]
  exact Bytes.patch_append bytes offset [v] l

theorem set16_eq (bytes : Bytes) (offset : Nat) (v : UInt16) :
    set16 bytes offset v = windowed.set16 bytes offset v := by
  show _ = bytes.patch offset (bytes16 v)
  rw [bytes16_eq, patch_cons]
  exact bind_congr fun bytes => set8_eq bytes _ _

theorem set32_eq (bytes : Bytes) (offset : Nat) (v : UInt32) :
    set32 bytes offset v = windowed.set32 bytes offset v := by
  show _ = bytes.patch offset (bytes32 v)
  rw [bytes32_eq, patch_cons]
  refine bind_congr fun bytes => ?_
  rw [patch_cons]
  refine bind_congr fun bytes => ?_
  rw [patch_cons]
  exact bind_congr fun bytes => set8_eq bytes _ _

theorem set64_eq (bytes : Bytes) (offset : Nat) (v : UInt64) :
    set64 bytes offset v = windowed.set64 bytes offset v := by
  show _ = bytes.patch offset (bytes64 v)
  unfold set64
  rw [bytes64_eq, Bytes.patch_append, set32_eq]
  exact bind_congr fun bytes => set32_eq bytes _ _

theorem holds_append (bytes : Bytes) (offset : Nat) (x y : List UInt8) :
    holds bytes offset (x ++ y) = do
      if ← holds bytes offset x then holds bytes (offset + x.length) y else return false := by
  induction x generalizing offset with
  | nil => rfl
  | cons v x ih =>
    rw [List.cons_append, holds, holds, bind_assoc]
    refine bind_congr fun b => ?_
    split
    · rw [ih, List.length_cons, Nat.add_assoc, Nat.add_comm 1]
    · rfl

theorem holds32_eq (bytes : Bytes) (offset : Nat) (v : UInt32) :
    holds32 bytes offset v = holds bytes offset (bytes32 v) := by
  rw [bytes32_eq]
  rfl

theorem holds64_eq (bytes : Bytes) (offset : Nat) (v : UInt64) :
    holds64 bytes offset v = holds bytes offset (bytes64 v) := by
  unfold holds64
  rw [bytes64_eq, holds_append, holds32_eq, length_bytes32]
  refine bind_congr fun found => ?_
  rw [holds32_eq]

theorem holds_of_hasAt (h : bytes.HasAt offset part) (hlen : part.length = l.length) :
    holds bytes offset l = .ok (part == l) := by
  induction l generalizing offset part with
  | nil =>
    obtain rfl := List.eq_nil_of_length_eq_zero hlen
    rfl
  | cons v l ih =>
    obtain ⟨b, part, rfl⟩ := List.exists_cons_of_length_eq_add_one hlen
    obtain ⟨hb, hpart⟩ := Bytes.hasAt_cons.mp h
    rw [holds, Bytes.byteAt_eq_ok.mpr (Bytes.hasAt_singleton.mpr hb), except_ok_bind,
      ih hpart (by simpa using hlen)]
    split
    · rename_i heq
      simp [heq]
    · rename_i hne
      simp [hne]
      rfl

/-- The comparison leaves the data unless a byte in front of the end differs. -/
theorem holds_of_outside (hne : l ≠ []) (h : bytes.size < offset + l.length) :
    holds bytes offset l = .error .outOfRange ∨ holds bytes offset l = .ok false := by
  induction l generalizing offset with
  | nil => exact absurd rfl hne
  | cons v l ih =>
    rw [List.length_cons] at h
    rw [holds]
    by_cases hin : offset < bytes.size
    · have hl : l ≠ [] := by
        rintro rfl
        simp at h
        omega
      rw [Bytes.byteAt_eq_ok.mpr (Bytes.hasAt_singleton.mpr (Array.getElem?_eq_getElem hin)),
        except_ok_bind]
      split
      · exact ih hl (by omega)
      · exact .inr rfl
    · rw [Bytes.byteAt_error (by omega)]
      exact .inl rfl

end Packing.Bytewise

/-! ## Interchangeable ways -/

/-- The operations on words of one width. -/
structure WordAccess (β : Type) where
  get : Bytes → Nat → Except Error β
  set : Bytes → Nat → β → Except Error Bytes
  holds : Bytes → Nat → β → Except Error Bool

namespace Packing

def access16 (p : Packing) : WordAccess UInt16 := ⟨p.get16, p.set16, p.holds16⟩
def access32 (p : Packing) : WordAccess UInt32 := ⟨p.get32, p.set32, p.holds32⟩
def access64 (p : Packing) : WordAccess UInt64 := ⟨p.get64, p.set64, p.holds64⟩

end Packing

/-- Two ways to access words of `width` bytes do the same where a word fits. Where it does not they
both fail, but the second way may find a word different from what is left of the data. -/
structure Interchangeable {β : Type} [DecidableEq β] (spell : β → List UInt8) (width : Nat)
    (p q : WordAccess β) : Prop where
  /-- both read the word that the bytes spell, compare by it, and replace its bytes only -/
  inside : ∀ (bytes : Bytes) (offset : Nat), offset + width ≤ bytes.size →
    ∃ (before after : List UInt8) (word : β), bytes.toList = before ++ spell word ++ after ∧
      before.length = offset ∧ (spell word).length = width ∧
      p.get bytes offset = .ok word ∧ q.get bytes offset = .ok word ∧
      ∀ v, p.holds bytes offset v = .ok (decide (word = v)) ∧
        q.holds bytes offset v = .ok (decide (word = v)) ∧
        ∃ out : Bytes, p.set bytes offset v = .ok out ∧ q.set bytes offset v = .ok out ∧
          out.toList = before ++ spell v ++ after ∧ (spell v).length = width ∧
          p.get out offset = .ok v ∧ q.get out offset = .ok v
  /-- neither gives anything, except that the second one may tell a difference -/
  outside : ∀ (bytes : Bytes) (offset : Nat), bytes.size < offset + width →
    p.get bytes offset = .error .outOfRange ∧ q.get bytes offset = .error .outOfRange ∧
    ∀ v, p.set bytes offset v = .error .outOfRange ∧ q.set bytes offset v = .error .outOfRange ∧
      p.holds bytes offset v = .error .outOfRange ∧
      (q.holds bytes offset v = .error .outOfRange ∨ q.holds bytes offset v = .ok false)
  /-- what the second one finds is there -/
  holds_iff : ∀ (bytes : Bytes) (offset : Nat) (v : β), q.holds bytes offset v = .ok true ↔
    offset + width ≤ bytes.size ∧ q.get bytes offset = .ok v

/-- Words of one width and the bytes that spell them. -/
structure Spelling {β : Type} (spell : β → List UInt8) (value : List UInt8 → β) (width : Nat) :
    Prop where
  length : ∀ v, (spell v).length = width
  spell_value : ∀ l, l.length = width → spell (value l) = l
  value_spell : ∀ v, value (spell v) = v

theorem spelling16 : Spelling bytes16 (UInt16.ofNat ∘ BigEndian.decode) 2 :=
  ⟨length_bytes16, bytes16_ofNat_decode, ofNat_decode_bytes16⟩

theorem spelling32 : Spelling bytes32 (UInt32.ofNat ∘ BigEndian.decode) 4 :=
  ⟨length_bytes32, bytes32_ofNat_decode, ofNat_decode_bytes32⟩

theorem spelling64 : Spelling bytes64 (UInt64.ofNat ∘ BigEndian.decode) 8 :=
  ⟨length_bytes64, bytes64_ofNat_decode, ofNat_decode_bytes64⟩

theorem Spelling.exists_word {β : Type} {spell : β → List UInt8} {value : List UInt8 → β}
    {width offset : Nat} {bytes : Bytes} (hs : Spelling spell value width)
    (h : offset + width ≤ bytes.size) : ∃ word, bytes.HasAt offset (spell word) := by
  obtain ⟨part, hpart, hat⟩ := Bytes.exists_part h
  exact ⟨value part, by rwa [hs.spell_value part hpart]⟩

/-- The words are windows of the data, and a comparison never finds more than is there. -/
structure WordAccess.Windows {β : Type} [DecidableEq β] (spell : β → List UInt8)
    (value : List UInt8 → β) (width : Nat) (p : WordAccess β) : Prop where
  get : ∀ bytes offset, p.get bytes offset = value <$> bytes.window offset width
  set : ∀ bytes offset v, p.set bytes offset v = bytes.patch offset (spell v)
  holds : ∀ {bytes : Bytes} {offset : Nat} {part : List UInt8} (v : β), bytes.HasAt offset part →
    part.length = width → p.holds bytes offset v = .ok (part == spell v)
  outside : ∀ {bytes : Bytes} {offset : Nat} (v : β), bytes.size < offset + width →
    p.holds bytes offset v = .error .outOfRange ∨ p.holds bytes offset v = .ok false

namespace WordAccess.Windows

variable {β : Type} [DecidableEq β] {spell : β → List UInt8} {value : List UInt8 → β} {width : Nat}
  {p q : WordAccess β} {bytes : Bytes} {offset : Nat} {word : β}

theorem get_of_hasAt (h : p.Windows spell value width) (hs : Spelling spell value width)
    (hat : bytes.HasAt offset (spell word)) : p.get bytes offset = .ok word := by
  rw [h.get, Bytes.window_eq_ok.mpr ⟨hs.length word, hat⟩]
  exact congrArg Except.ok (hs.value_spell word)

theorem get_of_outside (h : p.Windows spell value width) (hout : bytes.size < offset + width) :
    p.get bytes offset = .error .outOfRange := by
  rw [h.get, Bytes.window_error hout]
  rfl

theorem set_of_outside (h : p.Windows spell value width) (hs : Spelling spell value width)
    (hout : bytes.size < offset + width) (v : β) :
    p.set bytes offset v = .error .outOfRange := by
  rw [h.set, Bytes.patch_error]
  rwa [hs.length]

theorem holds_of_hasAt (h : p.Windows spell value width) (hs : Spelling spell value width)
    (hat : bytes.HasAt offset (spell word)) (v : β) :
    p.holds bytes offset v = .ok (decide (word = v)) := by
  rw [h.holds v hat (hs.length word)]
  congr 1
  rw [Bool.eq_iff_iff, beq_iff_eq, decide_eq_true_eq]
  exact (Function.LeftInverse.injective hs.value_spell).eq_iff

theorem interchangeable (hs : Spelling spell value width) (hp : p.Windows spell value width)
    (hq : q.Windows spell value width) (hwhole : ∀ bytes offset v, bytes.size < offset + width →
      p.holds bytes offset v = .error .outOfRange) : Interchangeable spell width p q := by
  constructor
  case inside =>
    intro bytes offset h
    obtain ⟨word, hat⟩ := hs.exists_word h
    obtain ⟨before, after, hsplit, rfl⟩ := Bytes.hasAt_iff_append.mp hat
    refine ⟨before, after, word, hsplit, rfl, hs.length word, hp.get_of_hasAt hs hat,
      hq.get_of_hasAt hs hat, fun v => ?_⟩
    have hout := Bytes.toList_overwrite before (spell word) after (spell v)
      ((hs.length word).trans (hs.length v).symm) hsplit
    have hpatch : bytes.patch before.length (spell v) =
        .ok (bytes.overwrite before.length (spell v)) := if_pos (by rwa [hs.length])
    have hat' := Bytes.hasAt_iff_append.mpr ⟨before, after, hout, rfl⟩
    refine ⟨hp.holds_of_hasAt hs hat v, hq.holds_of_hasAt hs hat v, _, ?_, ?_, hout, hs.length v,
      hp.get_of_hasAt hs hat', hq.get_of_hasAt hs hat'⟩
    · rw [hp.set, hpatch]
    · rw [hq.set, hpatch]
  case outside =>
    intro bytes offset h
    exact ⟨hp.get_of_outside h, hq.get_of_outside h, fun v => ⟨hp.set_of_outside hs h v,
      hq.set_of_outside hs h v, hwhole bytes offset v h, hq.outside v h⟩⟩
  case holds_iff =>
    intro bytes offset v
    by_cases h : offset + width ≤ bytes.size
    · obtain ⟨word, hat⟩ := hs.exists_word h
      rw [hq.holds_of_hasAt hs hat, hq.get_of_hasAt hs hat]
      simp [h]
    · rcases hq.outside v (Nat.lt_of_not_le h) with heq | heq
      · simp [heq, h]
      · simp [heq, h]

theorem of_get (hs : Spelling spell value width)
    (hget : ∀ bytes offset, p.get bytes offset = value <$> bytes.window offset width)
    (hset : ∀ bytes offset v, p.set bytes offset v = bytes.patch offset (spell v))
    (hholds : ∀ bytes offset v, p.holds bytes offset v = (· == v) <$> p.get bytes offset) :
    p.Windows spell value width ∧ ∀ bytes offset v, bytes.size < offset + width →
      p.holds bytes offset v = .error .outOfRange := by
  have hfail (bytes : Bytes) (offset : Nat) (v : β) (h : bytes.size < offset + width) :
      p.holds bytes offset v = .error .outOfRange := by
    rw [hholds, hget, Bytes.window_error h]
    rfl
  refine ⟨⟨hget, hset, ?_, fun v h => .inl (hfail _ _ v h)⟩, hfail⟩
  intro bytes offset part v hat hpart
  rw [hholds, hget]
  exact Bytes.word_matches hs.spell_value hs.value_spell v hat hpart

theorem of_bytewise (hs : Spelling spell value width) (hpos : 0 < width)
    (hget : ∀ bytes offset, p.get bytes offset = value <$> bytes.window offset width)
    (hset : ∀ bytes offset v, p.set bytes offset v = bytes.patch offset (spell v))
    (hholds : ∀ bytes offset v,
      p.holds bytes offset v = Packing.Bytewise.holds bytes offset (spell v)) :
    p.Windows spell value width := by
  refine ⟨hget, hset, ?_, ?_⟩
  · intro bytes offset part v hat hpart
    rw [hholds, Packing.Bytewise.holds_of_hasAt hat (hpart.trans (hs.length v).symm)]
  · intro bytes offset v h
    rw [hholds]
    have hne : spell v ≠ [] := List.ne_nil_of_length_pos (by rw [hs.length]; exact hpos)
    exact Packing.Bytewise.holds_of_outside hne (by rwa [hs.length])

end WordAccess.Windows

namespace Packing

open WordAccess (Windows)

/-- Both ways are interchangeable for words of two, four and eight bytes, the most significant byte
first. -/
theorem packings_interchangeable :
    Interchangeable bytes16 2 windowed.access16 bytewise.access16 ∧
    Interchangeable bytes32 4 windowed.access32 bytewise.access32 ∧
    Interchangeable bytes64 8 windowed.access64 bytewise.access64 := by
  refine ⟨?_, ?_, ?_⟩
  · obtain ⟨hwindowed, hwhole⟩ := Windows.of_get (p := windowed.access16) spelling16
      (fun _ _ => rfl) (fun _ _ _ => rfl) (fun _ _ _ => rfl)
    obtain ⟨hbytewise, -⟩ := Windows.of_get (p := bytewise.access16) spelling16
      Bytewise.get16_eq Bytewise.set16_eq (fun _ _ _ => rfl)
    exact hwindowed.interchangeable spelling16 hbytewise hwhole
  · obtain ⟨hwindowed, hwhole⟩ := Windows.of_get (p := windowed.access32) spelling32
      (fun _ _ => rfl) (fun _ _ _ => rfl) (fun _ _ _ => rfl)
    have hbytewise := Windows.of_bytewise (p := bytewise.access32) spelling32 (by decide)
      Bytewise.get32_eq Bytewise.set32_eq Bytewise.holds32_eq
    exact hwindowed.interchangeable spelling32 hbytewise hwhole
  · obtain ⟨hwindowed, hwhole⟩ := Windows.of_get (p := windowed.access64) spelling64
      (fun _ _ => rfl) (fun _ _ _ => rfl) (fun _ _ _ => rfl)
    have hbytewise := Windows.of_bytewise (p := bytewise.access64) spelling64 (by decide)
      Bytewise.get64_eq Bytewise.set64_eq Bytewise.holds64_eq
    exact hwindowed.interchangeable spelling64 hbytewise hwhole

/-- Eight bytes do not fit, but the first one differs. -/
example : windowed.holds64 #[0xCA, 0xFE] 0 0 = .error .outOfRange ∧
    bytewise.holds64 #[0xCA, 0xFE] 0 0 = .ok false := ⟨rfl, rfl⟩

end Packing
end JavaClass
