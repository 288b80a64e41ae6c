import JavaClass.Constant.Lookup
import JavaClass.Proofs.PoolCalls

/-!
# Searching a table

A search goes through the indexes from the first one on. In a table of known constants it finds the
smallest index of the constant it asks for, and fails only if there is none.
-/

namespace JavaClass

/-! ## Looking up in a list -/

namespace Constant

/-- The smallest index of the constant. -/
def indexIn? (c : Constant) (cs : List Constant) : Option UInt16 :=
  if c ∈ cs then some (UInt16.ofNat (indexOf c cs)) else none

/-- The smallest index of the text; a text that is too long has none. -/
def textIndexIn? (text : Bytes) (cs : List Constant) : Option UInt16 :=
  (ofText? text).bind (·.indexIn? cs)

/-- The smallest index of the constant that refers to the smallest index of a text. -/
def textReferenceIn? (tag : Tag) (suits : tag.payloadLength? = some 2) (value : String)
    (cs : List Constant) : Option UInt16 := do
  let index ← textIndexIn? (ModifiedUtf8.encode value) cs
  (ofPayload tag (.reference index) (Payload.suits_reference suits index)).indexIn? cs

def nameAndTypeIn? (name descriptor : String) (cs : List Constant) : Option UInt16 := do
  let nameIndex ← textIndexIn? (ModifiedUtf8.encode name) cs
  let descriptorIndex ← textIndexIn? (ModifiedUtf8.encode descriptor) cs
  (ofPayload .nameAndType (.references nameIndex descriptorIndex)
    (Payload.suits_nameAndType nameIndex descriptorIndex)).indexIn? cs

variable {c : Constant} {cs : List Constant} {offset start i : Nat}

theorem indexIn?_of_mem (h : c ∈ cs) : c.indexIn? cs = some (UInt16.ofNat (indexOf c cs)) := by
  rw [indexIn?, if_pos h]

theorem indexIn?_of_notMem (h : c ∉ cs) : c.indexIn? cs = none := by
  rw [indexIn?, if_neg h]

theorem slotCount_mono {ds es : List Constant} (h : ds <+: es) :
    slotCount ds ≤ slotCount es := by
  obtain ⟨more, rfl⟩ := h
  simp

theorem indexOf_le (h : at? offset cs i = some (start, c)) : indexOf c cs ≤ i := by
  obtain ⟨before, after, rfl, rfl, -⟩ := at?_eq_some.mp h
  by_cases hmem : c ∈ before
  · rw [indexOf_append hmem, indexOf]
    have := slotCount_mono (List.takeWhile_prefix (· ≠ c) (l := before))
    omega
  · rw [indexOf_append_cons hmem]

end Constant

/-! ## Scans -/

namespace ConstantTable

variable {t : ConstantTable} {tag : Tag} {test : Nat → Except Error Bool} {found : Nat → Bool}

theorem firstMatch_eq_ok (index n : Nat)
    (h : ∀ i, index ≤ i → i < index + n → t.isMatch tag test i = .ok (found i)) :
    t.firstMatch tag test index n = .ok (((List.range' index n).find? found).map UInt16.ofNat) := by
  induction n generalizing index with
  | zero => rfl
  | succ n ih =>
    have hrest := ih (index + 1) fun i hle hlt => h i (by omega) (by omega)
    rw [firstMatch, h index le_rfl (by omega), except_ok_bind, hrest, List.range'_succ,
      List.find?_cons]
    cases found index <;> rfl

namespace Holds

open Constant

variable {offset start : Nat} {index : UInt16} {cs : List Constant} {c : Constant}
  {payload : Payload}

theorem lt_count {i : Nat} (h : t.Holds offset cs) (hc : at? offset cs i = some (start, c)) :
    i < t.count := by
  have hstart := h.starts i
  rw [hc] at hstart
  by_contra hge
  have hnone : t.starts[i]? = none := Array.getElem?_eq_none (not_lt.mp hge)
  rw [hnone] at hstart
  cases hstart

theorem at?_last (h : t.Holds offset cs) (hcount : t.count ≤ 65536) :
    at? offset cs 65536 = none := by
  rw [Option.eq_none_iff_forall_ne_some]
  rintro ⟨start, c⟩ hc
  have := h.lt_count hc
  omega

theorem find?_range' (h : t.Holds offset cs) (c : Constant) :
    ((List.range' 0 t.count).find? fun i =>
      decide ((at? offset cs i).map Prod.snd = some c)).map UInt16.ofNat = c.indexIn? cs := by
  by_cases hmem : c ∈ cs
  · obtain ⟨start, hc⟩ := at?_indexOf offset hmem
    have hfirst : (List.range' 0 t.count).find? (fun i =>
        decide ((at? offset cs i).map Prod.snd = some c)) = some (indexOf c cs) := by
      rw [List.find?_range'_eq_some]
      refine ⟨by simp [hc], ?_, fun j _ hj => ?_⟩
      · have := h.lt_count hc
        rw [List.mem_range'_1]
        omega
      · have hother : (at? offset cs j).map Prod.snd ≠ some c := by
          intro heq
          obtain ⟨⟨start', d⟩, hd, hdc⟩ := Option.map_eq_some_iff.mp heq
          have hle : indexOf d cs ≤ j := indexOf_le hd
          rw [show d = c from hdc] at hle
          omega
        simp [hother]
    rw [hfirst, indexIn?_of_mem hmem]
    rfl
  · have hnone : (List.range' 0 t.count).find? (fun i =>
        decide ((at? offset cs i).map Prod.snd = some c)) = none := by
      rw [List.find?_eq_none]
      intro i _ hi
      obtain ⟨⟨start, d⟩, hd, rfl⟩ := Option.map_eq_some_iff.mp (of_decide_eq_true hi)
      exact hmem (mem_of_at? hd)
    rw [hnone, indexIn?_of_notMem hmem]
    rfl

theorem find? (h : t.Holds offset cs) (hcount : t.count ≤ 65536) (suits : payload.Suits tag) :
    t.find? tag payload = .ok ((ofPayload tag payload suits).indexIn? cs) := by
  have hmatch (i : Nat) (_ : 0 ≤ i) (hi : i < 0 + t.count) :=
    h.isMatch (h.at?_last hcount) suits (i := i) (by omega)
  rw [ConstantTable.find?, firstMatch_eq_ok 0 t.count hmatch, h.find?_range']

theorem isMatch_text {i : Nat} (h : t.Holds offset cs) (hi : i < 65536) (text : Bytes) :
    t.isMatch .utf8 (fun offset => (· == text) <$> t.textAt offset) i =
      .ok (decide ((at? offset cs i).map (fun entry => (entry.2.tag, entry.2.payload)) =
        some (.utf8, text.toList))) := by
  unfold ConstantTable.isMatch
  rw [h.start?, UInt16.toNat_ofNat_of_lt' hi]
  cases hc : at? offset cs i with
  | none => simp
  | some entry =>
    obtain ⟨start, c⟩ := entry
    simp only [Option.map_some, h.byte_eq hc, Option.some.injEq, Tag.byte_injective.eq_iff]
    split
    · rename_i htag
      have hindex : at? offset cs (UInt16.ofNat i).toNat = some (start, c) := by
        rw [UInt16.toNat_ofNat_of_lt' hi, hc]
      have htext := h.textBytes hindex htag
      rw [ConstantTable.textBytes, h.payloadOffset hindex, except_ok_bind] at htext
      rw [htext, except_map_ok]
      congr 1
      rw [Bool.eq_iff_iff, beq_iff_eq, decide_eq_true_eq]
      simp [htag, ← Array.toList_inj]
    · rename_i htag
      simp [htag]

theorem findText? (h : t.Holds offset cs) (hcount : t.count ≤ 65536) (value : String) :
    t.findText? value = .ok (textIndexIn? (ModifiedUtf8.encode value) cs) := by
  have hmatch (i : Nat) (_ : 0 ≤ i) (hi : i < 0 + t.count) :=
    h.isMatch_text (i := i) (by omega) (ModifiedUtf8.encode value)
  show t.firstMatch _ _ 0 t.count = _
  rw [firstMatch_eq_ok 0 t.count hmatch]
  congr 1
  by_cases short : (ModifiedUtf8.encode value).size < 65536
  · rw [textIndexIn?, ofText?, dif_pos short, Option.bind_some, ← h.find?_range']
    congr 3
    funext i
    rw [Bool.eq_iff_iff, decide_eq_true_eq, decide_eq_true_eq]
    simp [Constant.ext_iff, ofText]
  · have hnone : textIndexIn? (ModifiedUtf8.encode value) cs = none := by
      rw [textIndexIn?, ofText?, dif_neg short, Option.bind_none]
    rw [hnone, Option.map_eq_none_iff, List.find?_eq_none]
    intro i _ hi
    obtain ⟨⟨start, c⟩, hc, heq⟩ := Option.map_eq_some_iff.mp (of_decide_eq_true hi)
    obtain ⟨htag, hpayload⟩ := Prod.mk.inj heq
    have hfits : c.payload.length < 65536 := Tag.fits_utf8.mp (htag ▸ c.fits)
    rw [show c.payload = _ from hpayload, Array.length_toList] at hfits
    exact short hfits

theorem findTextReference? (h : t.Holds offset cs) (hcount : t.count ≤ 65536)
    (suits : tag.payloadLength? = some 2) (value : String) :
    t.findTextReference? tag value = .ok (textReferenceIn? tag suits value cs) := by
  unfold ConstantTable.findTextReference? textReferenceIn?
  rw [h.findText? hcount, except_ok_bind]
  cases textIndexIn? (ModifiedUtf8.encode value) cs with
  | none => rfl
  | some index => exact h.find? hcount (Payload.suits_reference suits index)

theorem findNameAndType? (h : t.Holds offset cs) (hcount : t.count ≤ 65536)
    (name descriptor : String) :
    t.findNameAndType? name descriptor = .ok (nameAndTypeIn? name descriptor cs) := by
  unfold ConstantTable.findNameAndType? nameAndTypeIn?
  rw [h.findText? hcount, except_ok_bind]
  cases textIndexIn? (ModifiedUtf8.encode name) cs with
  | none => rfl
  | some nameIndex =>
    dsimp only
    rw [h.findText? hcount, except_ok_bind]
    cases textIndexIn? (ModifiedUtf8.encode descriptor) cs with
    | none => rfl
    | some descriptorIndex =>
      exact h.find? hcount (Payload.suits_nameAndType nameIndex descriptorIndex)

end Holds
end ConstantTable
end JavaClass
