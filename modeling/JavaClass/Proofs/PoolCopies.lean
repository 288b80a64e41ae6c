import JavaClass.ClassFile.Rebuild
import JavaClass.Proofs.Interning
import JavaClass.Proofs.PoolWalk

/-!
# Copies of pools

Copying interns the constants of a table one by one. As long as all of them are distinct each one
gets the index that it had. From the first repetition on every constant moves, because the copy has
fallen behind by then.
-/

namespace JavaClass

open Constant

/-! ## Single constants -/

namespace ConstantTable.Holds

variable {t : ConstantTable} {offset start : Nat} {index : UInt16} {cs : List Constant}
  {c : Constant}

theorem refines_payload {payload : Payload} {n : Nat} (heq : c.payload = payload.encode)
    (hlength : c.tag.payloadLength? = some n) :
    PoolM.Refines (PoolM.constant c.tag payload) (intern c) := by
  have suits : payload.Suits c.tag := by
    unfold Payload.Suits
    rw [← heq, hlength, (Tag.fits_of_length hlength).mp c.fits]
  have hc : c = ofPayload c.tag payload suits := Constant.ext rfl heq
  have hrefines := PoolM.refines_constant suits
  rwa [← hc] at hrefines

theorem refines_textPayload (htext : c.tag = .utf8) :
    PoolM.Refines (PoolM.encodedText c.payload.toArray) (intern c) := by
  have hfits : c.payload.toArray.size < 65536 := by
    rw [List.size_toArray]
    exact Tag.fits_utf8.mp (htext ▸ c.fits)
  have hc : c = ofText c.payload.toArray hfits := Constant.ext htext rfl
  have hrefines := PoolM.refines_encodedText c.payload.toArray
  rwa [internText, dif_pos hfits, ← hc] at hrefines

theorem refines_copyEntry (h : t.Holds offset cs)
    (hc : at? offset cs index.toNat = some (start, c)) :
    PoolM.Refines (t.copyEntry index c.tag) (intern c) := by
  unfold copyEntry
  cases hshape : c.tag.shape with
  | text =>
    have htext : c.tag = .utf8 := by
      revert hshape
      cases c.tag <;> simp [Tag.shape]
    simp only [h.textBytes hc htext]
    exact refines_textPayload htext
  | reference =>
    have hlength : c.tag.payloadLength? = some 2 := by simp only [Tag.payloadLength?, hshape]
    obtain ⟨hread, heq⟩ := h.reference hc hlength
    simp only [hread]
    exact refines_payload heq hlength
  | handle =>
    have hlength : c.tag.payloadLength? = some 3 := by simp only [Tag.payloadLength?, hshape]
    obtain ⟨hread, heq⟩ := h.handle hc hlength
    simp only [hread]
    exact refines_payload heq hlength
  | word =>
    have hlength : c.tag.payloadLength? = some 4 := by simp only [Tag.payloadLength?, hshape]
    obtain ⟨hread, heq⟩ := h.word hc hlength
    simp only [hread]
    exact refines_payload heq hlength
  | wide =>
    have hlength : c.tag.payloadLength? = some 8 := by simp only [Tag.payloadLength?, hshape]
    obtain ⟨hread, heq⟩ := h.wide hc hlength
    simp only [hread]
    exact refines_payload heq hlength

end ConstantTable.Holds

/-! ## Repetitions -/

namespace Constant

/-- From the first constant that repeats an earlier one to the end there are `n` constants. -/
def RepeatsFrom (cs : List Constant) (n : Nat) : Prop :=
  ∃ before c after, cs = before ++ c :: after ∧ before.Nodup ∧ c ∈ before ∧ n = after.length + 1

variable {cs ds before after : List Constant} {c : Constant} {m n : Nat}

theorem RepeatsFrom.not_nodup (h : RepeatsFrom cs n) : ¬ cs.Nodup := by
  obtain ⟨before, c, after, rfl, -, hmem, -⟩ := h
  exact fun hnodup => notMem_front hnodup hmem

theorem RepeatsFrom.append_singleton (h : RepeatsFrom cs n) (c : Constant) :
    RepeatsFrom (cs ++ [c]) (n + 1) := by
  obtain ⟨before, d, after, rfl, hnodup, hmem, rfl⟩ := h
  exact ⟨before, d, after ++ [c], by simp, hnodup, hmem, by simp⟩

theorem RepeatsFrom.unique (h : RepeatsFrom cs m) (h' : RepeatsFrom cs n) : m = n := by
  obtain ⟨before, c, after, rfl, hnodup, hmem, rfl⟩ := h
  obtain ⟨before', c', after', hsplit, hnodup', hmem', rfl⟩ := h'
  -- whichever front is longer has the repetition of the other one in it, unless they are equal
  rcases List.append_eq_append_iff.mp hsplit with ⟨l, rfl, hrest⟩ | ⟨l, rfl, hrest⟩
  · rcases l with _ | ⟨d, l⟩
    · rw [(List.cons.inj hrest).2]
    · obtain ⟨rfl, -⟩ := List.cons.inj hrest
      exact absurd hmem (notMem_front hnodup')
  · rcases l with _ | ⟨d, l⟩
    · rw [(List.cons.inj hrest).2]
    · obtain ⟨rfl, -⟩ := List.cons.inj hrest
      exact absurd hmem' (notMem_front hnodup)

/-- What is left of the constants in a copy, and how many of them have moved. -/
inductive Copied (cs ds : List Constant) : Nat → Prop
  | same : cs.Nodup → ds = cs → Copied cs ds 0
  /-- the copy has fallen behind -/
  | moved {n : Nat} : RepeatsFrom cs n → slotCount ds < slotCount cs → Copied cs ds n

theorem indexOf_lt (h : c ∈ cs) : indexOf c cs < 1 + slotCount cs := by
  obtain ⟨start, hc⟩ := at?_indexOf 0 h
  exact lt_of_at? hc

theorem ofNat_ne {a b : Nat} (h : a < b) (hb : b < 65536) : UInt16.ofNat a ≠ UInt16.ofNat b := by
  intro heq
  have := congrArg UInt16.toNat heq
  rw [UInt16.toNat_ofNat_of_lt' (by show a < 65536; omega), UInt16.toNat_ofNat_of_lt' hb] at this
  omega

/-- One more constant is copied. It keeps its index only while nothing has been repeated. -/
theorem Copied.intern (h : Copied cs ds n) (hroom : 1 + slotCount cs < 65536) (c : Constant) :
    ∃ index ds', Constant.intern c ds = .ok index ds' ∧ Copied (cs ++ [c]) ds'
      (if index = UInt16.ofNat (1 + slotCount cs) then n else n + 1) := by
  have hpos := c.slots_pos
  cases h with
  | same hnodup hds =>
    subst hds
    by_cases hmem : c ∈ ds
    · refine ⟨_, _, intern_of_mem hmem, ?_⟩
      rw [if_neg (ofNat_ne (indexOf_lt hmem) hroom)]
      exact .moved ⟨ds, c, [], rfl, hnodup, hmem, rfl⟩ (by simp [hpos])
    · refine ⟨_, _, intern_of_notMem hmem hroom, ?_⟩
      rw [if_pos rfl]
      refine .same ?_ rfl
      rw [List.nodup_append]
      refine ⟨hnodup, by simp, ?_⟩
      rintro a ha b hb rfl
      exact hmem (List.mem_singleton.mp hb ▸ ha)
  | moved hrepeats hlt =>
    have hrepeats' := hrepeats.append_singleton c
    by_cases hmem : c ∈ ds
    · have hindex := indexOf_lt hmem
      refine ⟨_, _, intern_of_mem hmem, ?_⟩
      rw [if_neg (ofNat_ne (by omega) hroom)]
      exact .moved hrepeats' (by simp; omega)
    · refine ⟨_, _, intern_of_notMem hmem (by omega), ?_⟩
      rw [if_neg (ofNat_ne (by omega) hroom)]
      exact .moved hrepeats' (by simp; omega)

/-- Interns a constant and counts it if its index is not the given one. -/
def copyNumbered (moved : Nat) (slot : Nat × Constant) : EStateM Error (List Constant) Nat := do
  let copied ← intern slot.2
  return if copied = UInt16.ofNat slot.1 then moved else moved + 1

/-- The constants with their indexes, if the first one has the given one. -/
def numbered (start : Nat) : List Constant → List (Nat × Constant)
  | [] => []
  | c :: cs => (start, c) :: numbered (start + c.slots) cs

/-- The constant at an index, with the index. -/
def slotAt (cs : List Constant) (i : Nat) : Option (Nat × Constant) :=
  (at? 0 cs i).map fun slot => (i, slot.2)

theorem copyNumbered_of_ok {index : UInt16} {i : Nat} (h : Constant.intern c ds = .ok index cs) :
    copyNumbered m (i, c) ds = .ok (if index = UInt16.ofNat i then m else m + 1) cs :=
  bind_apply_ok h

theorem slotAt_second {start i : Nat} (h : at? 0 cs i = some (start, c)) (hwide : c.slots = 2) :
    slotAt cs (i + 1) = none := by
  rw [slotAt, at?_second h hwide]
  rfl

theorem filterMap_slotAt (before : List Constant) (hfill : Fill n after) :
    (List.range' (1 + slotCount before) n).filterMap (slotAt (before ++ after)) =
      numbered (1 + slotCount before) after := by
  induction after generalizing before n with
  | nil =>
    obtain rfl := fill_nil.mp hfill
    rfl
  | cons c after ih =>
    obtain ⟨hpos, hfill'⟩ := fill_cons.mp hfill
    have hc : at? 0 (before ++ c :: after) (1 + slotCount before) = some (_, c) :=
      at?_eq_some.mpr ⟨before, after, rfl, rfl, rfl⟩
    have hslot : slotAt (before ++ c :: after) (1 + slotCount before) =
        some (1 + slotCount before, c) := by
      rw [slotAt, hc]
      rfl
    have hsplit : before ++ c :: after = (before ++ [c]) ++ after := by simp
    have hcount : slotCount (before ++ [c]) = slotCount before + c.slots := by simp
    obtain ⟨n, rfl⟩ : ∃ k, n = k + 1 := ⟨n - 1, by omega⟩
    rw [List.range'_succ, List.filterMap_cons_some hslot, numbered]
    by_cases hwide : c.slots = 2
    · rcases n with _ | n
      · -- the declared count cuts off the second slot of the last constant
        obtain rfl := fill_zero.mp (by simpa [hwide] using hfill')
        rfl
      · have hrest := ih (before ++ [c]) (n := n) (by simpa [hwide] using hfill')
        rw [hcount, hwide, ← hsplit] at hrest
        rw [List.range'_succ, List.filterMap_cons_none (slotAt_second hc hwide), hwide]
        exact congrArg _ hrest
    · have hone : c.slots = 1 := by
        have := c.slots_pos
        have : c.slots ≤ 2 := c.tag.slots_le_two
        omega
      have hrest := ih (before ++ [c]) (n := n) (by simpa [hone] using hfill')
      rw [hcount, hone, ← hsplit] at hrest
      rw [hone]
      exact congrArg _ hrest

end Constant

/-! ## Whole pools -/

namespace PoolM

theorem refines_pure {α : Type} (a : α) : Refines (pure a) (pure a) :=
  fun p cs h => .inl ⟨a, p, cs, rfl, rfl, h⟩

theorem Refines.foldlM {α β : Type} {f : β → α → PoolM β}
    {g : β → α → EStateM Error (List Constant) β} {l : List α}
    (h : ∀ a ∈ l, ∀ b, Refines (f b a) (g b a)) (b : β) :
    Refines (l.foldlM f b) (l.foldlM g b) := by
  induction l generalizing b with
  | nil => exact refines_pure b
  | cons a l ih =>
    rw [List.foldlM_cons, List.foldlM_cons]
    exact (h a (by simp) b).bind fun b' => ih (fun a' ha' => h a' (by simp [ha'])) b'

end PoolM

namespace ConstantTable.Holds

variable {t : ConstantTable} {offset start i n m : Nat} {cs ds before after : List Constant}
  {c : Constant} {p : ConstantPool}

theorem refines_copyIndex (h : t.Holds offset cs) (hi : i < 65536) :
    PoolM.Refines (t.copyIndex m i)
      (match slotAt cs i with
        | some slot => copyNumbered m slot
        | none => pure m) := by
  have htag := h.tag? (UInt16.ofNat i)
  rw [UInt16.toNat_ofNat_of_lt' hi, at?_shift] at htag
  unfold copyIndex slotAt
  cases hc : at? 0 cs i with
  | none =>
    rw [hc] at htag
    simp only [htag]
    exact PoolM.refines_pure m
  | some slot =>
    have hc' : at? offset cs (UInt16.ofNat i).toNat = some (offset + slot.1, slot.2) := by
      rw [UInt16.toNat_ofNat_of_lt' hi, at?_shift, hc]
      rfl
    rw [hc] at htag
    simp only [htag]
    exact (h.refines_copyEntry hc').bind fun copied => PoolM.refines_pure _

theorem refines_copyInto (h : t.Holds offset cs) (hfill : Fill (t.count - 1) cs)
    (hcount : t.count ≤ 65536) :
    PoolM.Refines t.copyInto ((numbered 1 cs).foldlM copyNumbered 0) := by
  have hnumbered := filterMap_slotAt [] hfill
  rw [slotCount_nil, List.nil_append] at hnumbered
  rw [← hnumbered, List.foldlM_filterMap]
  apply PoolM.Refines.foldlM
  intro i hi m
  have hrange := List.mem_range'_1.mp hi
  have hlt : i < 65536 := by omega
  have hstep := h.refines_copyIndex (m := m) hlt
  cases hslot : slotAt cs i with
  | none => simpa only [hslot] using hstep
  | some slot => simpa only [hslot] using hstep

end ConstantTable.Holds

namespace Constant

variable {before after ds : List Constant} {m n : Nat}

theorem Copied.foldlM (hcopied : Copied before ds m) (hfill : Fill n after)
    (hend : 1 + slotCount before + n ≤ 65536) :
    ∃ m' ds', (numbered (1 + slotCount before) after).foldlM copyNumbered m ds = .ok m' ds' ∧
      Copied (before ++ after) ds' m' := by
  induction after generalizing before n m ds with
  | nil => exact ⟨m, ds, rfl, by simpa using hcopied⟩
  | cons c after ih =>
    obtain ⟨hpos, hfill'⟩ := fill_cons.mp hfill
    obtain ⟨index, ds₁, hintern, hcopied₁⟩ := hcopied.intern (by omega) c
    have hcount : slotCount (before ++ [c]) = slotCount before + c.slots := by simp
    have hrest := ih hcopied₁ hfill'
    rw [hcount, ← Nat.add_assoc, List.append_assoc, List.singleton_append] at hrest
    rw [numbered, List.foldlM_cons, bind_apply_ok (copyNumbered_of_ok hintern)]
    rcases after with _ | ⟨d, after⟩
    · exact ⟨_, ds₁, rfl, hcopied₁⟩
    · obtain ⟨hroom, -⟩ := fill_cons.mp hfill'
      exact hrest (by omega)

end Constant

namespace ConstantTable.Holds

variable {t : ConstantTable} {offset : Nat} {cs : List Constant} {p : ConstantPool}

theorem copyInto_eq_ok (h : t.Holds offset cs) (hfill : Fill (t.count - 1) cs)
    (hcount : t.count < 65536) (hp : p.Represents []) :
    ∃ m p' ds, t.copyInto p = .ok m p' ∧ p'.Represents ds ∧ Copied cs ds m := by
  obtain ⟨m, ds, hfold, hcopied⟩ := (Copied.same List.nodup_nil rfl).foldlM hfill (by simp; omega)
  rcases h.refines_copyInto hfill (by omega) p [] hp with
    ⟨m', p', ds', hok, hspec, h'⟩ | ⟨e, _, _, _, hspec, _⟩
  · rw [slotCount_nil, hspec] at hfold
    obtain ⟨rfl, rfl⟩ := EStateM.Result.ok.inj hfold
    exact ⟨m', p', ds', hok, h', hcopied⟩
  · rw [slotCount_nil, hspec] at hfold
    cases hfold

end ConstantTable.Holds
end JavaClass
