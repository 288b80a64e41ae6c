import JavaClass.Draft
import JavaClass.Proofs.Buffers
import JavaClass.Proofs.Steps
import JavaClass.Proofs.Walks

/-!
# What drafts hold

Steps of writing only append to a draft, apart from patches of lengths and counts that they have
reserved themselves. So the bytes in front stay, and a finished attribute list is its encoding.
-/

namespace JavaClass

/-- The bytes of the buffer. -/
def Draft.bytes (d : Draft) : List UInt8 := d.buffer.toList

namespace DraftM

variable {α β : Type} {d : Draft} {x : DraftM α} {f : α → DraftM β} {a : α} {b : β}
  {bytes bytes' before old after values : List UInt8}

/-- The step succeeds with the answer, leaves the bytes in the buffer, and does not touch the
pool. -/
def Leaves (x : DraftM α) (d : Draft) (a : α) (bytes : List UInt8) : Prop :=
  ∃ d', x d = .ok a d' ∧ d'.bytes = bytes ∧ d'.pool = d.pool

theorem Leaves.bind (hx : Leaves x d a bytes)
    (hf : ∀ d', d'.bytes = bytes → Leaves (f a) d' b bytes') : Leaves (x >>= f) d b bytes' := by
  obtain ⟨d', hd, hbytes, hpool⟩ := hx
  obtain ⟨d'', hd', hbytes', hpool'⟩ := hf d' hbytes
  exact ⟨d'', (bind_apply_ok hd).trans hd', hbytes', hpool'.trans hpool⟩

theorem leaves_pure (d : Draft) (a : α) : Leaves (pure a) d a d.bytes := ⟨d, rfl, rfl, rfl⟩

theorem leaves_size (d : Draft) : Leaves size d d.bytes.length d.bytes :=
  ⟨d, by rw [Draft.bytes, ← Buffer.size_eq]; rfl, rfl, rfl⟩

theorem leaves_onBuffer {change : ByteBuffer → ByteBuffer} (d : Draft)
    (h : ∀ b : ByteBuffer, (change b).toList = b.toList ++ values) :
    Leaves (onBuffer change) d () (d.bytes ++ values) :=
  ⟨_, rfl, h d.buffer, rfl⟩

theorem leaves_skip (d : Draft) (n : Nat) :
    Leaves (skip n) d d.bytes.length (d.bytes ++ List.replicate n 0) := by
  refine (leaves_size d).bind fun d' hd' => ?_
  refine (leaves_onBuffer d' fun b => Buffer.toList_skip b n).bind fun d'' hd'' => ?_
  rw [← hd', ← hd'']
  exact leaves_pure d'' _

theorem leaves_patch (h : d.bytes = before ++ old ++ after) (hlen : old.length = values.length) :
    Leaves (patch before.length values) d () (before ++ values ++ after) := by
  have hsize : before.length + values.length ≤ d.buffer.size := by
    rw [Buffer.size_eq, ← Draft.bytes, h]
    simp [hlen]
  refine ⟨⟨d.buffer.overwrite before.length values, d.pool⟩, ?_, ?_, rfl⟩
  · exact if_pos hsize
  · exact Buffer.toList_overwrite d.buffer before old after values hlen h

end DraftM

open DraftM

/-! ## Reserved lengths and counts -/

namespace LengthSlot

variable {d : Draft} {before old content : List UInt8}

theorem leaves_start (d : Draft) (name : UInt16) : Leaves (start name) d ⟨d.bytes.length + 2⟩
    (d.bytes ++ (bytes16 name ++ List.replicate 4 0)) := by
  refine (leaves_onBuffer d fun b => Buffer.toList_put16 b name).bind fun d' hd' => ?_
  refine (leaves_skip d' 4).bind fun d'' hd'' => ?_
  rw [← List.append_assoc, ← hd', ← hd'',
    show d.bytes.length + 2 = d'.bytes.length by rw [hd']; simp]
  exact leaves_pure d'' _

theorem leaves_finish (h : d.bytes = before ++ old ++ content) (hold : old.length = 4)
    (hfits : content.length < 2 ^ 32) : Leaves (finish ⟨before.length⟩) d ()
      (before ++ bytes32 (UInt32.ofNat content.length) ++ content) := by
  have hsize : d.bytes.length = before.length + 4 + content.length := by
    rw [h, List.length_append, List.length_append, hold]
  refine (leaves_size d).bind fun d' hd' => ?_
  have hcontent : d.bytes.length - (before.length + 4) = content.length := by omega
  dsimp only
  rw [hcontent, if_pos ⟨by omega, hfits⟩]
  exact leaves_patch (hd'.trans h) (by simp [hold])

theorem finish_error (h : d.bytes = before ++ old ++ content) (hold : old.length = 4)
    (hlong : ¬ content.length < 2 ^ 32) : finish ⟨before.length⟩ d =
      .error (.countOverflow .attributeLength (UInt32.size - 1)) d := by
  have hsize : d.buffer.size = before.length + 4 + content.length := by
    rw [Buffer.size_eq, ← Draft.bytes, h, List.length_append, List.length_append, hold]
  have hcontent : d.buffer.size - (before.length + 4) = content.length := by omega
  show (if before.length + 4 ≤ d.buffer.size ∧
    d.buffer.size - (before.length + 4) < UInt32.size then patch before.length _ else throw _) d = _
  rw [hcontent, if_neg fun h => hlong h.2]
  rfl

end LengthSlot

/-- What a counter of 32 bits shows when it has counted to `n`. -/
def count32 (n : Nat) : Nat := n % 2 ^ 32

theorem count32_of_lt {n : Nat} (h : n < 2 ^ 32) : count32 n = n := Nat.mod_eq_of_lt h

theorem count32_lt {n : Nat} (h : n < 65536) : count32 n < 65536 :=
  (Nat.mod_le n (2 ^ 32)).trans_lt h

theorem toNat_counter (n : Nat) : (UInt32.ofNat n).toNat = count32 n := UInt32.toNat_ofNat'

theorem counter_lt {n : Nat} : UInt32.ofNat n < 65536 ↔ count32 n < 65536 := by
  rw [UInt32.lt_iff_toNat_lt, toNat_counter]
  rfl

theorem counter_add_one (n : Nat) : UInt32.ofNat n + 1 = UInt32.ofNat (n + 1) :=
  (UInt32.ofNat_add n 1).symm

theorem count16_counter (what : Counted) (n : Nat) : count16 what (UInt32.ofNat n) =
    if count32 n < 65536 then .ok (UInt16.ofNat n)
    else .error (.countOverflow what (count32 n)) := by
  unfold count16
  simp only [counter_lt, toNat_counter, UInt32.toUInt16_ofNat']

namespace CountSlot

variable {d : Draft} {before old after : List UInt8} {n : Nat}

theorem leaves_start (d : Draft) :
    Leaves start d ⟨d.bytes.length, 0⟩ (d.bytes ++ List.replicate 2 0) := by
  refine (leaves_skip d 2).bind fun d' hd' => ?_
  rw [← hd']
  exact leaves_pure d' _

theorem leaves_finish (what : Counted) (h : d.bytes = before ++ old ++ after)
    (hold : old.length = 2) (hfits : count32 n < 65536) :
    Leaves (finish ⟨before.length, UInt32.ofNat n⟩ what) d ()
      (before ++ bytes16 (UInt16.ofNat n) ++ after) := by
  unfold finish
  rw [count16_counter, if_pos hfits]
  exact leaves_patch h (by simp [hold])

theorem finish_error (what : Counted) (hmany : ¬ count32 n < 65536) :
    finish ⟨before.length, UInt32.ofNat n⟩ what d =
      .error (.countOverflow what (count32 n)) d := by
  unfold finish
  rw [count16_counter, if_neg hmany]
  rfl

end CountSlot

/-! ## Attribute lists -/

namespace AttributeList

variable {d : Draft} {list list' : AttributeList} {counted : Bool}
  {base written image bytes : List UInt8} {n : Nat} {done : List Attribute}

/-- The list has written so many attributes behind the bytes `base`, with a reserved count in front
of them unless its count is kept elsewhere. -/
def HoldsBytes (counted : Bool) (base : List UInt8) (n : Nat) (written bytes : List UInt8) :
    AttributeList → Prop
  | tallied m => counted = false ∧ m = UInt32.ofNat n ∧ bytes = base ++ written
  | pending => counted = true ∧ n = 0 ∧ written = [] ∧ bytes = base
  | reserved slot => counted = true ∧ slot = ⟨base.length, UInt32.ofNat n⟩ ∧
    bytes = base ++ (List.replicate 2 0 ++ written)

theorem holdsBytes_start (d : Draft) : ∃ list,
    Leaves start d list (d.bytes ++ List.replicate 2 0) ∧
      list.HoldsBytes true d.bytes 0 [] (d.bytes ++ List.replicate 2 0) := by
  refine ⟨.reserved ⟨d.bytes.length, 0⟩, ?_, rfl, rfl, by simp⟩
  refine (CountSlot.leaves_start d).bind fun d' hd' => ?_
  rw [← hd']
  exact leaves_pure d' _

theorem HoldsBytes.settle (h : list.HoldsBytes counted base n written d.bytes) : ∃ list' bytes,
    Leaves list.settle d list' bytes ∧ list'.HoldsBytes counted base n written bytes := by
  cases list with
  | pending =>
    obtain ⟨rfl, rfl, rfl, rfl⟩ := h
    obtain ⟨list', hstart, hlist'⟩ := holdsBytes_start d
    exact ⟨list', _, hstart, hlist'⟩
  | tallied m => exact ⟨.tallied m, d.bytes, leaves_pure d _, h⟩
  | reserved slot => exact ⟨.reserved slot, d.bytes, leaves_pure d _, h⟩

theorem HoldsBytes.grow (h : list.HoldsBytes counted base n written d.bytes) : ∃ list' bytes,
    Leaves list.grow d list' bytes ∧
      ∀ image, list'.HoldsBytes counted base (n + 1) (written ++ image) (bytes ++ image) := by
  cases list with
  | tallied m =>
    obtain ⟨rfl, rfl, hbytes⟩ := h
    refine ⟨_, d.bytes, leaves_pure d _, fun image => ⟨rfl, counter_add_one n, ?_⟩⟩
    simp [hbytes]
  | pending =>
    obtain ⟨rfl, rfl, rfl, rfl⟩ := h
    refine ⟨.reserved ⟨d.bytes.length, 1⟩, d.bytes ++ List.replicate 2 0, ?_,
      fun image => ⟨rfl, rfl, by simp⟩⟩
    refine (CountSlot.leaves_start d).bind fun d' hd' => ?_
    rw [← hd']
    exact leaves_pure d' _
  | reserved slot =>
    obtain ⟨rfl, rfl, hbytes⟩ := h
    refine ⟨_, d.bytes, leaves_pure d _, fun image => ⟨rfl, ?_, ?_⟩⟩
    · rw [← counter_add_one]
    · simp [hbytes]

theorem HoldsBytes.put {put : ByteBuffer → ByteBuffer}
    (hput : ∀ b : ByteBuffer, (put b).toList = b.toList ++ image)
    (h : list.HoldsBytes counted base n written d.bytes) : ∃ list' bytes,
    Leaves (do let list ← list.grow; onBuffer put; return list) d list' bytes ∧
      list'.HoldsBytes counted base (n + 1) (written ++ image) bytes := by
  obtain ⟨list', bytes, hgrow, hlist'⟩ := h.grow
  refine ⟨list', bytes ++ image, hgrow.bind fun d' hd' => ?_, hlist' image⟩
  refine (leaves_onBuffer d' hput).bind fun d'' hd'' => ?_
  rw [← hd', ← hd'']
  exact leaves_pure d'' _

theorem HoldsBytes.startAttribute (name : UInt16)
    (h : list.HoldsBytes counted base n written d.bytes) :
    ∃ list' bytes, Leaves (list.startAttribute name) d (list', ⟨bytes.length + 2⟩)
        (bytes ++ (bytes16 name ++ List.replicate 4 0)) ∧
      ∀ image, list'.HoldsBytes counted base (n + 1) (written ++ image) (bytes ++ image) := by
  obtain ⟨list', bytes, hgrow, hlist'⟩ := h.grow
  refine ⟨list', bytes, hgrow.bind fun d' hd' => ?_, hlist'⟩
  refine (LengthSlot.leaves_start d' name).bind fun d'' hd'' => ?_
  rw [← hd', ← hd'']
  exact leaves_pure d'' _

theorem HoldsBytes.finish (what : Counted) (h : list.HoldsBytes true base n written d.bytes)
    (hfits : count32 n < 65536) :
    Leaves (list.finish what) d () (base ++ (bytes16 (UInt16.ofNat n) ++ written)) := by
  cases list with
  | tallied m => cases h.1
  | pending =>
    obtain ⟨-, rfl, rfl, rfl⟩ := h
    have hput (b : ByteBuffer) : (b.put16 0).toList = b.toList ++ (bytes16 0 ++ []) :=
      Buffer.toList_put16 b 0
    exact leaves_onBuffer d hput
  | reserved slot =>
    obtain ⟨-, rfl, hbytes⟩ := h
    have hsplit : d.bytes = base ++ List.replicate 2 0 ++ written := by
      rw [hbytes, List.append_assoc]
    rw [← List.append_assoc]
    exact CountSlot.leaves_finish what hsplit rfl hfits

theorem HoldsBytes.finish_error (what : Counted)
    (h : list.HoldsBytes true base n written d.bytes) (hmany : ¬ count32 n < 65536) :
    list.finish what d = .error (.countOverflow what (count32 n)) d ∧
      d.bytes = base ++ (List.replicate 2 0 ++ written) := by
  cases list with
  | tallied m => cases h.1
  | pending =>
    obtain ⟨-, rfl, -⟩ := h
    exact absurd (by decide) hmany
  | reserved slot =>
    obtain ⟨-, rfl, hbytes⟩ := h
    exact ⟨CountSlot.finish_error what hmany, hbytes⟩

theorem HoldsBytes.tally (h : list.HoldsBytes false base n written bytes) :
    bytes = base ++ written ∧ list.count = UInt32.ofNat n := by
  cases list with
  | tallied m => exact ⟨h.2.2, h.2.1⟩
  | pending => cases h.1
  | reserved slot => cases h.1

/-- As `HoldsBytes`, with the attributes that have been written. -/
def Holds (counted : Bool) (base : List UInt8) (done : List Attribute) (bytes : List UInt8)
    (list : AttributeList) : Prop :=
  list.HoldsBytes counted base done.length (done.flatMap Attribute.encode) bytes

section Whole

variable (b : ByteBuffer) (name value : UInt16) (info : Bytes)

theorem toList_putWord : (b.putWordAttribute name 2 value).toList =
    b.toList ++ Attribute.encode ⟨name, (bytes16 value).toArray⟩ := by
  simp [Attribute.encode]

theorem toList_putEmpty : (b.putAttributeHeader name 0).toList =
    b.toList ++ Attribute.encode ⟨name, #[]⟩ := by
  simp [Attribute.encode]

theorem toList_putRaw :
    ((b.putAttributeHeader name (UInt32.ofNat info.size)).append info).toList =
      b.toList ++ Attribute.encode ⟨name, info⟩ := by
  simp [Attribute.encode]

end Whole

theorem leaves_putRaw (name : UInt16) (info : Bytes) (h : list.Holds counted base done d.bytes) :
    ∃ list' bytes, Leaves (list.putRaw name info) d list' bytes ∧
      list'.Holds counted base (done ++ [⟨name, info⟩]) bytes := by
  obtain ⟨list', bytes, hput, hlist'⟩ := HoldsBytes.put (toList_putRaw · name info) h
  refine ⟨list', bytes, hput, ?_⟩
  unfold Holds
  simpa using hlist'

end AttributeList
end JavaClass
