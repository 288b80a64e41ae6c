import JavaClass.Proofs.Grammar
import JavaClass.Proofs.PoolCalls

/-!
# Offsets in 32 bits

A table of constants may keep each offset in one 32-bit word, with the greatest word for an index
that has no entry. Nothing has to check this. A constant takes at most 65538 bytes for each of its
slots, and the slots are numbered by 16 bits, so the offsets stay below that word: in a pool after
any calls, and in a walk over any bytes, also one that breaks off.
-/

namespace JavaClass

/-! ## Bytes and slots -/

theorem Tag.length_spell_le {t : Tag} {payload : List UInt8} (h : t.Fits payload) :
    1 + (t.spell payload).length ≤ 65538 * t.slots := by
  have hslots := t.slots_pos
  cases hlength : t.payloadLength? with
  | some n =>
    have hn : n ≤ 8 := by
      revert hlength
      cases t <;> simp [payloadLength?, shape] <;> omega
    simp only [spell_of_length hlength, (fits_of_length hlength).mp h]
    omega
  | none =>
    have hfits := (fits_of_text hlength).mp h
    simp only [spell_of_text hlength, List.length_append, length_bytes16]
    omega

namespace Constant

variable {c : Constant} {cs : List Constant} {offset start i : Nat}

theorem length_encode_le (c : Constant) : c.encode.length ≤ 65538 * c.slots := by
  have h := Tag.length_spell_le c.fits
  simp only [encode, List.length_cons, slots]
  omega

theorem length_encodeAll_le (cs : List Constant) :
    (encodeAll cs).length ≤ 65538 * slotCount cs := by
  induction cs with
  | nil => simp
  | cons c cs ih =>
    have := c.length_encode_le
    simp only [encodeAll_cons, slotCount_cons, List.length_append]
    omega

theorem start_le (h : at? offset cs i = some (start, c)) :
    1 ≤ i ∧ start ≤ offset + 65538 * (i - 1) := by
  obtain ⟨before, after, rfl, rfl, rfl⟩ := at?_eq_some.mp h
  have := length_encodeAll_le before
  omega

end Constant

/-! ## Words for slots -/

namespace SlotWord

/-- The word of an index that has no entry. -/
def unusable : UInt32 := 0xFFFFFFFF

/-- The low 32 bits of the offset. -/
def encode : Option Nat → UInt32
  | none => unusable
  | some offset => UInt32.ofNat offset

def decode (w : UInt32) : Option Nat := if w = unusable then none else some w.toNat

theorem decode_encode {slot : Option Nat} (h : ∀ offset ∈ slot, offset < 2 ^ 32 - 1) :
    decode (encode slot) = slot := by
  cases slot with
  | none => rfl
  | some offset =>
    have hlow : offset < 2 ^ 32 - 1 := h offset rfl
    have hword : (UInt32.ofNat offset).toNat = offset :=
      UInt32.toNat_ofNat_of_lt' (lt_trans hlow (by decide))
    have hne : UInt32.ofNat offset ≠ unusable := by
      intro heq
      have hlast : offset = 2 ^ 32 - 1 := hword.symm.trans (congrArg UInt32.toNat heq)
      omega
    simp only [encode, decode, if_neg hne, hword]

end SlotWord

/-- The slots start behind each other from the offset on, as closely as constants can. -/
def LowSlots (offset : Nat) (slots : Array (Option Nat)) : Prop :=
  ∀ i start : Nat, slots[i]? = some (some start) → 1 ≤ i ∧ start ≤ offset + 65538 * (i - 1)

namespace LowSlots

variable {offset start bound : Nat} {slots : Array (Option Nat)}

theorem reserved (offset : Nat) : LowSlots offset #[none] := by
  intro i start h
  rcases i with _ | i <;> simp at h

theorem push_none (h : LowSlots offset slots) : LowSlots offset (slots.push none) := by
  intro i start hi
  simp only [Array.getElem?_push] at hi
  split at hi
  · simp at hi
  · exact h i start hi

theorem push_some (h : LowSlots offset slots) (hpos : 0 < slots.size)
    (hstart : start ≤ offset + 65538 * (slots.size - 1)) :
    LowSlots offset (slots.push (some start)) := by
  intro i other hi
  simp only [Array.getElem?_push] at hi
  split at hi
  · rename_i heq
    obtain rfl : start = other := by simpa using hi
    exact heq ▸ ⟨hpos, hstart⟩
  · exact h i other hi

end LowSlots

/-! ## Pools -/

namespace ConstantPool.Represents

open Constant

variable {p : ConstantPool} {cs : List Constant} {i start : Nat}

theorem at?_of_start (h : p.Represents cs) (hi : p.starts[i]? = some (some start)) :
    ∃ c, at? 0 cs i = some (start, c) := by
  have hat : p.starts[i]?.join = (at? 0 cs i).map Prod.fst := h.holds.starts i
  simp only [hi, Option.join_some] at hat
  obtain ⟨⟨other, c⟩, hc, rfl⟩ := Option.map_eq_some_iff.mp hat.symm
  exact ⟨c, hc⟩

theorem lowSlots (h : p.Represents cs) : LowSlots 0 p.starts := by
  intro i start hi
  obtain ⟨c, hc⟩ := h.at?_of_start hi
  exact start_le hc

theorem index_lt (h : p.Represents cs) (hi : p.starts[i]? = some (some start)) : i < 65536 := by
  obtain ⟨c, hc⟩ := h.at?_of_start hi
  exact h.at?_lt hc

/-- Where an index is left, an entry that is written now starts within the bound. -/
theorem entries_le {index : UInt16} (h : p.Represents cs) (hindex : p.nextIndex = .ok index) :
    index.toNat = p.count ∧ p.entries.size ≤ 65534 * 65538 := by
  have hcount := h.count
  have hbytes := length_encodeAll_le cs
  have hsize := h.size_entries
  unfold nextIndex at hindex
  split at hindex
  case isTrue hroom =>
    obtain rfl := Except.ok.inj hindex
    exact ⟨UInt16.toNat_ofNat_of_lt' hroom, by omega⟩
  case isFalse => simp at hindex

end ConstantPool.Represents

/-! ## Walks that record -/

/-- A walk over bytes that keeps what it has recorded, also when it breaks off. -/
abbrev Recorder (α : Type) := EStateM Error (Cursor × Array (Option Nat)) α

namespace Recorder

variable {α β : Type} {slots : Array (Option Nat)} {c : Cursor}

def read (d : Decoder α) : Recorder α := fun (c, slots) =>
  match d c with
  | .ok a c => .ok a (c, slots)
  | .error e c => .error e (c, slots)

def record (slot : Option Nat) : Recorder Unit := fun (c, slots) => .ok () (c, slots.push slot)

/-- Passes over constants until they have taken `n` slots, and records where each of them starts as
soon as its tag is known. -/
def constants : Nat → Recorder Unit
  | 0 => pure ()
  | n + 1 => do
    let start ← read Decoder.position
    let tag ← read Decoder.tag
    record (some start)
    read (Decoder.skipPayload tag)
    if tag.slots = 2 then
      match n with
      | 0 => pure ()
      | n + 1 => do
        record none
        constants n
    else constants n

/-- What is done behind a constant where `n + 1` slots were left. -/
def behind (n : Nat) (tag : Tag) : Recorder Unit :=
  if tag.slots = 2 then
    match n with
    | 0 => pure ()
    | n + 1 => do
      record none
      constants n
  else constants n

theorem constants_succ (n : Nat) : constants (n + 1) = (do
    let start ← read Decoder.position
    let tag ← read Decoder.tag
    record (some start)
    read (Decoder.skipPayload tag)
    behind n tag) := by
  cases n <;> rfl

/-- Walks over the start of a class file, up to the end of its pool. -/
def front : Recorder Unit := do
  read Decoder.magicNumber
  let _ ← read Decoder.version
  let count ← read Decoder.u16
  constants (count.toNat - 1)

/-- What the walk has recorded when it ends, well or not. -/
def recorded (r : Recorder α) (c : Cursor) (slots : Array (Option Nat)) : Array (Option Nat) :=
  match r (c, slots) with
  | .ok _ (_, slots) | .error _ (_, slots) => slots

/-- The same walk, with the records as its answer. They are lost when it fails. -/
def answering (slots : Array (Option Nat)) (r : Recorder Unit) : Decoder (Array (Option Nat)) :=
  fun c => match r (c, slots) with
    | .ok () (c, slots) => .ok slots c
    | .error e (c, _) => .error e c

theorem answering_read_bind (d : Decoder α) (f : α → Recorder Unit) :
    answering slots (read d >>= f) = d >>= fun a => answering slots (f a) := by
  funext c
  cases hd : d c with
  | ok a c' =>
    have hread : read d (c, slots) = .ok a (c', slots) := by simp only [read, hd]
    rw [bind_apply_ok hd]
    simp only [answering, bind_apply_ok hread]
  | error e c' =>
    have hread : read d (c, slots) = .error e (c', slots) := by simp only [read, hd]
    rw [bind_apply_error hd]
    simp only [answering, bind_apply_error hread]

theorem answering_record_bind (slot : Option Nat) (r : Recorder Unit) :
    answering slots (record slot >>= fun _ => r) = answering (slots.push slot) r := rfl

theorem answering_constants (slots : Array (Option Nat)) (n : Nat) :
    answering slots (constants n) = Decoder.constantsInto slots n := by
  induction n using Nat.strong_induction_on generalizing slots with
  | _ n ih =>
    rcases n with _ | n
    · rfl
    rw [constants_succ, Decoder.constantsInto]
    simp only [answering_read_bind, answering_record_bind]
    refine bind_congr fun start => bind_congr fun tag => bind_congr fun _ => ?_
    unfold behind
    split
    · cases n with
      | zero => rfl
      | succ n => exact ih n (by omega) _
    · exact ih n (by omega) _

theorem recorded_read_ok {d : Decoder α} {f : α → Recorder β} {a : α} {c' : Cursor}
    (h : d c = .ok a c') : recorded (read d >>= f) c slots = recorded (f a) c' slots := by
  have hread : read d (c, slots) = .ok a (c', slots) := by simp only [read, h]
  simp only [recorded, bind_apply_ok hread]

theorem recorded_read_error {d : Decoder α} {f : α → Recorder β} {e : Error} {c' : Cursor}
    (h : d c = .error e c') : recorded (read d >>= f) c slots = slots := by
  have hread : read d (c, slots) = .error e (c', slots) := by simp only [read, h]
  simp only [recorded, bind_apply_error hread]

theorem recorded_read (d : Decoder α) (f : α → Recorder β) (c : Cursor)
    (slots : Array (Option Nat)) :
    recorded (read d >>= f) c slots = slots ∨
    ∃ a c', d c = .ok a c' ∧ recorded (read d >>= f) c slots = recorded (f a) c' slots := by
  cases hd : d c with
  | ok a c' =>
    right
    exact ⟨a, c', rfl, recorded_read_ok hd⟩
  | error e c' =>
    left
    exact recorded_read_error hd

/-- A constant is recorded or breaks the walk off, and the walk goes on no further behind it than it
has slots. -/
theorem recorded_constant (next : Tag → Recorder Unit) (slots : Array (Option Nat))
    (hc : c.position ≤ c.bytes.size) :
    let walk : Recorder Unit := do
      let start ← read Decoder.position
      let tag ← read Decoder.tag
      record (some start)
      read (Decoder.skipPayload tag)
      next tag
    recorded walk c slots = slots ∨ recorded walk c slots = slots.push (some c.position) ∨
    ∃ (tag : Tag) (c' : Cursor),
      recorded walk c slots = recorded (next tag) c' (slots.push (some c.position)) ∧
      c'.position ≤ c'.bytes.size ∧ c'.position ≤ c.position + 65538 * tag.slots := by
  intro walk
  have hstart : Decoder.position c = .ok c.position c := rfl
  cases htag : Decoder.tag c with
  | error e c' =>
    left
    exact (recorded_read_ok hstart).trans (recorded_read_error htag)
  | ok tag c₁ =>
    obtain ⟨part, hbyte, htagAt, rfl⟩ := (Decoder.reads_tag c c₁ tag hc).mp htag
    have hfirst : recorded walk c slots =
        recorded (read (Decoder.skipPayload tag) >>= fun _ => next tag)
        ⟨c.bytes, c.position + part.length⟩ (slots.push (some c.position)) :=
      (recorded_read_ok hstart).trans (recorded_read_ok htag)
    right
    cases hskip : Decoder.skipPayload tag ⟨c.bytes, c.position + part.length⟩ with
    | error e c' =>
      left
      exact hfirst.trans (recorded_read_error hskip)
    | ok _ c₂ =>
      obtain ⟨_, ⟨payload, hfits, rfl⟩, hspell, rfl⟩ :=
        (Decoder.reads_skipPayload tag _ c₂ () htagAt.le).mp hskip
      right
      refine ⟨tag, _, hfirst.trans (recorded_read_ok hskip), hspell.le, ?_⟩
      have hlen := Tag.length_spell_le hfits
      simp only [hbyte, List.length_singleton]
      omega

/-- The walk is as close to its start as the slots recorded so far allow. -/
structure InForm (c : Cursor) (slots : Array (Option Nat)) : Prop where
  inside : c.position ≤ c.bytes.size
  reserved : 0 < slots.size
  position_le : c.position ≤ 10 + 65538 * (slots.size - 1)
  low : LowSlots 10 slots

theorem InForm.push_some (h : InForm c slots) : LowSlots 10 (slots.push (some c.position)) :=
  h.low.push_some h.reserved h.position_le

theorem lowSlots_constants (n : Nat) (h : InForm c slots) :
    LowSlots 10 (recorded (constants n) c slots) ∧
      (recorded (constants n) c slots).size ≤ slots.size + n := by
  induction n using Nat.strong_induction_on generalizing c slots with
  | _ n ih =>
    rcases n with _ | n
    · exact ⟨h.low, le_rfl⟩
    rw [constants_succ]
    rcases recorded_constant (behind n) slots h.inside with heq | heq | ⟨tag, c', heq, hin, hle⟩
    · rw [heq]
      exact ⟨h.low, by omega⟩
    · rw [heq, Array.size_push]
      exact ⟨h.push_some, by omega⟩
    rw [heq]
    have hreserved := h.reserved
    have hposition := h.position_le
    have hslots := tag.slots_pos
    have htwo := tag.slots_le_two
    unfold behind
    split
    · rcases n with _ | n
      · refine ⟨h.push_some, ?_⟩
        show (slots.push (some c.position)).size ≤ _
        simp
      have hform : InForm c' ((slots.push (some c.position)).push none) :=
        ⟨hin, by simp, by simp only [Array.size_push]; omega, h.push_some.push_none⟩
      obtain ⟨hlow, hsize⟩ := ih n (by omega) hform
      simp only [Array.size_push] at hsize
      exact ⟨hlow, hsize.trans (by omega)⟩
    · have hform : InForm c' (slots.push (some c.position)) :=
        ⟨hin, by simp, by simp only [Array.size_push]; omega, h.push_some⟩
      obtain ⟨hlow, hsize⟩ := ih n (by omega) hform
      simp only [Array.size_push] at hsize
      exact ⟨hlow, by omega⟩

/-- What the walk over the pool of a class file has recorded when it ends, well or not. -/
def slotsOf (bytes : Bytes) : Array (Option Nat) := recorded front (Cursor.start bytes) #[none]

theorem answering_front : answering #[none] front = (do
    Decoder.magicNumber
    let _ ← Decoder.version
    Decoder.constants) := by
  unfold front Decoder.constants
  simp only [answering_read_bind, answering_constants]

theorem recorded_of_answering {r : Recorder Unit} {c' : Cursor} {more : Array (Option Nat)}
    (h : answering slots r c = .ok more c') : recorded r c slots = more := by
  unfold answering at h
  unfold recorded
  cases hr : r (c, slots) with
  | ok _ t =>
    simp only [hr] at h
    exact (EStateM.Result.ok.inj h).1
  | error e t => simp [hr] at h

theorem slotsOf_cases (bytes : Bytes) : slotsOf bytes = #[none] ∨
    ∃ (count : UInt16) (c : Cursor),
      slotsOf bytes = recorded (constants (count.toNat - 1)) c #[none] ∧
      c.position ≤ c.bytes.size ∧ c.position = 10 := by
  unfold slotsOf front
  rcases recorded_read Decoder.magicNumber _ (Cursor.start bytes) #[none] with
    heq | ⟨_, c₁, hmagic, heq₁⟩
  · exact .inl heq
  rcases recorded_read Decoder.version _ c₁ #[none] with heq | ⟨v, c₂, hversion, heq₂⟩
  · exact .inl (heq₁.trans heq)
  rcases recorded_read Decoder.u16 _ c₂ #[none] with heq | ⟨count, c₃, hcount, heq₃⟩
  · exact .inl (heq₁.trans (heq₂.trans heq))
  right
  obtain ⟨_, rfl, hat₁, rfl⟩ := (Decoder.reads_magicNumber _ _ _ (Nat.zero_le _)).mp hmagic
  obtain ⟨_, rfl, hat₂, rfl⟩ := (Decoder.reads_version _ _ _ hat₁.le).mp hversion
  obtain ⟨_, rfl, hat₃, rfl⟩ := (Decoder.reads_u16 _ _ _ hat₂.le).mp hcount
  refine ⟨count, _, heq₁.trans (heq₂.trans heq₃), hat₃.le, ?_⟩
  simp only [Cursor.start, length_bytes32, List.length_append, length_bytes16]

theorem lowSlots_slotsOf (bytes : Bytes) :
    LowSlots 10 (slotsOf bytes) ∧ (slotsOf bytes).size ≤ 65535 := by
  rcases slotsOf_cases bytes with heq | ⟨count, c, heq, hin, hten⟩
  · rw [heq]
    exact ⟨.reserved 10, by simp⟩
  have hform : InForm c #[none] := ⟨hin, by simp, Nat.le_add_right_of_le hten.le, .reserved 10⟩
  obtain ⟨hlow, hsize⟩ := lowSlots_constants (count.toNat - 1) hform
  have hlt : count.toNat < 65536 := count.toNat_lt
  rw [heq]
  refine ⟨hlow, hsize.trans ?_⟩
  simp only [List.size_toArray, List.length_singleton]
  omega

theorem starts_of_parse {bytes : Bytes} {f : ClassFile} (h : ClassFile.parse bytes = .ok f) :
    f.pool.starts = slotsOf bytes := by
  obtain ⟨l, hrun, hread⟩ := except_bind_eq_ok.mp h
  have hstarts : f.pool.starts = l.starts := by
    obtain ⟨s, hs, hat, rfl⟩ := ClassFile.layout_run_eq_ok.mp hrun
    rw [ClassSyntax.read_layoutAt hs hat] at hread
    rw [← Except.ok.inj hread]
    rfl
  unfold Decoder.run at hrun
  cases hlayout : Decoder.layout (Cursor.start bytes) with
  | error e c' => simp [hlayout] at hrun
  | ok other c' =>
    obtain rfl : other = l := by simpa [hlayout] using hrun
    obtain ⟨_, c₁, hmagic, hlayout⟩ := bind_eq_ok.mp hlayout
    obtain ⟨v, c₂, hversion, hlayout⟩ := bind_eq_ok.mp hlayout
    obtain ⟨starts, c₃, hconstants, hlayout⟩ := bind_eq_ok.mp hlayout
    obtain ⟨sections, c₄, hsections, hlayout⟩ := bind_eq_ok.mp hlayout
    obtain ⟨rfl, -⟩ := pure_eq_ok.mp hlayout
    have hfront : answering #[none] front (Cursor.start bytes) = .ok starts c₃ := by
      rw [answering_front, bind_apply_ok hmagic, bind_apply_ok hversion, hconstants]
    rw [hstarts, slotsOf, recorded_of_answering hfront]

end Recorder

/-! ## No offset is too great -/

/-- In a pool after any calls an entry that is about to be registered, and every one that has been,
starts no further than 65534 longest texts take, under an index of 16 bits. In any bytes, a walk
over the pool records no payload beyond 65531 bytes before the end of the 32 bits, whether it gets
through or breaks off. So the words of the slots tell the slots. -/
theorem offsets_fit_words (capacity : Nat) (growth : Growth) (calls : List PoolCall)
    (bytes : Bytes) :
    (let p := PoolCall.runAll calls (ConstantPool.withPolicy capacity growth);
      (∀ index, p.nextIndex = .ok index →
        index.toNat = p.count ∧ p.entries.size ≤ 65534 * 65538) ∧
      (∀ i start, p.starts[i]? = some (some start) →
        start ≤ 65534 * 65538 ∧ i ≤ 65535 ∧ (UInt16.ofNat i).toNat = i) ∧
      ∀ slot ∈ p.starts, SlotWord.decode (SlotWord.encode slot) = slot) ∧
    (let slots := Recorder.slotsOf bytes;
      (∀ i start, slots[i]? = some (some start) → start + 1 ≤ 2 ^ 32 - 65531 ∧ i ≤ 65534) ∧
      (∀ slot ∈ slots, SlotWord.decode (SlotWord.encode (slot.map (· + 1))) = slot.map (· + 1)) ∧
      (Recorder.answering #[none] Recorder.front = do
        Decoder.magicNumber
        let _ ← Decoder.version
        Decoder.constants) ∧
      ∀ f, ClassFile.parse bytes = .ok f → f.pool.starts = slots) := by
  refine ⟨?_, ?_⟩
  · obtain ⟨cs, -, h⟩ := PoolCall.runAll_represents calls (.withPolicy capacity growth)
    intro p
    have hlow (i start : Nat) (hi : p.starts[i]? = some (some start)) :
        start ≤ 65534 * 65538 ∧ i ≤ 65535 := by
      have hstart := (h.lowSlots i start hi).2
      have hindex := h.index_lt hi
      omega
    refine ⟨fun index hindex => h.entries_le hindex, fun i start hi => ?_, fun slot hslot => ?_⟩
    · obtain ⟨hstart, hindex⟩ := hlow i start hi
      exact ⟨hstart, hindex, UInt16.toNat_ofNat_of_lt' (Nat.lt_succ_of_le hindex)⟩
    · obtain ⟨i, hi⟩ := Array.mem_iff_getElem?.mp hslot
      apply SlotWord.decode_encode
      rintro start rfl
      have := hlow i start hi
      omega
  · intro slots
    obtain ⟨hlow, hsize⟩ := Recorder.lowSlots_slotsOf bytes
    have hfar (i start : Nat) (hi : slots[i]? = some (some start)) :
        start + 1 ≤ 2 ^ 32 - 65531 ∧ i ≤ 65534 := by
      have hstart := (hlow i start hi).2
      obtain ⟨hindex, -⟩ := Array.getElem?_eq_some_iff.mp hi
      have : i < 65535 := lt_of_lt_of_le hindex hsize
      omega
    refine ⟨hfar, fun slot hslot => ?_, Recorder.answering_front,
      fun f hf => Recorder.starts_of_parse hf⟩
    obtain ⟨i, hi⟩ := Array.mem_iff_getElem?.mp hslot
    apply SlotWord.decode_encode
    intro payload hpayload
    obtain ⟨start, rfl, rfl⟩ := Option.map_eq_some_iff.mp hpayload
    have := hfar i start hi
    omega

end JavaClass
