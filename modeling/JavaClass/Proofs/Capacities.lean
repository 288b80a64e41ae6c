import JavaClass.Proofs.WrittenTexts
import Mathlib.Order.Monotone.Basic

/-!
# Capacities

Every operation is a few steps on the storage underneath: it reserves room, and then writes into it.
No write is larger than the room that is left, so the storage never has to grow on its own, and only
a reservation that does not fit changes the capacity. What is read from a buffer does not depend on
how much room there was at any time.
-/

namespace JavaClass

theorem Growth.le_newCapacity (rule : Growth) (size capacity required : Nat) :
    required ≤ rule.newCapacity size capacity required := by
  unfold newCapacity
  split
  · exact Nat.le_max_left _ _
  · split
    · exact Nat.le_max_left _ _
    · exact Nat.le_max_left _ _

namespace Buffer

/-! ## Steps -/

/-- What an operation asks of the storage underneath. -/
inductive Step (α : Type)
  /-- room for `n` more elements -/
  | reserve (n : Nat)
  /-- elements at the end -/
  | write (values : List α)
  /-- other content that is no longer than what was there -/
  | replace (data : Array α)

/-- A write that has no room makes the storage grow to a capacity of its own choice, from the
capacity that there is and the one that is needed. -/
def Step.apply {α : Type} (own : Nat → Nat → Nat) (b : Buffer α) : Step α → Buffer α
  | reserve n => b.reserve n
  | write values =>
    { b.write values with
      capacity :=
        if b.size + values.length ≤ b.capacity then b.capacity
        else own b.capacity (b.size + values.length) }
  | replace data => { b with data := data }

/-- How a step changes a buffer if the capacity is left to the rule alone. -/
inductive Step.Governed {α : Type} : Step α → Buffer α → Buffer α → Prop
  | enough {b : Buffer α} {n : Nat} : b.size + n ≤ b.capacity → Governed (.reserve n) b b
  | grown {b : Buffer α} {n capacity : Nat} : b.capacity < b.size + n →
      capacity = b.growth.newCapacity b.size b.capacity (b.size + n) →
      b.capacity < capacity → b.size + n ≤ capacity →
      Governed (.reserve n) b { b with capacity := capacity }
  | written {b : Buffer α} {values : List α} : b.size + values.length ≤ b.capacity →
      Governed (.write values) b (b.write values)
  | replaced {b : Buffer α} {data : Array α} : data.size ≤ b.size →
      Governed (.replace data) b { b with data := data }

/-- What the content becomes, whatever room there is. -/
def Step.content {α : Type} (data : Array α) : Step α → Array α
  | reserve _ => data
  | write values => data.appendList values
  | replace data => data

variable {α : Type} {b b' mid : Buffer α} {n : Nat} {values : List α} {step : Step α}

theorem reserve_of_le (h : b.size + n ≤ b.capacity) : b.reserve n = b := by
  unfold reserve tryReserve
  rw [if_pos h]

theorem reserve_of_lt (h : b.capacity < b.size + n) : b.reserve n =
    { b with capacity := b.growth.newCapacity b.size b.capacity (b.size + n) } := by
  unfold reserve tryReserve
  rw [if_neg (Nat.not_le.mpr h)]

theorem governed_reserve (b : Buffer α) (n : Nat) : (Step.reserve n).Governed b (b.reserve n) := by
  by_cases h : b.size + n ≤ b.capacity
  · rw [reserve_of_le h]
    exact .enough h
  · have hlt : b.capacity < b.size + n := Nat.not_le.mp h
    have hrequired := b.growth.le_newCapacity b.size b.capacity (b.size + n)
    rw [reserve_of_lt hlt]
    exact .grown hlt rfl (hlt.trans_le hrequired) hrequired

theorem tryReserve_eq (b : Buffer α) (n : Nat) : ∃ grew, b.tryReserve n = (grew, b.reserve n) ∧
    (b.reserve n).data = b.data ∧ (grew = true ↔ (b.reserve n).capacity ≠ b.capacity) := by
  refine ⟨(b.tryReserve n).1, rfl, data_reserve b n, ?_⟩
  by_cases h : b.size + n ≤ b.capacity
  · rw [reserve_of_le h, tryReserve, if_pos h]
    simp
  · have hlt : b.capacity < b.size + n := Nat.not_le.mp h
    have hrequired := b.growth.le_newCapacity b.size b.capacity (b.size + n)
    rw [reserve_of_lt hlt, tryReserve, if_neg h]
    exact iff_of_true rfl (hlt.trans_le hrequired).ne'

theorem size_reserve (b : Buffer α) (n : Nat) : (b.reserve n).size = b.size :=
  congrArg Array.size (data_reserve b n)

theorem size_add_le_reserve (b : Buffer α) (n : Nat) :
    (b.reserve n).size + n ≤ (b.reserve n).capacity := by
  rw [size_reserve]
  by_cases h : b.size + n ≤ b.capacity
  · rw [reserve_of_le h]
    exact h
  · rw [reserve_of_lt (Nat.not_le.mp h)]
    exact b.growth.le_newCapacity _ _ _

theorem size_write (b : Buffer α) (values : List α) :
    (b.write values).size = b.size + values.length := by
  rw [size_eq, toList_write, List.length_append, size_eq]

namespace Step.Governed

/-- Whatever rule the storage has of its own, it does not come to that. -/
theorem apply_eq (h : step.Governed b b') (own : Nat → Nat → Nat) : step.apply own b = b' := by
  cases h with
  | enough hroom => exact reserve_of_le hroom
  | grown hshort hcapacity _ _ =>
    rw [hcapacity]
    exact reserve_of_lt hshort
  | written hroom =>
    dsimp only [apply]
    rw [if_pos hroom]
    rfl
  | replaced _ => rfl

theorem data_eq (h : step.Governed b b') : b'.data = step.content b.data := by
  cases h <;> rfl

theorem growth_eq (h : step.Governed b b') : b'.growth = b.growth := by
  cases h <;> rfl

theorem capacity_le (h : step.Governed b b') : b.capacity ≤ b'.capacity := by
  cases h with
  | enough _ => exact Nat.le_refl _
  | grown _ _ hmore _ => exact hmore.le
  | written _ => exact Nat.le_refl _
  | replaced _ => exact Nat.le_refl _

theorem size_le_capacity (h : step.Governed b b') (hsize : b.size ≤ b.capacity) :
    b'.size ≤ b'.capacity := by
  cases h with
  | enough _ => exact hsize
  | grown _ _ hmore _ => exact hsize.trans hmore.le
  | written hroom =>
    rw [size_write]
    exact hroom
  | replaced hshorter => exact hshorter.trans hsize

end Step.Governed

/-! ## Runs of steps -/

/-- Steps that lead from one buffer to another, each as the rule has it. -/
inductive Runs {α : Type} : Buffer α → List (Step α) → Buffer α → Prop
  | nil {b : Buffer α} : Runs b [] b
  | cons {b mid b' : Buffer α} {step : Step α} {steps : List (Step α)} :
      step.Governed b mid → Runs mid steps b' → Runs b (step :: steps) b'

namespace Runs

variable {steps more : List (Step α)}

theorem append (h : Runs b steps mid) (hmore : Runs mid more b') : Runs b (steps ++ more) b' := by
  induction h with
  | nil => exact hmore
  | cons hstep _ ih => exact .cons hstep (ih hmore)

theorem reserve (b : Buffer α) (n : Nat) : Runs b [.reserve n] (b.reserve n) :=
  .cons (governed_reserve b n) .nil

theorem replace {data : Array α} (h : data.size ≤ b.size) :
    Runs b [.replace data] { b with data := data } :=
  .cons (.replaced h) .nil

theorem write {parts : List (List α)} (h : b.size + parts.flatten.length ≤ b.capacity) :
    Runs b (parts.map .write) (b.write parts.flatten) := by
  induction parts generalizing b with
  | nil => simpa [Buffer.write] using Runs.nil
  | cons part parts ih =>
    rw [List.flatten_cons, List.length_append] at h
    have hrest : (b.write part).size + parts.flatten.length ≤ (b.write part).capacity := by
      rw [size_write]
      show _ ≤ b.capacity
      omega
    have hwhole : (b.write part).write parts.flatten = b.write (part ++ parts.flatten) := by
      simp [Buffer.write, ← Array.toList_inj]
    rw [List.map_cons, List.flatten_cons, ← hwhole]
    exact .cons (.written (by omega)) (ih hrest)

theorem reserve_write (parts : List (List α)) (h : parts.flatten.length = n) (b : Buffer α) :
    Runs b (.reserve n :: parts.map .write) ((b.reserve n).write parts.flatten) :=
  .cons (governed_reserve b n) (.write (by rw [h]; exact size_add_le_reserve b n))

theorem reserve_write_one (values : List α) (h : values.length = n) (b : Buffer α) :
    Runs b [.reserve n, .write values] ((b.reserve n).write values) := by
  have hwrite := reserve_write [values] (n := n) (by rwa [List.flatten_singleton]) b
  rwa [List.flatten_singleton] at hwrite

theorem foldl_apply (h : Runs b steps b') (own : Nat → Nat → Nat) :
    steps.foldl (Step.apply own) b = b' := by
  induction h with
  | nil => rfl
  | cons hstep _ ih => rw [List.foldl_cons, hstep.apply_eq, ih]

theorem take (h : Runs b steps b') (own : Nat → Nat → Nat) (k : Nat) :
    Runs b (steps.take k) ((steps.take k).foldl (Step.apply own) b) := by
  induction h generalizing k with
  | nil =>
    rw [List.take_nil]
    exact .nil
  | cons hstep _ ih =>
    cases k with
    | zero => exact .nil
    | succ k =>
      rw [List.take_succ_cons, List.foldl_cons, hstep.apply_eq]
      exact .cons hstep (ih k)

theorem governed (h : Runs b steps b') (own : Nat → Nat → Nat) {k : Nat}
    (hk : steps[k]? = some step) : step.Governed ((steps.take k).foldl (Step.apply own) b)
      ((steps.take (k + 1)).foldl (Step.apply own) b) := by
  induction h generalizing k with
  | nil => cases hk
  | cons hstep _ ih =>
    rw [List.take_succ_cons, List.foldl_cons]
    cases k with
    | zero =>
      obtain rfl := Option.some.inj hk
      rw [hstep.apply_eq]
      exact hstep
    | succ k =>
      rw [List.take_succ_cons, List.foldl_cons, hstep.apply_eq]
      exact ih hk

theorem data_eq (h : Runs b steps b') : b'.data = steps.foldl Step.content b.data := by
  induction h with
  | nil => rfl
  | cons hstep _ ih => rw [List.foldl_cons, ih, hstep.data_eq]

theorem growth_eq (h : Runs b steps b') : b'.growth = b.growth := by
  induction h with
  | nil => rfl
  | cons hstep _ ih => rw [ih, hstep.growth_eq]

theorem monotone_capacity (h : Runs b steps b') (own : Nat → Nat → Nat) :
    Monotone fun k => ((steps.take k).foldl (Step.apply own) b).capacity := by
  apply monotone_nat_of_le_succ
  intro k
  cases hk : steps[k]? with
  | none =>
    have hlength := List.getElem?_eq_none_iff.mp hk
    rw [List.take_of_length_le hlength, List.take_of_length_le (hlength.trans (Nat.le_succ k))]
  | some step => exact (h.governed own hk).capacity_le

theorem size_le_capacity (h : Runs b steps b') (hsize : b.size ≤ b.capacity) :
    b'.size ≤ b'.capacity := by
  induction h with
  | nil => exact hsize
  | cons hstep _ ih => exact ih (hstep.size_le_capacity hsize)

end Runs

/-! ## Calls -/

inductive Word
  | two (v : UInt16)
  | four (v : UInt32)
  | eight (v : UInt64)

def putWord (b : ByteBuffer) : Word → ByteBuffer
  | .two v => b.put16 v
  | .four v => b.put32 v
  | .eight v => b.put64 v

def setWord (b : ByteBuffer) (offset : Nat) : Word → Except Error ByteBuffer
  | .two v => b.set16 offset v
  | .four v => b.set32 offset v
  | .eight v => b.set64 offset v

def holdsWord (b : ByteBuffer) (offset : Nat) : Word → Except Error Bool
  | .two v => b.holds16 offset v
  | .four v => b.holds32 offset v
  | .eight v => b.holds64 offset v

def Word.bytes : Word → List UInt8
  | two v => bytes16 v
  | four v => bytes32 v
  | eight v => bytes64 v

def Word.width : Word → Nat
  | two _ => 2
  | four _ => 4
  | eight _ => 8

theorem Word.length_bytes (w : Word) : w.bytes.length = w.width := by
  cases w with
  | two v => exact length_bytes16 v
  | four v => exact length_bytes32 v
  | eight v => exact length_bytes64 v

/-- The operations on a buffer. Those behind `clear` are for bytes only. -/
inductive Call : Type → Type 1
  | size {α : Type} : Call α
  | isEmpty {α : Type} : Call α
  | capacity {α : Type} : Call α
  | get {α : Type} (i : Nat) : Call α
  | last {α : Type} : Call α
  | reserve {α : Type} (n : Nat) : Call α
  | tryReserve {α : Type} (n : Nat) : Call α
  | push {α : Type} (v : α) : Call α
  | append {α : Type} (values : Array α) : Call α
  | appendRange {α : Type} (values : Array α) (start stop : Nat) : Call α
  | set {α : Type} (i : Nat) (v : α) : Call α
  | pop {α : Type} : Call α
  | truncate {α : Type} (n : Nat) : Call α
  | clear {α : Type} : Call α
  | skip (n : Nat) : Call UInt8
  | put8 (v : UInt8) : Call UInt8
  | putWord (w : Word) : Call UInt8
  | putMemberHeader (flags name descriptor : UInt16) : Call UInt8
  | putAttributeHeader (name : UInt16) (length : UInt32) : Call UInt8
  | putWordAttribute (name : UInt16) (length : UInt32) (value : UInt16) : Call UInt8
  | putReference (tag : UInt8) (index : UInt16) : Call UInt8
  | putHandle (tag kind : UInt8) (index : UInt16) : Call UInt8
  | putText (text : String) : Call UInt8
  | setWord (offset : Nat) (w : Word) : Call UInt8
  | get16 (offset : Nat) : Call UInt8
  | get32 (offset : Nat) : Call UInt8
  | get64 (offset : Nat) : Call UInt8
  | holdsWord (offset : Nat) (w : Word) : Call UInt8

inductive Answer (α : Type)
  | done
  | element (v : α)
  | found (v? : Option α)
  | number (n : Nat)
  | flag (value : Bool)

/-- The answer to a change that may be refused, and the buffer behind it. -/
def changed {α : Type} (b : Buffer α) : Except Error (Buffer α) → Except Error (Answer α) × Buffer α
  | .ok b' => (.ok .done, b')
  | .error e => (.error e, b)

namespace Call

def run {α : Type} : Call α → Buffer α → Except Error (Answer α) × Buffer α
  | size, b => (.ok (.number b.size), b)
  | isEmpty, b => (.ok (.flag b.isEmpty), b)
  | capacity, b => (.ok (.number b.capacity), b)
  | get i, b => (.element <$> b.get i, b)
  | last, b => (.ok (.found b.last?), b)
  | reserve n, b => (.ok .done, b.reserve n)
  | tryReserve n, b => (.ok (.flag (b.tryReserve n).1), (b.tryReserve n).2)
  | push v, b => (.ok .done, b.push v)
  | append values, b => (.ok .done, b.append values)
  | appendRange values start stop, b => b.changed (b.appendRange values start stop)
  | set i v, b => b.changed (b.set i v)
  | pop, b => (.ok (.found b.last?), b.pop)
  | truncate n, b => (.ok .done, b.truncate n)
  | clear, b => (.ok .done, b.clear)
  | skip n, b => (.ok (.number b.size), b.skip n)
  | put8 v, b => (.ok .done, b.put8 v)
  | putWord w, b => (.ok .done, b.putWord w)
  | putMemberHeader flags name descriptor, b => (.ok .done, b.putMemberHeader flags name descriptor)
  | putAttributeHeader name length, b => (.ok .done, b.putAttributeHeader name length)
  | putWordAttribute name length value, b => (.ok .done, b.putWordAttribute name length value)
  | putReference tag index, b => (.ok .done, b.putReference tag index)
  | putHandle tag kind index, b => (.ok .done, b.putHandle tag kind index)
  | putText text, b => (.ok (.number (b.putTextCounted text).1), (b.putTextCounted text).2)
  | setWord offset w, b => b.changed (b.setWord offset w)
  | get16 offset, b => ((.number ·.toNat) <$> b.get16 offset, b)
  | get32 offset, b => ((.number ·.toNat) <$> b.get32 offset, b)
  | get64 offset, b => ((.number ·.toNat) <$> b.get64 offset, b)
  | holdsWord offset w, b => (.flag <$> b.holdsWord offset w, b)

/-- The steps of an operation on a buffer that holds `data`. The bytes of a text are written one by
one. -/
def steps {α : Type} : Call α → Array α → List (Step α)
  | reserve n, _ => [.reserve n]
  | tryReserve n, _ => [.reserve n]
  | push v, _ => [.reserve 1, .write [v]]
  | append values, _ => [.reserve values.size, .write values.toList]
  | appendRange values start stop, _ =>
    if start ≤ stop ∧ stop ≤ values.size then
      [.reserve (stop - start), .write (values.extract start stop).toList]
    else []
  | set i v, data => if i < data.size then [.replace (data.setIfInBounds i v)] else []
  | pop, data => [.replace data.pop]
  | truncate n, data => [.replace (data.shrink n)]
  | clear, _ => [.replace #[]]
  | skip n, _ => [.reserve n, .write (List.replicate n 0)]
  | put8 v, _ => [.reserve 1, .write [v]]
  | putWord w, _ => [.reserve w.width, .write w.bytes]
  | putMemberHeader flags name descriptor, _ =>
    [.reserve 6, .write (bytes16 flags), .write (bytes16 name), .write (bytes16 descriptor)]
  | putAttributeHeader name length, _ =>
    [.reserve 6, .write (bytes16 name), .write (bytes32 length)]
  | putWordAttribute name length value, _ =>
    [.reserve 8, .write (bytes16 name), .write (bytes32 length), .write (bytes16 value)]
  | putReference tag index, _ => [.reserve 3, .write [tag], .write (bytes16 index)]
  | putHandle tag kind index, _ =>
    [.reserve 4, .write [tag], .write [kind], .write (bytes16 index)]
  | putText text, _ =>
    let plain := text.toByteArray.data
    .reserve plain.size ::
      match plain.findIdx? fun byte => !ModifiedUtf8.isPlainByte byte with
      | none => plain.toList.map fun byte => .write [byte]
      | some first =>
        let rest := String.Pos.Raw.extract text ⟨first⟩ text.rawEndPos
        ((plain.extract 0 first).toList.map fun byte => .write [byte]) ++
          .reserve (2 * rest.utf8ByteSize) ::
          (((Utf16.encode rest.toList).flatMap ModifiedUtf8.ofUnit).map fun byte => .write [byte])
  | setWord offset w, data =>
    if offset + w.width ≤ data.size then [.replace (Bytes.overwrite data offset w.bytes)] else []
  | _, _ => []

/-! ## Steps of a call -/

theorem runs_append (b : Buffer α) (values : Array α) (h : values.size = n) :
    Runs b [.reserve n, .write values.toList] (b.append values) := by
  have happend : b.append values = (b.reserve values.size).write values.toList := by
    simp [Buffer.append, write, ← Array.toList_inj]
  rw [happend, h]
  exact .reserve_write_one _ h b

theorem runs_changed {p : Prop} [Decidable p] {steps : List (Step α)} (hsteps : p → Runs b steps b')
    {result : Except Error (Buffer α)} (h : result = if p then .ok b' else .error .outOfRange) :
    Runs b (if p then steps else []) (b.changed result).2 := by
  subst h
  split
  · exact hsteps ‹p›
  · exact .nil

theorem runs_put (b : ByteBuffer) (parts : List (List UInt8)) {values : List UInt8}
    (hvalues : parts.flatten = values) (h : values.length = n) :
    Runs b (.reserve n :: parts.map .write) (b.put values) := by
  subst hvalues h
  exact .reserve_write parts rfl b

theorem putWord_eq (b : ByteBuffer) (w : Word) : b.putWord w = b.put w.bytes := by
  cases w <;> rfl

theorem setWord_eq (b : ByteBuffer) (offset : Nat) (w : Word) : b.setWord offset w =
    if offset + w.width ≤ b.data.size then .ok (b.overwrite offset w.bytes)
    else .error .outOfRange := by
  rw [← w.length_bytes]
  cases w <;> rfl

theorem runs_pushes (bytes : List UInt8) {b : ByteBuffer} (h : b.size + bytes.length ≤ b.capacity) :
    Runs b (bytes.map fun byte => .write [byte]) (b.write bytes) := by
  have hflatten : (bytes.map fun byte => [byte]).flatten = bytes := by
    rw [← List.flatMap_def, List.flatMap_singleton']
  have hwrite := Runs.write (b := b) (by rwa [hflatten])
  rw [hflatten, List.map_map] at hwrite
  exact hwrite

theorem runs_putText (b : ByteBuffer) (text : String) :
    Runs b ((Call.putText text).steps b.data) (b.putText text) := by
  show Runs b (.reserve text.toByteArray.data.size :: _) (b.putText text)
  apply Runs.cons (governed_reserve b _)
  have hroom := size_add_le_reserve b text.toByteArray.data.size
  unfold Buffer.putText
  dsimp only
  cases text.toByteArray.data.findIdx? fun byte => !ModifiedUtf8.isPlainByte byte with
  | none => exact runs_pushes _ (by simpa using hroom)
  | some first =>
    have hplain : (text.toByteArray.data.extract 0 first).toList.length ≤
        text.toByteArray.data.size := by
      simp
    apply Runs.append (runs_pushes _ (by omega))
    apply Runs.cons (governed_reserve _ _)
    apply runs_pushes
    -- the room is twice what the rest takes in plain UTF-8
    have hbound := ModifiedUtf8.size_encode_le (String.Pos.Raw.extract text ⟨first⟩ text.rawEndPos)
    rw [ModifiedUtf8.encode, List.size_toArray] at hbound
    exact (Nat.add_le_add_left hbound _).trans (size_add_le_reserve _ _)

theorem runs (c : Call α) (b : Buffer α) : Runs b (c.steps b.data) (c.run b).2 := by
  cases c with
  | size | isEmpty | capacity | get | last | get16 | get32 | get64 | holdsWord => exact .nil
  | reserve n | tryReserve n => exact .reserve b n
  | push v | put8 v => exact .reserve_write_one [v] rfl b
  | append values => exact runs_append b values rfl
  | appendRange values start stop =>
    refine runs_changed (fun h => runs_append b _ ?_) rfl
    rw [Array.size_extract, Nat.min_eq_left h.2]
  | set i v => exact runs_changed (fun _ => .replace (by simp [Buffer.size])) rfl
  | pop => exact .replace (by simp [Buffer.size])
  | truncate n => exact .replace (by simp [Buffer.size])
  | clear => exact .replace (Nat.zero_le _)
  | skip n => exact .reserve_write_one _ List.length_replicate b
  | putWord w =>
    show Runs b [.reserve w.width, .write w.bytes] (b.putWord w)
    rw [putWord_eq, put, w.length_bytes]
    exact .reserve_write_one _ w.length_bytes b
  | putMemberHeader flags name descriptor =>
    exact runs_put b [bytes16 flags, bytes16 name, bytes16 descriptor] (by simp) (by simp)
  | putAttributeHeader name length =>
    exact runs_put b [bytes16 name, bytes32 length] (by simp) (by simp)
  | putWordAttribute name length value =>
    exact runs_put b [bytes16 name, bytes32 length, bytes16 value] (by simp) (by simp)
  | putReference tag index => exact runs_put b [[tag], bytes16 index] (by simp) (by simp)
  | putHandle tag kind index => exact runs_put b [[tag], [kind], bytes16 index] (by simp) (by simp)
  | putText text => exact runs_putText b text
  | setWord offset w =>
    refine runs_changed (fun _ => .replace ?_) (setWord_eq b offset w)
    exact (Bytes.size_overwrite _ _ _).le

/-! ## Answers of a call -/

/-- Whether the room that there is may show in the answer. -/
def Plain {α : Type} : Call α → Prop
  | capacity | tryReserve _ => False
  | _ => True

theorem data_run_congr (c : Call α) (h : b.data = b'.data) :
    (c.run b).2.data = (c.run b').2.data := by
  rw [(c.runs b).data_eq, (c.runs b').data_eq, h]

theorem changed_ite {p : Prop} [Decidable p] {e : Error} :
    (b.changed (if p then .ok b' else .error e)).1 = if p then .ok .done else .error e := by
  split <;> rfl

theorem answer_congr (c : Call α) (hplain : c.Plain) (h : b.data = b'.data) :
    (c.run b).1 = (c.run b').1 := by
  have hdata := c.data_run_congr h
  obtain ⟨data, room, growth⟩ := b
  obtain ⟨data', room', growth'⟩ := b'
  obtain rfl : data = data' := h
  -- what is read comes from the data, and a refusal from its size
  cases c with
  | capacity | tryReserve n => exact hplain.elim
  | appendRange values start stop | set i v => exact changed_ite.trans changed_ite.symm
  | setWord offset w =>
    show (changed _ (Buffer.setWord _ offset w)).1 = (changed _ (Buffer.setWord _ offset w)).1
    rw [setWord_eq, setWord_eq]
    exact changed_ite.trans changed_ite.symm
  | holdsWord offset w => cases w <;> rfl
  | putText text =>
    have hcount : (Buffer.putText ⟨data, room, growth⟩ text).size =
        (Buffer.putText ⟨data, room', growth'⟩ text).size :=
      congrArg Array.size hdata
    exact congrArg (fun n => Except.ok (Answer.number (n - data.size))) hcount
  | _ => rfl

/-- Two outcomes that are the same but for what is answered. -/
inductive SameOutcome {α : Type} : Except Error (Answer α) → Except Error (Answer α) → Prop
  | refused {e : Error} : SameOutcome (.error e) (.error e)
  | answered {answer answer' : Answer α} : SameOutcome (.ok answer) (.ok answer')

theorem SameOutcome.refl (result : Except Error (Answer α)) : SameOutcome result result := by
  cases result with
  | error e => exact .refused
  | ok answer => exact .answered

theorem outcome_congr (c : Call α) (h : b.data = b'.data) :
    SameOutcome (c.run b).1 (c.run b').1 := by
  by_cases hplain : c.Plain
  · rw [c.answer_congr hplain h]
    exact .refl _
  · cases c with
    | capacity | tryReserve n => exact .answered
    | _ => exact absurd trivial hplain

end Call

/-! ## Sequences of calls -/

/-- Makes calls up to the first that is refused. Collects the answers, that of a refused call
too. -/
def runAll {α : Type} : List (Call α) → Buffer α → List (Except Error (Answer α)) × Buffer α
  | [], b => ([], b)
  | c :: calls, b =>
    match c.run b with
    | (.ok answer, b) => (.ok answer :: (runAll calls b).1, (runAll calls b).2)
    | (.error e, b) => ([.error e], b)

/-- The steps of all calls that are made. -/
def stepsAll {α : Type} : List (Call α) → Buffer α → List (Step α)
  | [], _ => []
  | c :: calls, b =>
    c.steps b.data ++
      match c.run b with
      | (.ok _, b) => stepsAll calls b
      | (.error _, _) => []

/-- What two runs of the same calls have in common. -/
structure Agree {α : Type} (calls : List (Call α)) (b b' : Buffer α) : Prop where
  data : (runAll calls b).2.data = (runAll calls b').2.data
  steps : stepsAll calls b = stepsAll calls b'
  length : (runAll calls b).1.length = (runAll calls b').1.length
  answers (i : Nat) (c : Call α) : calls[i]? = some c → c.Plain →
    (runAll calls b).1[i]? = (runAll calls b').1[i]?

section

variable {c : Call α} {calls : List (Call α)} {answer : Answer α} {e : Error}

theorem runAll_of_ok (h : c.run b = (.ok answer, mid)) :
    runAll (c :: calls) b = (.ok answer :: (runAll calls mid).1, (runAll calls mid).2) := by
  rw [runAll, h]

theorem runAll_of_error (h : c.run b = (.error e, mid)) :
    runAll (c :: calls) b = ([.error e], mid) := by
  rw [runAll, h]

theorem stepsAll_of_ok (h : c.run b = (.ok answer, mid)) :
    stepsAll (c :: calls) b = c.steps b.data ++ stepsAll calls mid := by
  rw [stepsAll, h]

theorem stepsAll_of_error (h : c.run b = (.error e, mid)) :
    stepsAll (c :: calls) b = c.steps b.data := by
  rw [stepsAll, h, List.append_nil]

theorem runs_all (calls : List (Call α)) (b : Buffer α) :
    Runs b (stepsAll calls b) (runAll calls b).2 := by
  induction calls generalizing b with
  | nil => exact .nil
  | cons c calls ih =>
    have hcall := c.runs b
    rcases hrun : c.run b with ⟨e | answer, mid⟩
    · rw [runAll_of_error hrun, stepsAll_of_error hrun]
      rwa [hrun] at hcall
    · rw [runAll_of_ok hrun, stepsAll_of_ok hrun]
      rw [hrun] at hcall
      exact hcall.append (ih mid)

theorem agree_of_error {mid' : Buffer α} (h : b.data = b'.data)
    (hrun : c.run b = (.error e, mid)) (hrun' : c.run b' = (.error e, mid')) :
    Agree (c :: calls) b b' := by
  have hdata := c.data_run_congr h
  rw [hrun, hrun'] at hdata
  constructor
  case data => rwa [runAll_of_error hrun, runAll_of_error hrun']
  case steps => rw [stepsAll_of_error hrun, stepsAll_of_error hrun', h]
  case length => rw [runAll_of_error hrun, runAll_of_error hrun']
  case answers =>
    intro i d _ _
    rw [runAll_of_error hrun, runAll_of_error hrun']

theorem agree_of_ok {mid' : Buffer α} {answer' : Answer α} (h : b.data = b'.data)
    (hrun : c.run b = (.ok answer, mid)) (hrun' : c.run b' = (.ok answer', mid'))
    (hrest : Agree calls mid mid') : Agree (c :: calls) b b' := by
  constructor
  case data =>
    rw [runAll_of_ok hrun, runAll_of_ok hrun']
    exact hrest.data
  case steps => rw [stepsAll_of_ok hrun, stepsAll_of_ok hrun', h, hrest.steps]
  case length =>
    rw [runAll_of_ok hrun, runAll_of_ok hrun', List.length_cons, List.length_cons, hrest.length]
  case answers =>
    intro i d hi hplain
    rw [runAll_of_ok hrun, runAll_of_ok hrun']
    cases i with
    | zero =>
      obtain rfl := Option.some.inj hi
      have hanswer := c.answer_congr hplain h
      rw [hrun, hrun'] at hanswer
      exact congrArg some hanswer
    | succ i => exact hrest.answers i d hi hplain

theorem agree_of_data (calls : List (Call α)) (h : b.data = b'.data) : Agree calls b b' := by
  induction calls generalizing b b' with
  | nil => exact ⟨h, rfl, rfl, fun _ _ => nofun⟩
  | cons c calls ih =>
    have hdata := c.data_run_congr h
    have houtcome := c.outcome_congr h
    rcases hrun : c.run b with ⟨answer, mid⟩
    rcases hrun' : c.run b' with ⟨answer', mid'⟩
    rw [hrun, hrun'] at hdata houtcome
    cases houtcome with
    | refused => exact agree_of_error h hrun hrun'
    | answered => exact agree_of_ok h hrun hrun' (ih hdata)

end

/-- Whatever the storage would do on its own, a buffer goes through the steps of its calls by its
rule alone: nothing is written without room, and the capacity changes only where a reservation has
none, to a larger one. What the buffer holds, the steps and all answers that do not tell of the capacity
are the same for any rule and any capacity to begin with. -/
theorem growth_follows_policy (growth : Growth) (capacity : Nat) (calls : List (Call α)) :
    let start : Buffer α := withPolicy capacity growth
    let last := (runAll calls start).2
    let steps := stepsAll calls start
    (∀ own : Nat → Nat → Nat,
      let reached k := (steps.take k).foldl (Step.apply own) start
      reached steps.length = last ∧
      (∀ k (step : Step α), steps[k]? = some step →
        step.Governed (reached k) (reached (k + 1))) ∧
      (∀ k, (reached k).growth = growth ∧ (reached k).size ≤ (reached k).capacity) ∧
      ∀ j k, j ≤ k → (reached j).capacity ≤ (reached k).capacity) ∧
    (∀ n, ∃ grew, last.tryReserve n = (grew, last.reserve n) ∧
      (last.reserve n).data = last.data ∧
      (grew = true ↔ (last.reserve n).capacity ≠ last.capacity)) ∧
    ∀ otherGrowth otherCapacity, Agree calls start (withPolicy otherCapacity otherGrowth) := by
  have hruns := runs_all calls (withPolicy capacity growth)
  refine ⟨fun own => ⟨?_, fun k step hk => hruns.governed own hk, fun k => ?_, ?_⟩,
    fun n => tryReserve_eq _ n, fun _ _ => agree_of_data calls rfl⟩
  · dsimp only
    rw [List.take_length]
    exact hruns.foldl_apply own
  · have hfront := hruns.take own k
    exact ⟨hfront.growth_eq, hfront.size_le_capacity (Nat.zero_le _)⟩
  · exact fun _ _ hle => hruns.monotone_capacity own hle

example : ((withPolicy 1 .doubling : ByteBuffer).putText "ab\x00c").capacity = 8 := by
  decide +kernel

end Buffer
end JavaClass
