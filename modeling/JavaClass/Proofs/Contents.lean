import JavaClass.Proofs.Drafting
import JavaClass.Proofs.PoolCalls

/-!
# Contents of attributes

The content of an attribute is written step by step: numbers and bytes are appended, bytes that are
there already are replaced, and calls on the pool come in between. Only a patch that does not lie
inside the content can fail.
-/

namespace JavaClass

/-! ## Pools that grow -/

/-- Whatever the first pool represents, the second one represents with constants behind it. -/
def ConstantPool.GrowsTo (p q : ConstantPool) : Prop :=
  ∀ cs, p.Represents cs → ∃ ds, cs <+: ds ∧ q.Represents ds

namespace ConstantPool.GrowsTo

variable {p q r : ConstantPool}

theorem refl (p : ConstantPool) : p.GrowsTo p := fun cs h => ⟨cs, List.prefix_rfl, h⟩

theorem trans (hq : p.GrowsTo q) (hr : q.GrowsTo r) : p.GrowsTo r := by
  intro cs h
  obtain ⟨ds, hds, hq'⟩ := hq cs h
  obtain ⟨es, hes, hr'⟩ := hr ds hq'
  exact ⟨es, hds.trans hes, hr'⟩

end ConstantPool.GrowsTo

/-- The call, with a failure passed over. -/
def PoolCall.attempt (call : PoolCall) : PoolM Unit := fun p => .ok () (call.after p)

theorem PoolCall.after_growsTo (call : PoolCall) (p : ConstantPool) : p.GrowsTo (call.after p) :=
  fun _ h => call.after_represents h

/-! ## Steps that may call the pool -/

namespace DraftM

variable {α β : Type} {d d' : Draft} {x : DraftM α} {f : α → DraftM β} {a a' : α} {b : β}
  {bytes base written values : List UInt8} {offset : Nat}

/-- As `Leaves`, with any calls on the pool. -/
def Writes (x : DraftM α) (d : Draft) (a : α) (bytes : List UInt8) : Prop :=
  ∃ d', x d = .ok a d' ∧ d'.bytes = bytes ∧ d.pool.GrowsTo d'.pool

theorem Leaves.writes (h : Leaves x d a bytes) : Writes x d a bytes := by
  obtain ⟨d', hd, hbytes, hpool⟩ := h
  exact ⟨d', hd, hbytes, hpool ▸ .refl d.pool⟩

theorem writes_pure (d : Draft) (a : α) : Writes (pure a) d a d.bytes := ⟨d, rfl, rfl, .refl d.pool⟩

theorem writes_attempt (d : Draft) (call : PoolCall) :
    Writes (onPool call.attempt) d () d.bytes :=
  ⟨⟨d.buffer, call.after d.pool⟩, rfl, rfl, call.after_growsTo d.pool⟩

theorem Writes.bind {bytes' : List UInt8} (hx : Writes x d a bytes)
    (hf : ∀ d', d'.bytes = bytes → Writes (f a) d' b bytes') : Writes (x >>= f) d b bytes' := by
  obtain ⟨d', hd, hbytes, hgrows⟩ := hx
  obtain ⟨d'', hd', hbytes', hgrows'⟩ := hf d' hbytes
  exact ⟨d'', (bind_apply_ok hd).trans hd', hbytes', hgrows.trans hgrows'⟩

theorem Writes.bind_eq_ok (h : Writes x d a bytes) (hrun : (x >>= f) d = .ok b d') :
    ∃ t, t.bytes = bytes ∧ f a t = .ok b d' := by
  obtain ⟨t, ht, hbytes, -⟩ := h
  rw [bind_apply_ok ht] at hrun
  exact ⟨t, hbytes, hrun⟩

theorem Writes.eq_of_ok (h : Writes x d a bytes) (hrun : x d = .ok a' d') :
    a' = a ∧ d'.bytes = bytes ∧ d.pool.GrowsTo d'.pool := by
  obtain ⟨t, ht, hbytes, hgrows⟩ := h
  rw [ht] at hrun
  obtain ⟨rfl, rfl⟩ := EStateM.Result.ok.inj hrun
  exact ⟨rfl, hbytes, hgrows⟩

/-! ## Patches -/

theorem leaves_patchInside (h : d.bytes = base ++ written)
    (hin : offset + values.length ≤ written.length) :
    Leaves (DraftM.patch (base.length + offset) values) d ()
      (base ++ (written.take offset ++ values ++ written.drop (offset + values.length))) := by
  have hsplit : d.bytes = (base ++ written.take offset) ++
      (written.drop offset).take values.length ++ written.drop (offset + values.length) := by
    rw [h, ← List.drop_drop, List.append_assoc, List.append_assoc, List.take_append_drop,
      List.take_append_drop]
  have hlen : (base ++ written.take offset).length = base.length + offset := by
    rw [List.length_append, List.length_take]
    omega
  have hold : ((written.drop offset).take values.length).length = values.length := by
    rw [List.length_take, List.length_drop]
    omega
  have hleaves := leaves_patch hsplit hold
  rw [hlen] at hleaves
  simpa using hleaves

theorem patch_inside (h : d.bytes = base ++ written)
    (hrun : DraftM.patch (base.length + offset) values d = .ok () d') :
    offset + values.length ≤ written.length := by
  by_contra hout
  have hsize : ¬ base.length + offset + values.length ≤ d.buffer.size := by
    rw [Buffer.size_eq, ← Draft.bytes, h, List.length_append]
    omega
  have herror : DraftM.patch (base.length + offset) values d = .error .outOfRange d :=
    if_neg hsize
  rw [herror] at hrun
  cases hrun

end DraftM

open DraftM

/-! ## Contents -/

/-- A step of writing the content of an attribute. -/
inductive BodyStep
  | u8 (v : UInt8)
  | u16 (v : UInt16)
  | u32 (v : UInt32)
  | bytes (values : Bytes)
  | skip (n : Nat)
  /-- replaces bytes of the content written so far -/
  | patch (offset : Nat) (values : List UInt8)
  | pool (call : PoolCall)

namespace BodyStep

/-- Does the step in a draft whose content begins at `start`. -/
def run (start : Nat) : BodyStep → DraftM Unit
  | u8 v => onBuffer (·.put8 v)
  | u16 v => onBuffer (·.put16 v)
  | u32 v => onBuffer (·.put32 v)
  | bytes values => onBuffer (·.append values)
  | skip n => onBuffer (·.skip n)
  | patch offset values => DraftM.patch (start + offset) values
  | pool call => onPool call.attempt

/-- What the step makes of a content. -/
def apply (content : List UInt8) : BodyStep → List UInt8
  | u8 v => content ++ [v]
  | u16 v => content ++ bytes16 v
  | u32 v => content ++ bytes32 v
  | bytes values => content ++ values.toList
  | skip n => content ++ List.replicate n 0
  | patch offset values =>
    content.take offset ++ values ++ content.drop (offset + values.length)
  | pool _ => content

/-- The content that steps make, one after the other. -/
def content (steps : List BodyStep) : List UInt8 := steps.foldl apply []

/-- A patch lies within what has been written of the content. -/
def Inside (written : List UInt8) : BodyStep → Prop
  | patch offset values => offset + values.length ≤ written.length
  | _ => True

def AllInside (written : List UInt8) : List BodyStep → Prop
  | [] => True
  | step :: steps => step.Inside written ∧ AllInside (step.apply written) steps

variable {d d' : Draft} {base written : List UInt8} {steps : List BodyStep}

theorem writes_run (step : BodyStep) (h : d.bytes = base ++ written) (hin : step.Inside written) :
    Writes (step.run base.length) d () (base ++ step.apply written) := by
  -- all but patches and calls append to the buffer
  have happend {change : ByteBuffer → ByteBuffer} {values : List UInt8}
      (hchange : ∀ b : ByteBuffer, (change b).toList = b.toList ++ values) :
      Writes (onBuffer change) d () (base ++ (written ++ values)) := by
    rw [← List.append_assoc, ← h]
    exact (leaves_onBuffer d hchange).writes
  cases step with
  | u8 v => exact happend (Buffer.toList_put8 · v)
  | u16 v => exact happend (Buffer.toList_put16 · v)
  | u32 v => exact happend (Buffer.toList_put · (bytes32 v))
  | bytes values => exact happend (Buffer.toList_append · values)
  | skip n => exact happend (Buffer.toList_skip · n)
  | patch offset values => exact (leaves_patchInside h hin).writes
  | pool call =>
    have hwrites := writes_attempt d call
    rw [h] at hwrites
    exact hwrites

theorem writes_forM (steps : List BodyStep) (h : d.bytes = base ++ written)
    (hin : AllInside written steps) :
    Writes (steps.forM (run base.length)) d () (base ++ steps.foldl apply written) := by
  induction steps generalizing d written with
  | nil =>
    rw [List.foldl_nil, ← h]
    exact writes_pure d ()
  | cons step steps ih => exact (step.writes_run h hin.1).bind fun d' hd' => ih hd' hin.2

theorem allInside_of_forM (steps : List BodyStep) (h : d.bytes = base ++ written)
    (hrun : steps.forM (run base.length) d = .ok () d') : AllInside written steps := by
  induction steps generalizing d written with
  | nil => trivial
  | cons step steps ih =>
    obtain ⟨_, t, hstep, hsteps⟩ := bind_eq_ok.mp hrun
    have hinside : step.Inside written := by
      cases step with
      | patch offset values => exact patch_inside h hstep
      | _ => trivial
    obtain ⟨-, hbytes, -⟩ := (step.writes_run h hinside).eq_of_ok hstep
    exact ⟨hinside, ih hbytes hsteps⟩

end BodyStep
end JavaClass
