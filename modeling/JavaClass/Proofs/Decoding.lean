import JavaClass.Cursor
import JavaClass.Proofs.Bytes
import JavaClass.Proofs.Steps

/-!
# What decoders read

A decoder reads a grammar if from every cursor it succeeds exactly where the bytes ahead start with
a part of the grammar, and then passes over that part and no more. The grammar of a decoder that is
made of others is put together from theirs.
-/

namespace JavaClass.Decoder

open Bytes

variable {α β : Type}

/-- The decoder accepts the parts that `spells` relates to the value it answers. The first argument
of `spells` is where the part starts, for decoders whose answer tells that. -/
def Reads (d : Decoder α) (spells : Nat → α → List UInt8 → Prop) : Prop :=
  ∀ c c' a, c.position ≤ c.bytes.size →
    (d c = .ok a c' ↔ ∃ part, spells c.position a part ∧ HasAt c.bytes c.position part ∧
      c' = ⟨c.bytes, c.position + part.length⟩)

variable {d : Decoder α} {f : α → Decoder β} {spells spells' : Nat → α → List UInt8 → Prop}
  {follow : α → Nat → β → List UInt8 → Prop}

theorem Reads.congr (h : Reads d spells)
    (heq : ∀ start a part, spells start a part ↔ spells' start a part) : Reads d spells' := by
  intro c c' a hc
  simp only [← heq]
  exact h c c' a hc

theorem Reads.bind (hd : Reads d spells) (hf : ∀ a, Reads (f a) (follow a)) :
    Reads (d >>= f) fun start b part =>
      ∃ a x y, spells start a x ∧ follow a (start + x.length) b y ∧ part = x ++ y := by
  intro c c' b hc
  rw [bind_eq_ok]
  constructor
  · rintro ⟨a, t, hdc, hfc⟩
    obtain ⟨x, hx, hxat, rfl⟩ := (hd c t a hc).mp hdc
    obtain ⟨y, hy, hyat, rfl⟩ := (hf a _ c' b hxat.le).mp hfc
    refine ⟨x ++ y, ⟨a, x, y, hx, hy, rfl⟩, hasAt_append.mpr ⟨hxat, hyat⟩, ?_⟩
    rw [List.length_append, Nat.add_assoc]
  · rintro ⟨_, ⟨a, x, y, hx, hy, rfl⟩, hat, rfl⟩
    obtain ⟨hxat, hyat⟩ := hasAt_append.mp hat
    refine ⟨a, ⟨c.bytes, c.position + x.length⟩, (hd c _ a hc).mpr ⟨x, hx, hxat, rfl⟩, ?_⟩
    refine (hf a _ _ b hxat.le).mpr ⟨y, hy, hyat, ?_⟩
    rw [List.length_append, Nat.add_assoc]

theorem reads_pure (a : α) : Reads (pure a) fun _ b part => b = a ∧ part = [] := by
  intro c c' b hc
  rw [pure_eq_ok]
  constructor
  · rintro ⟨rfl, rfl⟩
    exact ⟨[], ⟨rfl, rfl⟩, hasAt_nil hc, rfl⟩
  · rintro ⟨_, ⟨rfl, rfl⟩, -, rfl⟩
    exact ⟨rfl, rfl⟩

theorem reads_throw (e : Error) : Reads (throw e : Decoder α) fun _ _ _ => False := by
  intro c c' a _
  constructor
  · rintro ⟨⟩
  · rintro ⟨_, ⟨⟩, _⟩

theorem reads_position : Reads position fun start n part => n = start ∧ part = [] := by
  intro c c' n hc
  constructor
  · rintro ⟨⟩
    exact ⟨[], ⟨rfl, rfl⟩, hasAt_nil hc, rfl⟩
  · rintro ⟨_, ⟨rfl, rfl⟩, -, rfl⟩
    rfl

theorem reads_at {f : Nat → Decoder β} {follow : Nat → Nat → β → List UInt8 → Prop}
    (hf : ∀ n, Reads (f n) (follow n)) :
    Reads (position >>= f) fun start b part => follow start start b part := by
  refine (reads_position.bind hf).congr fun start b part => ?_
  constructor
  · rintro ⟨_, _, y, ⟨rfl, rfl⟩, hy, rfl⟩
    exact hy
  · rintro hy
    exact ⟨start, [], part, ⟨rfl, rfl⟩, hy, rfl⟩

theorem Reads.andThen {step : Decoder Unit} {next : Decoder β} {valid : List UInt8 → Prop}
    {follow : Nat → β → List UInt8 → Prop} (hstep : Reads step fun _ _ part => valid part)
    (hnext : Reads next follow) :
    Reads (step >>= fun _ => next) fun start b part =>
      ∃ x y, valid x ∧ follow (start + x.length) b y ∧ part = x ++ y := by
  refine (hstep.bind fun _ => hnext).congr fun start b part => ?_
  constructor
  · rintro ⟨_, x, y, hx, hy, rfl⟩
    exact ⟨x, y, hx, hy, rfl⟩
  · rintro ⟨x, y, hx, hy, rfl⟩
    exact ⟨(), x, y, hx, hy, rfl⟩

theorem reads_take (n : Nat) : Reads (take n) fun _ content part =>
    content.toList = part ∧ part.length = n := by
  intro c c' content hc
  unfold take
  split
  · rename_i hshort
    refine ⟨by rintro ⟨⟩, ?_⟩
    rintro ⟨part, ⟨-, rfl⟩, hat, -⟩
    have := hat.le
    simp only [Cursor.remaining] at hshort
    omega
  · rename_i hlong
    simp only [Cursor.remaining] at hlong
    have hat := hasAt_extract c.bytes c.position n (by omega)
    have hlen : (c.bytes.extract c.position (c.position + n)).toList.length = n := by simp; omega
    constructor
    · rintro ⟨⟩
      exact ⟨_, ⟨rfl, hlen⟩, hat, by rw [hlen]⟩
    · rintro ⟨part, ⟨hpart, rfl⟩, hpartAt, rfl⟩
      rw [hpartAt.extract_eq, ← hpart]

theorem reads_skip (n : Nat) : Reads (skip n) fun _ _ part => part.length = n := by
  intro c c' _ hc
  unfold skip
  split
  · rename_i hshort
    refine ⟨by rintro ⟨⟩, ?_⟩
    rintro ⟨part, rfl, hat, -⟩
    have := hat.le
    simp only [Cursor.remaining] at hshort
    omega
  · rename_i hlong
    simp only [Cursor.remaining] at hlong
    constructor
    · rintro ⟨⟩
      have hlen : (c.bytes.extract c.position (c.position + n)).toList.length = n := by simp; omega
      exact ⟨_, hlen, hasAt_extract _ _ n (by omega), by rw [hlen]⟩
    · rintro ⟨part, rfl, -, rfl⟩
      rfl

theorem reads_word {width : Nat} (spell : α → List UInt8) (value : List UInt8 → α)
    (hlen : ∀ v, (spell v).length = width) (hspell : ∀ l, l.length = width → spell (value l) = l)
    (hvalue : ∀ v, value (spell v) = v) :
    Reads (do return value (← take width).toList) fun _ v part => part = spell v := by
  refine ((reads_take width).bind fun content => reads_pure (value content.toList)).congr ?_
  intro start v part
  constructor
  · rintro ⟨content, _, _, ⟨rfl, hwidth⟩, ⟨rfl, rfl⟩, rfl⟩
    rw [hspell _ hwidth, List.append_nil]
  · rintro rfl
    exact ⟨(spell v).toArray, spell v, [], ⟨rfl, hlen v⟩, ⟨(hvalue v).symm, rfl⟩, by simp⟩

theorem reads_u8 : Reads u8 fun _ b part => part = [b] := by
  refine reads_word (fun b => [b]) (fun l => UInt8.ofNat (BigEndian.decode l))
    (fun _ => rfl) (fun l hl => ?_) fun b => ?_
  · obtain ⟨b, rfl⟩ := List.length_eq_one_iff.mp hl
    simp [BigEndian.decode]
  · simp [BigEndian.decode]

theorem reads_u16 : Reads u16 fun _ v part => part = bytes16 v :=
  reads_word _ _ length_bytes16 bytes16_ofNat_decode ofNat_decode_bytes16

theorem reads_u32 : Reads u32 fun _ v part => part = bytes32 v :=
  reads_word _ _ length_bytes32 bytes32_ofNat_decode ofNat_decode_bytes32

/-! ## Repetition -/

theorem reads_times {step : Decoder Unit} {valid : β → Prop} {encode : β → List UInt8}
    (h : Reads step fun _ _ part => ∃ b, valid b ∧ part = encode b) (n : Nat) :
    Reads (times step n) fun _ _ part =>
      ∃ l : List β, l.length = n ∧ (∀ b ∈ l, valid b) ∧ part = l.flatMap encode := by
  induction n with
  | zero =>
    refine (reads_pure ()).congr fun start _ part => ?_
    constructor
    · rintro ⟨-, rfl⟩
      exact ⟨[], rfl, by simp, rfl⟩
    · rintro ⟨l, hl, -, rfl⟩
      simp [List.eq_nil_of_length_eq_zero hl]
  | succ n ih =>
    refine (h.bind fun _ => ih).congr fun start _ part => ?_
    constructor
    · rintro ⟨_, _, _, ⟨b, hb, rfl⟩, ⟨l, rfl, hl, rfl⟩, rfl⟩
      exact ⟨b :: l, rfl, by simpa using ⟨hb, hl⟩, rfl⟩
    · rintro ⟨l, hlen, hl, rfl⟩
      obtain ⟨b, l, rfl⟩ := List.exists_cons_of_length_eq_add_one hlen
      exact ⟨(), _, _, ⟨b, hl b (by simp), rfl⟩,
        ⟨l, by simpa using hlen, fun a ha => hl a (by simp [ha]), rfl⟩, rfl⟩

end JavaClass.Decoder
