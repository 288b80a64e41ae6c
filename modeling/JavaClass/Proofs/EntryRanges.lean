import JavaClass.Proofs.Rebuilding
import Mathlib.Data.List.Chain

/-!
# The ranges of the entries

A reader keeps where each entry starts and finds out again how long it is. The ranges got that way
stand behind each other without a gap, from the declared count to the class header, so one of them
can be replaced and all others stay whole.
-/

namespace JavaClass

open Constant

/-- An entry of the pool: its index, its tag, and from where to where it reaches. -/
structure PoolEntry where
  index : UInt16
  tag : Tag
  start : Nat
  stop : Nat

namespace PoolEntry

/-- The bytes of the entry are its tag and one payload of that tag. -/
def Whole (bytes : Bytes) (e : PoolEntry) : Prop :=
  bytes[e.start]? = some e.tag.byte ∧ ∃ payload, e.tag.Fits payload ∧
    bytes.HasAt (e.start + 1) (e.tag.spell payload) ∧
    e.stop = e.start + 1 + (e.tag.spell payload).length

/-- The second entry starts where the first one stops, and the indexes between them are the slots
that the first one takes. -/
def Follows (e f : PoolEntry) : Prop :=
  f.start = e.stop ∧ f.index.toNat = e.index.toNat + e.tag.slots

end PoolEntry

/-! ## The entries of known constants -/

namespace Constant

variable {c : Constant} {cs ds : List Constant} {n slot offset : Nat} {e : PoolEntry}

/-- The entry of a constant that stands at an offset. -/
def entryAt (slot offset : Nat) (c : Constant) : PoolEntry :=
  ⟨UInt16.ofNat slot, c.tag, offset, offset + c.encode.length⟩

/-- The entries of constants that stand behind each other, in order. -/
def entriesFrom (slot offset : Nat) : List Constant → List PoolEntry
  | [] => []
  | c :: cs => c.entryAt slot offset :: entriesFrom (slot + c.slots) (offset + c.encode.length) cs

theorem entriesFrom_append : entriesFrom slot offset (cs ++ ds) = entriesFrom slot offset cs ++
    entriesFrom (slot + slotCount cs) (offset + (encodeAll cs).length) ds := by
  induction cs generalizing slot offset with
  | nil => rfl
  | cons c cs ih => simp [entriesFrom, ih, Nat.add_assoc]

theorem mem_entriesFrom : e ∈ entriesFrom slot offset cs ↔ ∃ before c after,
    cs = before ++ c :: after ∧
      e = c.entryAt (slot + slotCount before) (offset + (encodeAll before).length) := by
  constructor
  · intro he
    induction cs generalizing slot offset with
    | nil => cases he
    | cons d cs ih =>
      rcases List.mem_cons.mp he with rfl | hrest
      · exact ⟨[], d, cs, rfl, rfl⟩
      · obtain ⟨before, c, after, rfl, rfl⟩ := ih hrest
        exact ⟨d :: before, c, after, rfl, by simp [Nat.add_assoc]⟩
  · rintro ⟨before, c, after, rfl, rfl⟩
    simp [entriesFrom_append, entriesFrom]

/-- No slot number wraps, because each constant starts within the declared slots. -/
theorem follows_entriesFrom (h : Fill n cs) (hroom : slot + n ≤ 65536) :
    (entriesFrom slot offset cs).IsChain PoolEntry.Follows := by
  induction cs generalizing n slot offset with
  | nil => exact List.isChain_nil
  | cons c cs ih =>
    obtain ⟨hpos, hrest⟩ := fill_cons.mp h
    rcases cs with _ | ⟨d, cs⟩
    · exact List.isChain_singleton _
    have hnext := (fill_cons.mp hrest).1
    rw [entriesFrom, List.isChain_cons]
    refine ⟨?_, ih hrest (by omega)⟩
    rintro f hf
    obtain rfl := Option.some.inj hf
    refine ⟨rfl, ?_⟩
    show (UInt16.ofNat (slot + c.slots)).toNat = (UInt16.ofNat slot).toNat + c.slots
    rw [UInt16.toNat_ofNat_of_lt' (by show _ < 65536; omega),
      UInt16.toNat_ofNat_of_lt' (by show _ < 65536; omega)]

theorem last_entriesFrom (h : Fill n cs) (hroom : slot + n ≤ 65536)
    (hlast : (entriesFrom slot offset cs).getLast? = some e) :
    e.stop = offset + (encodeAll cs).length ∧ (slot + n = e.index.toNat + e.tag.slots ∨
      e.tag.slots = 2 ∧ slot + n = e.index.toNat + 1) := by
  rcases List.eq_nil_or_concat' cs with rfl | ⟨before, c, rfl⟩
  · cases hlast
  have hstart := h.2 before c [] rfl
  have hle := h.1
  rw [entriesFrom_append, entriesFrom, entriesFrom, List.getLast?_concat] at hlast
  obtain rfl := Option.some.inj hlast
  refine ⟨by simp [entryAt, Nat.add_assoc], ?_⟩
  have hpos := c.slots_pos
  have htwo : c.slots ≤ 2 := c.tag.slots_le_two
  show _ = (UInt16.ofNat (slot + slotCount before)).toNat + c.slots ∨
    c.slots = 2 ∧ _ = (UInt16.ofNat (slot + slotCount before)).toNat + 1
  rw [UInt16.toNat_ofNat_of_lt' (by show _ < 65536; omega)]
  simp only [slotCount_append, slotCount_cons, slotCount_nil] at hle
  omega

end Constant

/-! ## The entries that a reader locates -/

namespace ClassFile

variable {c : ClassFile} {cs : List Constant} {n offset : Nat} {e : PoolEntry}

theorem exists_entryRange_iff (h : c.pool.Holds offset cs) (index : UInt16) :
    ∃ range, c.entryRange index = .ok range ∧ (range.isSome ↔ (c.pool.tag? index).isSome) := by
  rw [h.tag?]
  cases hat : at? offset cs index.toNat with
  | none => exact ⟨none, entryRange_eq_none h hat, by simp⟩
  | some found => exact ⟨_, entryRange_eq_ok h hat, by simp⟩

theorem located_iff (h : c.pool.Holds offset cs) :
    c.pool.tag? e.index = some e.tag ∧ c.entryRange e.index = .ok (some (e.start, e.stop)) ↔
      ∃ d, at? offset cs e.index.toNat = some (e.start, d) ∧ d.tag = e.tag ∧
        e.stop = e.start + d.encode.length := by
  constructor
  · rintro ⟨htag, hrange⟩
    obtain ⟨start, d, hd, hdtag⟩ := h.exists_at? htag
    rw [entryRange_eq_ok h hd] at hrange
    obtain ⟨rfl, hstop⟩ := Prod.mk.inj (Option.some.inj (Except.ok.inj hrange))
    exact ⟨d, hd, hdtag, hstop.symm⟩
  · rintro ⟨d, hd, hdtag, hstop⟩
    rw [h.tag?, hd, entryRange_eq_ok h hd, hstop]
    exact ⟨congrArg some hdtag, rfl⟩

theorem mem_entries_iff (h : c.pool.Holds offset cs) (hfill : Fill n cs) (hroom : n < 65536) :
    e ∈ entriesFrom 1 offset cs ↔
      c.pool.tag? e.index = some e.tag ∧ c.entryRange e.index = .ok (some (e.start, e.stop)) := by
  rw [located_iff h, mem_entriesFrom]
  simp only [at?_eq_some]
  constructor
  · rintro ⟨before, d, after, rfl, rfl⟩
    have hstart := hfill.2 before d after rfl
    have hindex : (UInt16.ofNat (1 + slotCount before)).toNat = 1 + slotCount before :=
      UInt16.toNat_ofNat_of_lt' (by show _ < 65536; omega)
    exact ⟨d, ⟨before, after, rfl, hindex, rfl⟩, rfl, rfl⟩
  · rintro ⟨d, ⟨before, after, rfl, hindex, hstart⟩, htag, hstop⟩
    refine ⟨before, d, after, rfl, ?_⟩
    obtain ⟨index, tag, start, stop⟩ := e
    dsimp only at hindex hstart htag hstop
    subst hstart htag hstop
    rw [entryAt, ← hindex, UInt16.ofNat_toNat]

theorem whole_of_located (h : c.pool.Holds offset cs)
    (he : c.pool.tag? e.index = some e.tag ∧
      c.entryRange e.index = .ok (some (e.start, e.stop))) : e.Whole c.bytes := by
  obtain ⟨d, hd, htag, hstop⟩ := (located_iff h).mp he
  have hspell := h.spell_hasAt hd
  have hbyte := h.byte_eq hd
  rw [htag] at hspell hbyte
  refine ⟨hbyte, d.payload, htag ▸ d.fits, hspell, ?_⟩
  rw [hstop, encode, htag, List.length_cons]
  omega

/-- Exactly the indexes with a tag have a range. The ranges in the order of the indexes are whole
entries without a gap between them and take up the pool, and each index follows from the slots of
the entry before. That holds as well where the declared count cuts off the second slot of the last
entry. -/
theorem entries_tile_pool (bytes : Bytes) (c : ClassFile) (hparse : ClassFile.parse bytes = .ok c) :
    (∀ index, ∃ range, c.entryRange index = .ok range ∧
      (range.isSome ↔ (c.pool.tag? index).isSome)) ∧
    ∃ entries : List PoolEntry,
      (∀ e, e ∈ entries ↔ c.pool.tag? e.index = some e.tag ∧
        c.entryRange e.index = .ok (some (e.start, e.stop))) ∧
      (∀ e ∈ entries, e.Whole bytes) ∧
      entries.IsChain PoolEntry.Follows ∧
      (∀ e ∈ entries.head?, e.index = 1 ∧ e.start = 10) ∧
      (∀ e ∈ entries.getLast?, e.stop = 10 + c.poolLength ∧
        (c.pool.count = e.index.toNat + e.tag.slots ∨
          e.tag.slots = 2 ∧ c.pool.count = e.index.toNat + 1)) ∧
      (entries = [] → c.poolLength = 0) := by
  obtain ⟨s, trailing, hs, hsplit, rfl⟩ := parse_eq_ok.mp hparse
  have hholds := holds_classFile hs hsplit
  have hfill := fill_classFile hs bytes
  have hcount := count_classFile hs bytes
  have hlt := count_classFile_lt hs bytes
  have hmem (e : PoolEntry) := mem_entries_iff (e := e) hholds hfill (by omega)
  have hlength : (s.classFile bytes).poolLength = (encodeAll s.constants).length := by
    show s.headerOffset - 10 = _
    rw [ClassSyntax.headerOffset, Nat.add_sub_cancel_left]
  refine ⟨exists_entryRange_iff hholds, entriesFrom 1 10 s.constants, hmem,
    fun e he => whole_of_located hholds ((hmem e).mp he), follows_entriesFrom hfill (by omega),
    ?_, ?_, ?_⟩
  · rintro e he
    cases hconstants : s.constants with
    | nil =>
      rw [hconstants] at he
      cases he
    | cons d ds =>
      rw [hconstants] at he
      obtain rfl := Option.some.inj he
      exact ⟨rfl, rfl⟩
  · rintro e he
    obtain ⟨hstop, hend⟩ := last_entriesFrom hfill (by omega) he
    refine ⟨hstop.trans (by rw [hlength]), ?_⟩
    rwa [Nat.add_sub_cancel' (by omega)] at hend
  · intro hnone
    rw [hlength]
    cases hconstants : s.constants with
    | nil => rfl
    | cons d ds =>
      rw [hconstants] at hnone
      cases hnone

theorem cutPool_is_tiled : ∃ (c : ClassFile) (entries : List PoolEntry),
    ClassFile.parse cutPool.encode.toArray = .ok c ∧ c.pool.count = 2 ∧
    entries.IsChain PoolEntry.Follows ∧ ⟨1, .long, 10, 19⟩ ∈ entries ∧
    PoolEntry.Whole cutPool.encode.toArray ⟨1, .long, 10, 19⟩ ∧
    ∀ e ∈ entries.getLast?, e.stop = 19 := by
  have hparse := parse_encode (x := []) cutPool.encode.toArray cutPool_wellFormed (by simp)
  obtain ⟨-, entries, hmem, hwhole, hchain, -, hlast, -⟩ := entries_tile_pool _ _ hparse
  have hlong : ⟨1, .long, 10, 19⟩ ∈ entries := (hmem _).mpr ⟨rfl, rfl⟩
  exact ⟨_, entries, hparse, rfl, hchain, hlong, hwhole _ hlong, fun e he => (hlast e he).1⟩

end ClassFile
end JavaClass
