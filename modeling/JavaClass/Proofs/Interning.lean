import JavaClass.Constant.Pool
import JavaClass.Proofs.Buffers
import JavaClass.Proofs.Steps
import JavaClass.Proofs.Tables

/-!
# Interning

A pool under construction represents a list of distinct constants. Interning a constant looks it up
in the list and appends it if it is missing, and the calls on pools refine that: entries, index
table, text map and name cache go on telling the same list.
-/

namespace JavaClass

/-! ## Lists of distinct constants -/

namespace Constant

/-- The index of the constant, which is that of the next entry if it is missing. -/
def indexOf (c : Constant) (cs : List Constant) : Nat :=
  1 + slotCount (cs.takeWhile (· ≠ c))

/-- Looks the constant up and appends it if it is missing. -/
def intern (c : Constant) : EStateM Error (List Constant) UInt16 := fun cs =>
  if c ∈ cs then .ok (UInt16.ofNat (indexOf c cs)) cs
  else if 1 + slotCount cs < 65536 then .ok (UInt16.ofNat (1 + slotCount cs)) (cs ++ [c])
  else .error (.poolOverflow (1 + slotCount cs + 1)) cs

/-- The constant of an encoded text, unless that is too long. -/
def ofText? (text : Bytes) : Option Constant :=
  if short : text.size < 65536 then some (ofText text short) else none

/-- Interns an encoded text, which must not be too long. -/
def internText (text : Bytes) : EStateM Error (List Constant) UInt16 :=
  if short : text.size < 65536 then intern (ofText text short)
  else throw (.textTooLong (ModifiedUtf8.excerpt (ModifiedUtf8.decode text)) text.size)

variable {c d : Constant} {cs ds before after : List Constant} {offset start i : Nat}

theorem indexOf_append_cons (h : c ∉ before) :
    indexOf c (before ++ c :: after) = 1 + slotCount before := by
  have hne : ∀ d ∈ before, decide (d ≠ c) = true := by
    intro d hd
    simpa using fun heq : d = c => h (heq ▸ hd)
  rw [indexOf, List.takeWhile_append_of_pos hne, List.takeWhile_cons_of_neg (by simp),
    List.append_nil]

theorem indexOf_append (h : c ∈ cs) : indexOf c (cs ++ ds) = indexOf c cs := by
  obtain ⟨before, after, rfl, hfirst⟩ := List.eq_append_cons_of_mem h
  rw [List.append_assoc, List.cons_append, indexOf_append_cons hfirst, indexOf_append_cons hfirst]

theorem at?_indexOf (offset : Nat) (h : c ∈ cs) : ∃ start, at? offset cs (indexOf c cs) = some (start, c) := by
  obtain ⟨before, after, rfl, hfirst⟩ := List.eq_append_cons_of_mem h
  exact ⟨_, at?_eq_some.mpr ⟨before, after, rfl, indexOf_append_cons hfirst, rfl⟩⟩

theorem mem_of_at? (h : at? offset cs i = some (start, c)) : c ∈ cs := by
  obtain ⟨before, after, rfl, -, -⟩ := at?_eq_some.mp h
  simp

theorem lt_of_at? (h : at? offset cs i = some (start, c)) : i < 1 + slotCount cs := by
  obtain ⟨before, after, rfl, rfl, -⟩ := at?_eq_some.mp h
  have := c.slots_pos
  simp only [slotCount_append, slotCount_cons]
  omega

theorem notMem_front (hnodup : (before ++ c :: after).Nodup) : c ∉ before := by
  intro hmem
  exact (List.nodup_append.mp hnodup).2.2 c hmem c (by simp) rfl

theorem eq_indexOf (hnodup : cs.Nodup) (h : at? offset cs i = some (start, c)) :
    i = indexOf c cs := by
  obtain ⟨before, after, rfl, rfl, -⟩ := at?_eq_some.mp h
  rw [indexOf_append_cons (notMem_front hnodup)]

theorem intern_of_mem (h : c ∈ cs) : intern c cs = .ok (UInt16.ofNat (indexOf c cs)) cs := by
  unfold intern
  rw [if_pos h]

theorem intern_of_notMem (h : c ∉ cs) (hroom : 1 + slotCount cs < 65536) :
    intern c cs = .ok (UInt16.ofNat (1 + slotCount cs)) (cs ++ [c]) := by
  unfold intern
  rw [if_neg h, if_pos hroom]

theorem intern_of_full (h : c ∉ cs) (hfull : ¬ 1 + slotCount cs < 65536) :
    intern c cs = .error (.poolOverflow (1 + slotCount cs + 1)) cs := by
  unfold intern
  rw [if_neg h, if_neg hfull]

theorem intern_eq_ok {index : UInt16} (h : intern c cs = .ok index ds) :
    cs <+: ds ∧ c ∈ ds ∧ index = UInt16.ofNat (indexOf c ds) := by
  by_cases hmem : c ∈ cs
  · rw [intern_of_mem hmem] at h
    obtain ⟨rfl, rfl⟩ := EStateM.Result.ok.inj h
    exact ⟨List.prefix_rfl, hmem, rfl⟩
  by_cases hroom : 1 + slotCount cs < 65536
  · rw [intern_of_notMem hmem hroom] at h
    obtain ⟨rfl, rfl⟩ := EStateM.Result.ok.inj h
    exact ⟨List.prefix_append cs [c], by simp, by rw [indexOf_append_cons hmem]⟩
  · rw [intern_of_full hmem hroom] at h
    cases h

theorem intern_eq_error {e : Error} : intern c cs = .error e ds ↔
    c ∉ cs ∧ 65536 ≤ 1 + slotCount cs ∧ e = .poolOverflow (1 + slotCount cs + 1) ∧ ds = cs := by
  unfold intern
  split
  · simp_all
  · split
    · simp_all
    · simp_all [eq_comm]

theorem internText_eq_ok {text : Bytes} {index : UInt16} (h : internText text cs = .ok index ds) :
    ∃ short : text.size < 65536, intern (ofText text short) cs = .ok index ds := by
  unfold internText at h
  split at h
  · rename_i short
    exact ⟨short, h⟩
  · cases h

end Constant

/-! ## What a pool represents -/

/-- The pools hold the same constants and find them in the same places. -/
def ConstantPool.Same (p q : ConstantPool) : Prop :=
  p.entries.toList = q.entries.toList ∧ p.starts = q.starts ∧
    ∀ text : Bytes, p.texts[text]? = q.texts[text]?

/-- The second pool has what the first one has at the same indexes and places, and more behind. -/
structure ConstantPool.Extends (p q : ConstantPool) : Prop where
  entries : p.entries.toList <+: q.entries.toList
  starts : p.starts.toList <+: q.starts.toList
  texts : ∀ (text : Bytes) (index : UInt16), p.texts[text]? = some index → q.texts[text]? = some index

/-- The pool holds the constants, which are distinct, and finds texts and attribute names among
them. -/
structure ConstantPool.Represents (p : ConstantPool) (cs : List Constant) : Prop where
  entries : p.entries.toList = Constant.encodeAll cs
  starts : p.starts.toList = none :: (Constant.placed 0 cs).map (Option.map Prod.fst)
  nodup : cs.Nodup
  indexed : ∀ c ∈ cs, Constant.indexOf c cs < 65536
  texts : ∀ text index, p.texts[text]? = some index ↔
    ∃ short : text.size < 65536, Constant.ofText text short ∈ cs ∧
      index = UInt16.ofNat (Constant.indexOf (Constant.ofText text short) cs)
  names : ∀ (name : AttributeName) index, p.names.get? name = some index →
    p.texts[ModifiedUtf8.encode name.text]? = some index

namespace ConstantPool.Represents

open Constant

variable {p p' : ConstantPool} {c : Constant} {cs ds : List Constant}

theorem withPolicy (capacity : Nat) (growth : Growth) :
    (ConstantPool.withPolicy capacity growth).Represents [] where
  entries := rfl
  starts := rfl
  nodup := List.nodup_nil
  indexed := by simp
  texts := by simp [ConstantPool.withPolicy]
  names := by simp [ConstantPool.withPolicy]

theorem count (h : p.Represents cs) : p.count = 1 + slotCount cs := by
  rw [ConstantPool.count, ← Array.length_toList, h.starts]
  simp [Nat.add_comm]

theorem same (h : p.Represents cs) (h' : p'.Represents cs) : p.Same p' := by
  refine ⟨?_, ?_, fun text => ?_⟩
  · rw [h.entries, h'.entries]
  · rw [← Array.toList_inj, h.starts, h'.starts]
  · ext index
    rw [h.texts, h'.texts]

theorem extends_of_prefix (h : p.Represents cs) (h' : p'.Represents ds) (hds : cs <+: ds) :
    p.Extends p' := by
  obtain ⟨more, rfl⟩ := hds
  refine ⟨?_, ?_, fun text index => ?_⟩
  · rw [h.entries, h'.entries, encodeAll_append]
    exact List.prefix_append _ _
  · rw [h.starts, h'.starts, placed_append, List.map_append, ← List.cons_append]
    exact List.prefix_append _ _
  · rw [h.texts, h'.texts]
    rintro ⟨short, hmem, rfl⟩
    exact ⟨short, List.mem_append_left more hmem, by rw [indexOf_append hmem]⟩

theorem size_entries (h : p.Represents cs) : p.entries.size = (encodeAll cs).length := by
  rw [Buffer.size_eq, h.entries]

theorem holds (h : p.Represents cs) : p.table.Holds 0 cs where
  starts index := by
    show p.starts[index]?.join = _
    rw [← Array.getElem?_toList, h.starts, at?]
    cases index with
    | zero => rfl
    | succ i =>
      simp only [List.getElem?_cons_succ, List.getElem?_map]
      cases (placed 0 cs)[i]? with
      | none => rfl
      | some slot => cases slot <;> rfl
  entries := ⟨Nat.zero_le _, by simp [ConstantPool.table, ← h.entries, Buffer.toList]⟩

theorem texts_iff (h : p.Represents cs) (text : Bytes) (index : UInt16) :
    p.texts[text]? = some index ↔ ∃ start c, at? 0 cs index.toNat = some (start, c) ∧
      c.tag = .utf8 ∧ c.payload = text.toList := by
  rw [h.texts]
  constructor
  · rintro ⟨short, hmem, rfl⟩
    obtain ⟨start, hc⟩ := at?_indexOf 0 hmem
    rw [UInt16.toNat_ofNat_of_lt' (h.indexed _ hmem)]
    exact ⟨start, _, hc, rfl, rfl⟩
  · rintro ⟨start, c, hc, htag, hpayload⟩
    have short : text.size < 65536 := by
      rw [← Array.length_toList, ← hpayload]
      exact Tag.fits_utf8.mp (htag ▸ c.fits)
    obtain rfl : c = ofText text short := Constant.ext htag hpayload
    refine ⟨short, mem_of_at? hc, ?_⟩
    rw [← eq_indexOf h.nodup hc, UInt16.ofNat_toNat]

theorem tag?_second {index : UInt16} {start : Nat} (h : p.Represents cs)
    (hc : at? 0 cs index.toNat = some (start, c)) (hwide : c.slots = 2) :
    p.table.tag? (index + 1) = none := by
  rw [h.holds.tag?, UInt16.toNat_add]
  rcases Nat.lt_or_eq_of_le (Nat.succ_le_of_lt index.toNat_lt) with hlt | heq
  · rw [show (index.toNat + (1 : UInt16).toNat) % 2 ^ 16 = index.toNat + 1 from Nat.mod_eq_of_lt hlt,
      at?_second hc hwide]
    rfl
  · -- the index behind the last one is 0 again
    rw [show (index.toNat + (1 : UInt16).toNat) % 2 ^ 16 = 0 by simp at heq ⊢; omega, at?_zero]
    rfl

theorem append (h : p.Represents cs) (hc : c ∉ cs) (hroom : 1 + slotCount cs < 65536)
    (hentries : p'.entries.toList = p.entries.toList ++ c.encode)
    (hstarts : p'.starts.toList =
      p.starts.toList ++ some p.entries.size :: List.replicate (c.slots - 1) none)
    (htexts : ∀ text index, p'.texts[text]? = some index ↔ p.texts[text]? = some index ∨
      ∃ short : text.size < 65536, c = ofText text short ∧
        index = UInt16.ofNat (1 + slotCount cs))
    (hnames : p'.names = p.names) : p'.Represents (cs ++ [c]) where
  entries := by simp [hentries, h.entries]
  starts := by
    rw [hstarts, h.starts, h.size_entries, placed_append]
    simp [placed]
  nodup := by
    rw [List.nodup_append]
    refine ⟨h.nodup, by simp, ?_⟩
    rintro a ha b hb rfl
    exact hc (List.mem_singleton.mp hb ▸ ha)
  indexed := by
    intro d hd
    by_cases hmem : d ∈ cs
    · rw [indexOf_append hmem]
      exact h.indexed d hmem
    · obtain rfl : d = c := by simpa [hmem] using hd
      rwa [indexOf_append_cons hc]
  texts := by
    intro text index
    rw [htexts, h.texts]
    constructor
    · rintro (⟨short, hmem, rfl⟩ | ⟨short, rfl, rfl⟩)
      · exact ⟨short, by simp [hmem], by rw [indexOf_append hmem]⟩
      · exact ⟨short, by simp, by rw [indexOf_append_cons hc]⟩
    · rintro ⟨short, hmem, rfl⟩
      by_cases hold : ofText text short ∈ cs
      · exact .inl ⟨short, hold, by rw [indexOf_append hold]⟩
      · obtain heq : ofText text short = c := by simpa [hold] using hmem
        exact .inr ⟨short, heq.symm, by rw [heq, indexOf_append_cons hc]⟩
  names := by
    intro name index hname
    rw [htexts]
    exact .inl (h.names name index (hnames ▸ hname))

theorem congr (h : p.Represents cs) (hentries : p'.entries.toList = p.entries.toList)
    (hstarts : p'.starts = p.starts) (htexts : p'.texts = p.texts) (hnames : p'.names = p.names) :
    p'.Represents cs where
  entries := hentries.trans h.entries
  starts := hstarts ▸ h.starts
  nodup := h.nodup
  indexed := h.indexed
  texts := htexts ▸ h.texts
  names := by
    rw [htexts, hnames]
    exact h.names

theorem count_le (h : p.Represents cs) : p.count ≤ 65537 := by
  rw [h.count]
  rcases List.eq_nil_or_concat' cs with rfl | ⟨before, c, rfl⟩
  · simp
  · have hindex := h.indexed c (by simp)
    rw [indexOf_append_cons (notMem_front h.nodup)] at hindex
    have hslots : c.slots ≤ 2 := c.tag.slots_le_two
    simp only [slotCount_append, slotCount_cons, slotCount_nil]
    omega

theorem at?_lt {i start : Nat} (h : p.Represents cs) (hc : at? 0 cs i = some (start, c)) :
    i < 65536 := by
  rw [eq_indexOf h.nodup hc]
  exact h.indexed c (mem_of_at? hc)

theorem noteName (h : p.Represents cs) {name : AttributeName} {index : UInt16}
    (hname : p.texts[ModifiedUtf8.encode name.text]? = some index) :
    ({ p with names := p.names.insert name index } : ConstantPool).Represents cs where
  entries := h.entries
  starts := h.starts
  nodup := h.nodup
  indexed := h.indexed
  texts := h.texts
  names := by
    intro other i hother
    rw [NameCache.get?_insert] at hother
    by_cases heq : name = other
    · obtain ⟨-, hindex⟩ : ¬ index = 0 ∧ index = i := by simpa [heq] using hother
      exact heq ▸ hindex ▸ hname
    · rw [if_neg heq] at hother
      exact h.names other i hother

theorem newest? (h : p.Represents cs) {tag : Tag} {payload : Payload} (suits : payload.Suits tag) :
    p.newest? tag payload = .ok
      (if ofPayload tag payload suits ∈ cs then
        some (UInt16.ofNat (indexOf (ofPayload tag payload suits) cs))
      else none) := by
  have hlast : at? 0 cs 65536 = none := by
    rw [Option.eq_none_iff_forall_ne_some]
    rintro ⟨start, c⟩ hc
    exact absurd (h.at?_lt hc) (by omega)
  have hindex {i : Nat} (hi : (at? 0 cs i).map Prod.snd = some (ofPayload tag payload suits)) :
      i = indexOf (ofPayload tag payload suits) cs ∧ ofPayload tag payload suits ∈ cs := by
    obtain ⟨⟨start, c⟩, hc, rfl⟩ := Option.map_eq_some_iff.mp hi
    exact ⟨eq_indexOf h.nodup hc, mem_of_at? hc⟩
  rcases h.holds.lastMatch hlast suits h.count_le with ⟨i, -, hi, heq⟩ | ⟨hnone, heq⟩
  · obtain ⟨rfl, hmem⟩ := hindex hi
    rw [if_pos hmem]
    exact heq
  · rw [if_neg]
    · exact heq
    · intro hmem
      obtain ⟨start, hc⟩ := at?_indexOf 0 hmem
      have hlt : indexOf (ofPayload tag payload suits) cs < p.count := h.count ▸ lt_of_at? hc
      exact hnone _ hlt (by rw [hc]; rfl)

end ConstantPool.Represents

/-! ## Calls -/

/-- The call does to a pool what `spec` does to the constants that the pool represents. -/
def PoolM.Refines {α : Type} (call : PoolM α) (spec : EStateM Error (List Constant) α) : Prop :=
  ∀ p cs, p.Represents cs →
    (∃ a p' cs', call p = .ok a p' ∧ spec cs = .ok a cs' ∧ p'.Represents cs') ∨
    (∃ e p' cs', call p = .error e p' ∧ spec cs = .error e cs' ∧ p'.Represents cs')

namespace PoolM

open Constant

variable {α β : Type}

theorem Refines.bind {x : PoolM α} {f : α → PoolM β} {x' : EStateM Error (List Constant) α}
    {f' : α → EStateM Error (List Constant) β} (hx : Refines x x')
    (hf : ∀ a, Refines (f a) (f' a)) : Refines (x >>= f) (x' >>= f') := by
  intro p cs h
  rcases hx p cs h with ⟨a, p', cs', hp, hcs, h'⟩ | ⟨e, p', cs', hp, hcs, h'⟩
  · rw [bind_apply_ok hp, bind_apply_ok hcs]
    exact hf a p' cs' h'
  · exact .inr ⟨e, p', cs', bind_apply_error hp, bind_apply_error hcs, h'⟩

theorem nextIndex_of_room {p : ConstantPool} {cs : List Constant} (h : p.Represents cs)
    (hroom : 1 + slotCount cs < 65536) : p.nextIndex = .ok (UInt16.ofNat (1 + slotCount cs)) := by
  unfold ConstantPool.nextIndex
  rw [h.count, if_pos hroom]

theorem nextIndex_of_full {p : ConstantPool} {cs : List Constant} (h : p.Represents cs)
    (hfull : ¬ 1 + slotCount cs < 65536) :
    p.nextIndex = .error (.poolOverflow (1 + slotCount cs + 1)) := by
  unfold ConstantPool.nextIndex
  rw [h.count, if_neg hfull]

theorem refines_constant {tag : Tag} {payload : Payload} (suits : payload.Suits tag) :
    Refines (constant tag payload) (intern (ofPayload tag payload suits)) := by
  intro p cs h
  unfold constant
  rw [h.newest? suits]
  by_cases hmem : ofPayload tag payload suits ∈ cs
  · rw [if_pos hmem]
    exact .inl ⟨_, p, cs, rfl, intern_of_mem hmem, h⟩
  rw [if_neg hmem]
  by_cases hroom : 1 + slotCount cs < 65536
  · refine .inl ⟨_, _, _, by rw [nextIndex_of_room h hroom], intern_of_notMem hmem hroom, ?_⟩
    refine h.append hmem hroom ?_ ?_ ?_ rfl
    · simp [ConstantPool.register, encode_ofPayload]
    · simp [ConstantPool.register, suits.slots_eq, Constant.slots, ofPayload]
    · intro text index
      constructor
      · exact .inl
      · rintro (hold | ⟨short, heq, -⟩)
        · exact hold
        · -- a text has no payload of fixed length
          have htag : tag = .utf8 := congrArg Constant.tag heq
          have hlength := suits
          rw [htag] at hlength
          cases hlength
  · exact .inr ⟨_, p, cs, by rw [nextIndex_of_full h hroom], intern_of_full hmem hroom, h⟩

section Text

variable {p p' : ConstantPool} {cs : List Constant} {text : Bytes}

/-- The second pool is the first one with a text written behind its entries, the length of the text
still zero. -/
structure TextWritten (p p' : ConstantPool) (text : Bytes) : Prop where
  entries : p'.entries.toList = p.entries.toList ++ (Tag.utf8.byte :: bytes16 0) ++ text.toList
  starts : p'.starts = p.starts
  texts : p'.texts = p.texts
  names : p'.names = p.names

theorem exists_textWritten {write : ByteBuffer → ByteBuffer}
    (hwrite : ∀ b, (write b).toList = b.toList ++ text.toList) (p : ConstantPool) :
    ∃ p', TextWritten p p' text ∧ writtenText write p = internTextAt p.entries.size p' :=
  ⟨{ p with entries := write (p.entries.putReference Tag.utf8.byte 0) },
    ⟨by simp [hwrite], rfl, rfl, rfl⟩, rfl⟩

theorem TextWritten.extract_eq (h : TextWritten p p' text) :
    p'.entries.data.extract (p.entries.size + 3) p'.entries.size = text := by
  have hat : Bytes.HasAt p'.entries.data (p.entries.size + 3) text.toList := by
    refine Bytes.hasAt_iff_append.mpr
      ⟨p.entries.toList ++ (Tag.utf8.byte :: bytes16 0), [], ?_, by simp [Buffer.size_eq]⟩
    rw [List.append_nil]
    exact h.entries
  have hsize : p'.entries.size = p.entries.size + 3 + text.toList.length := by
    rw [Buffer.size_eq, Buffer.size_eq, h.entries]
    simp
    omega
  rw [hsize, hat.extract_eq, Array.toArray_toList]

theorem TextWritten.entries_dropFrom (h : TextWritten p p' text) :
    (p'.dropFrom p.entries.size).entries.toList = p.entries.toList := by
  show (p'.entries.truncate p.entries.size).toList = _
  rw [Buffer.toList_truncate, h.entries, Buffer.size_eq, List.append_assoc, List.take_left]

theorem TextWritten.dropFrom (h : TextWritten p p' text) (hp : p.Represents cs) :
    (p'.dropFrom p.entries.size).Represents cs :=
  hp.congr h.entries_dropFrom h.starts h.texts h.names

theorem TextWritten.entries_setTextLength (h : TextWritten p p' text) :
    (p'.setTextLength p.entries.size text.size).entries.toList = p.entries.toList ++
      Tag.utf8.byte :: (bytes16 (UInt16.ofNat text.size) ++ text.toList) := by
  have hsplit : p'.entries.toList =
      (p.entries.toList ++ [Tag.utf8.byte]) ++ bytes16 0 ++ text.toList := by
    rw [h.entries]
    simp
  have hset := Buffer.toList_overwrite p'.entries _ _ _ (bytes16 (UInt16.ofNat text.size))
    (by simp) hsplit
  rw [List.length_append, List.length_singleton, ← Buffer.size_eq] at hset
  show (p'.entries.overwrite (p.entries.size + 1) _).toList = _
  rw [hset]
  simp

theorem TextWritten.nextIndex (h : TextWritten p p' text) : p'.nextIndex = p.nextIndex := by
  have hcount : p'.count = p.count := congrArg Array.size h.starts
  rw [ConstantPool.nextIndex, ConstantPool.nextIndex, hcount]

theorem TextWritten.register (h : TextWritten p p' text) (hp : p.Represents cs)
    (short : text.size < 65536) (hnew : ofText text short ∉ cs) (hroom : 1 + slotCount cs < 65536) :
    (((p'.setTextLength p.entries.size text.size).register p.entries.size 1).remember text
      (UInt16.ofNat (1 + slotCount cs))).Represents (cs ++ [ofText text short]) := by
  refine hp.append hnew hroom ?_ ?_ ?_ h.names
  · rw [encode_ofText]
    exact h.entries_setTextLength
  · show (p'.starts.push (some p.entries.size)).toList = _
    rw [h.starts]
    simp [Constant.slots, ofText, Tag.slots, Tag.shape]
  · intro other index
    show (p'.texts.insert text _)[other]? = _ ↔ _
    rw [Std.HashMap.getElem?_insert, h.texts]
    by_cases heq : text = other
    · subst heq
      have hmiss : p.texts[text]? ≠ some index := by
        intro hfound
        obtain ⟨_, hmem, -⟩ := (hp.texts text index).mp hfound
        exact hnew hmem
      simp [hmiss, short, eq_comm]
    · have hne (hother : other.size < 65536) : ofText text short ≠ ofText other hother := by
        intro h
        exact heq (Array.toList_inj.mp (congrArg Constant.payload h))
      simp [heq, hne]

end Text

/-- A text is written before it is looked up, and nothing of it stays if it is known already, is too
long or finds the pool full. -/
theorem refines_writtenText {write : ByteBuffer → ByteBuffer} {text : Bytes}
    (hwrite : ∀ b, (write b).toList = b.toList ++ text.toList) :
    Refines (writtenText write) (internText text) := by
  rintro p cs h
  obtain ⟨p₁, hwritten, hcall⟩ := exists_textWritten hwrite p
  rw [hcall]
  unfold internTextAt internText
  rw [hwritten.extract_eq]
  by_cases short : text.size < 65536
  swap
  · rw [if_pos (by omega), dif_neg short]
    exact .inr ⟨_, _, cs, rfl, rfl, hwritten.dropFrom h⟩
  rw [if_neg (by omega), dif_pos short]
  by_cases hmem : ofText text short ∈ cs
  · have hfound := (h.texts text _).mpr ⟨short, hmem, rfl⟩
    rw [intern_of_mem hmem]
    refine .inl ⟨_, _, cs, ?_, rfl, hwritten.dropFrom h⟩
    rw [hwritten.texts, hfound]
  · have hmiss : p.texts[text]? = none := by
      rw [Option.eq_none_iff_forall_ne_some]
      intro index hfound
      obtain ⟨_, hmem', -⟩ := (h.texts text index).mp hfound
      exact hmem hmem'
    rw [hwritten.texts, hmiss, hwritten.nextIndex]
    by_cases hroom : 1 + slotCount cs < 65536
    · rw [nextIndex_of_room h hroom, intern_of_notMem hmem hroom]
      exact .inl ⟨_, _, _, rfl, rfl, hwritten.register h short hmem hroom⟩
    · rw [nextIndex_of_full h hroom, intern_of_full hmem hroom]
      exact .inr ⟨_, _, cs, rfl, rfl, hwritten.dropFrom h⟩

theorem refines_encodedText (bytes : Bytes) : Refines (encodedText bytes) (internText bytes) :=
  refines_writtenText fun b => by simp

theorem refines_text (value : String) :
    Refines (text value) (internText (ModifiedUtf8.encode value)) :=
  refines_writtenText fun b => by simp

theorem refines_attributeName (name : AttributeName) :
    Refines (attributeName name) (internText (ModifiedUtf8.encode name.text)) := by
  intro p cs h
  unfold attributeName
  cases hname : p.names.get? name with
  | some index =>
    obtain ⟨short, hmem, rfl⟩ := (h.texts _ _).mp (h.names name index hname)
    refine .inl ⟨_, p, cs, rfl, ?_, h⟩
    unfold internText
    rw [dif_pos short, intern_of_mem hmem]
  | none =>
    rcases refines_text name.text p cs h with ⟨index, p', cs', hp, hcs, h'⟩ | ⟨e, p', cs', hp, hcs, h'⟩
    · refine .inl ⟨index, _, cs', by rw [hp], hcs, ?_⟩
      obtain ⟨short, hok⟩ := internText_eq_ok hcs
      obtain ⟨-, hmem, hindex⟩ := intern_eq_ok hok
      exact h'.noteName ((h'.texts _ index).mpr ⟨short, hmem, hindex⟩)
    · exact .inr ⟨e, p', cs', by rw [hp], hcs, h'⟩

end PoolM
end JavaClass
