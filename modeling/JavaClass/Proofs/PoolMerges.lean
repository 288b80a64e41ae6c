import JavaClass.Proofs.Agreement
import JavaClass.Proofs.PoolCopies

/-!
# Pools copied into others

Copying a pool into one that has constants already appends those that it lacks, in the order in
which they occur first. If it runs out of indexes, it has appended as many of them as there was room
for.
-/

namespace JavaClass

namespace Constant

variable {cs ds es front : List Constant} {c : Constant} {start m n i : Nat} {e : Error}

/-! ## What is missing -/

/-- The constants of the first list that the second one lacks, each where it occurs first. -/
def missing (cs ds : List Constant) : List Constant := (cs.filter (· ∉ ds)).eraseDups

@[simp]
theorem missing_nil (ds : List Constant) : missing [] ds = [] := rfl

theorem missing_cons_of_mem (h : c ∈ ds) : missing (c :: cs) ds = missing cs ds := by
  unfold missing
  rw [List.filter_cons_of_neg (by simpa using h)]

theorem missing_cons_of_notMem (h : c ∉ ds) :
    missing (c :: cs) ds = c :: missing cs (ds ++ [c]) := by
  unfold missing
  rw [List.filter_cons_of_pos (by simpa using h), List.eraseDups_cons, List.filter_filter]
  congr 2
  apply List.filter_congr
  intro d _
  simp [Bool.and_comm, beq_eq_decide]

theorem mem_missing : c ∈ missing cs ds ↔ c ∈ cs ∧ c ∉ ds := by
  unfold missing
  simp [List.mem_eraseDups]

theorem mem_append_missing (h : c ∈ cs) : c ∈ ds ++ missing cs ds := by
  by_cases hmem : c ∈ ds
  · exact List.mem_append_left _ hmem
  · exact List.mem_append_right _ (mem_missing.mpr ⟨h, hmem⟩)

/-! ## Copying constants -/

/-- The constant at the index has another index in the second list. -/
def moves (es : List Constant) (slot : Nat × Constant) : Bool := indexOf slot.2 es ≠ slot.1

theorem append_missing_of_intern {index : UInt16} (h : intern c ds = .ok index es)
    (cs : List Constant) : es ++ missing cs es = ds ++ missing (c :: cs) ds := by
  unfold intern at h
  split at h
  · rename_i hmem
    rw [← (EStateM.Result.ok.inj h).2, missing_cons_of_mem hmem]
  · rename_i hmissing
    split at h
    · rw [← (EStateM.Result.ok.inj h).2, missing_cons_of_notMem hmissing, List.append_assoc,
        List.singleton_append]
    · cases h

theorem copyNumbered_eq_ok (h : copyNumbered m (i, c) ds = .ok n es) :
    ∃ index, intern c ds = .ok index es ∧ n = if index = UInt16.ofNat i then m else m + 1 := by
  obtain ⟨index, fs, hintern, hpure⟩ := bind_eq_ok.mp h
  obtain ⟨rfl, rfl⟩ := pure_eq_ok.mp hpure
  exact ⟨index, hintern, rfl⟩

theorem foldlM_eq_ok (h : (numbered start cs).foldlM copyNumbered m ds = .ok n es) :
    es = ds ++ missing cs ds := by
  induction cs generalizing start m ds with
  | nil =>
    obtain ⟨-, rfl⟩ := pure_eq_ok.mp h
    simp
  | cons c cs ih =>
    rw [numbered, List.foldlM_cons] at h
    obtain ⟨m₁, ds₁, hfirst, hrest⟩ := bind_eq_ok.mp h
    obtain ⟨index, hintern, -⟩ := copyNumbered_eq_ok hfirst
    rw [ih hrest, append_missing_of_intern hintern]

theorem foldlM_count (h : (numbered start cs).foldlM copyNumbered m ds = .ok n es)
    (hindexed : ∀ c ∈ es, indexOf c es < 65536)
    (hslots : ∀ slot ∈ numbered start cs, slot.1 < 65536) :
    n = m + (numbered start cs).countP (moves es) := by
  induction cs generalizing start m ds with
  | nil =>
    obtain ⟨rfl, -⟩ := pure_eq_ok.mp h
    rfl
  | cons c cs ih =>
    rw [numbered, List.forall_mem_cons] at hslots
    rw [numbered, List.foldlM_cons] at h
    obtain ⟨m₁, ds₁, hfirst, hrest⟩ := bind_eq_ok.mp h
    obtain ⟨index, hintern, hm₁⟩ := copyNumbered_eq_ok hfirst
    obtain ⟨-, hmem, hindex⟩ := intern_eq_ok hintern
    -- what is appended later does not change the index that was answered
    have hes := foldlM_eq_ok hrest
    have hlt : indexOf c es < 65536 := hindexed c (by rw [hes]; exact List.mem_append_left _ hmem)
    rw [← indexOf_append hmem, ← hes] at hindex
    have hkept : index = UInt16.ofNat start ↔ moves es (start, c) = false := by
      rw [hindex, ← UInt16.toNat_inj, UInt16.toNat_ofNat_of_lt' hlt,
        UInt16.toNat_ofNat_of_lt' hslots.1]
      simp [moves]
    rw [ih hrest hslots.2, numbered, List.countP_cons, hm₁]
    simp only [hkept]
    cases moves es (start, c) with
    | false => simp
    | true =>
      simp
      omega

theorem foldlM_eq_error (h : (numbered start cs).foldlM copyNumbered m ds = .error e es) :
    ∃ front c after, missing cs ds = front ++ c :: after ∧ es = ds ++ front ∧
      65536 ≤ 1 + slotCount es ∧ e = .poolOverflow (1 + slotCount es + 1) := by
  induction cs generalizing start m ds with
  | nil => cases h
  | cons c cs ih =>
    rw [numbered, List.foldlM_cons] at h
    -- either this constant finds no room or a later one
    rcases bind_eq_error.mp h with hfirst | ⟨m₁, ds₁, hfirst, hrest⟩
    · rcases bind_eq_error.mp hfirst with hintern | ⟨_, _, _, ⟨⟩⟩
      obtain ⟨hmissing, hfull, rfl, rfl⟩ := intern_eq_error.mp hintern
      exact ⟨[], c, _, missing_cons_of_notMem hmissing, by simp, hfull, rfl⟩
    · obtain ⟨index, hintern, -⟩ := copyNumbered_eq_ok hfirst
      obtain ⟨⟨more, rfl⟩, -⟩ := intern_eq_ok hintern
      obtain ⟨front, d, after, hsplit, rfl, hfull, he⟩ := ih hrest
      have happend := append_missing_of_intern hintern cs
      rw [hsplit, List.append_assoc, List.append_right_inj] at happend
      exact ⟨more ++ front, d, after, by rw [← happend, List.append_assoc],
        List.append_assoc _ _ _, hfull, he⟩

theorem foldlM_of_subset (h : ∀ c ∈ cs, c ∈ es) (m start : Nat) :
    ∃ n, (numbered start cs).foldlM copyNumbered m es = .ok n es := by
  have hnone : missing cs es = [] := by
    rw [List.eq_nil_iff_forall_not_mem]
    intro c hc
    exact (mem_missing.mp hc).2 (h c (mem_missing.mp hc).1)
  cases hrun : (numbered start cs).foldlM copyNumbered m es with
  | ok n fs =>
    have hfs := foldlM_eq_ok hrun
    rw [hnone, List.append_nil] at hfs
    exact ⟨n, by rw [hfs]⟩
  | error e fs =>
    obtain ⟨front, c, after, hsplit, -⟩ := foldlM_eq_error hrun
    rw [hnone] at hsplit
    simp at hsplit

/-! ## Indexes that change -/

/-- The index has a constant whose index in the second list is another. -/
def movesAt (cs es : List Constant) (i : Nat) : Bool :=
  match at? 0 cs i with
  | none => false
  | some (_, c) => indexOf c es ≠ i

theorem countP_movesAt (hfill : Fill n cs) (es : List Constant) :
    (List.range (n + 1)).countP (movesAt cs es) = (numbered 1 cs).countP (moves es) := by
  have hnumbered := filterMap_slotAt [] hfill
  rw [slotCount_nil, List.nil_append] at hnumbered
  rw [← hnumbered, List.countP_filterMap, List.range_eq_range', List.range'_succ,
    List.countP_cons_of_neg (by simp [movesAt, at?_zero])]
  congr 1
  funext i
  unfold movesAt slotAt
  cases at? 0 cs i <;> rfl

theorem lt_of_mem_numbered (hfill : Fill n cs) {slot : Nat × Constant} (h : slot ∈ numbered 1 cs) :
    slot.1 < n + 1 := by
  have hnumbered := filterMap_slotAt [] hfill
  rw [slotCount_nil, List.nil_append] at hnumbered
  rw [← hnumbered, List.mem_filterMap] at h
  obtain ⟨i, hi, hslot⟩ := h
  obtain ⟨_, -, rfl⟩ := Option.map_eq_some_iff.mp hslot
  have hrange := List.mem_range'_1.mp hi
  dsimp only
  omega

end Constant

/-! ## Copying pools -/

namespace ConstantTable.Holds

open Constant

variable {t : ConstantTable} {offset m : Nat} {cs ds : List Constant} {p p' : ConstantPool}
  {e : Error}

theorem copyInto_ok (h : t.Holds offset cs) (hfill : Fill (t.count - 1) cs)
    (hcount : t.count ≤ 65536) (hp : p.Represents ds) (hcopy : t.copyInto p = .ok m p') :
    p'.Represents (ds ++ missing cs ds) ∧
      m = (List.range (t.count - 1 + 1)).countP (movesAt cs (ds ++ missing cs ds)) := by
  rcases h.refines_copyInto hfill hcount p ds hp with
    ⟨n, q, es, hok, hspec, h'⟩ | ⟨e, q, es, herror, -, -⟩
  · rw [hcopy] at hok
    obtain ⟨rfl, rfl⟩ := EStateM.Result.ok.inj hok
    obtain rfl := foldlM_eq_ok hspec
    refine ⟨h', ?_⟩
    rw [countP_movesAt hfill, foldlM_count hspec h'.indexed, Nat.zero_add]
    intro slot hslot
    have hlt := lt_of_mem_numbered hfill hslot
    omega
  · rw [hcopy] at herror
    cases herror

theorem copyInto_error (h : t.Holds offset cs) (hfill : Fill (t.count - 1) cs)
    (hcount : t.count ≤ 65536) (hp : p.Represents ds) (hcopy : t.copyInto p = .error e p') :
    ∃ front c after, missing cs ds = front ++ c :: after ∧ p'.Represents (ds ++ front) ∧
      65536 ≤ p'.count ∧ e = .poolOverflow (p'.count + 1) := by
  rcases h.refines_copyInto hfill hcount p ds hp with
    ⟨n, q, es, hok, -, -⟩ | ⟨e', q, es, herror, hspec, h'⟩
  · rw [hcopy] at hok
    cases hok
  · rw [hcopy] at herror
    obtain ⟨rfl, rfl⟩ := EStateM.Result.error.inj herror
    obtain ⟨front, c, after, hsplit, rfl, hfull, he⟩ := foldlM_eq_error hspec
    rw [← h'.count] at hfull he
    exact ⟨front, c, after, hsplit, h', hfull, he⟩

theorem copyInto_again (h : t.Holds offset cs) (hfill : Fill (t.count - 1) cs)
    (hcount : t.count ≤ 65536) (hp : p.Represents ds) (hsubset : ∀ c ∈ cs, c ∈ ds) :
    ∃ n p', t.copyInto p = .ok n p' ∧ p'.Represents ds := by
  obtain ⟨n, hfold⟩ := foldlM_of_subset hsubset 0 1
  rcases h.refines_copyInto hfill hcount p ds hp with
    ⟨n', q, es, hok, hspec, h'⟩ | ⟨e, q, es, -, hspec, -⟩
  · rw [hfold] at hspec
    obtain ⟨rfl, rfl⟩ := EStateM.Result.ok.inj hspec
    exact ⟨n, q, hok, h'⟩
  · rw [hfold] at hspec
    cases hspec

end ConstantTable.Holds

theorem ConstantPool.Represents.unique {p : ConstantPool} {cs ds : List Constant}
    (h : p.Represents cs) (h' : p.Represents ds) : cs = ds := by
  have hslots : Constant.slotCount cs = Constant.slotCount ds := by
    have hcount := h'.count
    rw [h.count] at hcount
    omega
  have hentries : Constant.encodeAll cs ++ [] = Constant.encodeAll ds ++ [] := by
    rw [List.append_nil, List.append_nil, ← h.entries, h'.entries]
  have hfill := Constant.fill_slotCount ds
  rw [← hslots] at hfill
  exact ((Constant.fill_slotCount cs).encodeAll_append_inj hfill hentries).1

namespace ClassFile

open Constant

/-- Copying the pool of a file that parses into a pool made by any calls. If it succeeds, all that
was there stays, what the pool lacked of the file is behind it, and the answer counts the indexes of
the file whose constants are elsewhere; a second copy changes nothing and answers the same. If it
fails, the indexes have run out, and all that was there stays as well. -/
theorem copyInto_merges (bytes : Bytes) (f : ClassFile) (hparse : ClassFile.parse bytes = .ok f)
    (capacity : Nat) (growth : Growth) (calls : List PoolCall) :
    ∃ (s : ClassSyntax) (trailing : List UInt8) (ds : List Constant),
      let p := PoolCall.runAll calls (ConstantPool.withPolicy capacity growth)
      s.WellFormed ∧ bytes.toList = s.encode ++ trailing ∧ f.Reports s ∧ p.Represents ds ∧
      (∀ m p', f.pool.copyInto p = .ok m p' →
        p.Extends p' ∧ p'.Represents (ds ++ missing s.constants ds) ∧
        m = (List.range f.pool.count).countP
          (movesAt s.constants (ds ++ missing s.constants ds)) ∧
        ∃ p'', f.pool.copyInto p' = .ok m p'' ∧ p''.Same p') ∧
      (∀ e p', f.pool.copyInto p = .error e p' →
        p.Extends p' ∧ 65536 ≤ p'.count ∧ e = .poolOverflow (p'.count + 1) ∧
        ∃ front c after, missing s.constants ds = front ++ c :: after ∧
          p'.Represents (ds ++ front)) := by
  obtain ⟨s, trailing, hs, hsplit, rfl⟩ := parse_eq_ok.mp hparse
  obtain ⟨ds, -, hp⟩ := PoolCall.runAll_represents calls (.withPolicy capacity growth)
  have hholds := holds_classFile hs hsplit
  have hfill := fill_classFile hs bytes
  have hcount := (count_classFile_lt hs bytes).le
  have hrange : (s.classFile bytes).pool.count - 1 + 1 = (s.classFile bytes).pool.count := by
    rw [count_classFile hs]
    omega
  refine ⟨s, trailing, ds, hs, hsplit, reports_classFile hs hsplit, hp, ?_, ?_⟩
  · intro m p' hcopy
    obtain ⟨hp', hm⟩ := hholds.copyInto_ok hfill hcount hp hcopy
    -- all constants are there the second time, so its answer is a count over the same list
    obtain ⟨n, p'', hagain, hp''⟩ :=
      hholds.copyInto_again hfill hcount hp' fun c hc => mem_append_missing hc
    obtain ⟨hall, hn⟩ := hholds.copyInto_ok hfill hcount hp' hagain
    rw [← hp''.unique hall, ← hm] at hn
    rw [hrange] at hm
    exact ⟨hp.extends_of_prefix hp' (List.prefix_append _ _), hp', hm, p'', hn ▸ hagain,
      hp''.same hp'⟩
  · intro e p' hcopy
    obtain ⟨front, c, after, hmissing, hp', hfull, he⟩ :=
      hholds.copyInto_error hfill hcount hp hcopy
    exact ⟨hp.extends_of_prefix hp' (List.prefix_append _ _), hfull, he, front, c, after, hmissing,
      hp'⟩

def integer (value : UInt32) : Constant :=
  ofPayload .integer (.word value) (Payload.suits_word rfl value)

/-- A class with a constant that repeats and another one. -/
def repeatedPool : ClassSyntax where
  version := .v1_8
  count := 4
  constants := [integer 7, integer 7, integer 8]
  flags := ⟨0x21⟩
  thisClass := 0
  superClass := 0
  interfaces := []
  fields := []
  methods := []
  attributes := []

theorem repeatedPool_wellFormed : repeatedPool.WellFormed where
  constants := fill_cons.mpr ⟨by decide, fill_cons.mpr ⟨by decide, fill_cons.mpr ⟨by decide,
    fill_nil.mpr rfl⟩⟩⟩
  interfaces := by decide
  fieldCount := by decide
  fields := by simp [repeatedPool]
  methodCount := by decide
  methods := by simp [repeatedPool]
  attributeCount := by decide
  attributes := by simp [repeatedPool]

/-- One of the three constants stays at its index, by chance. -/
theorem repeatedPool_merges : ∃ f p', ClassFile.parse repeatedPool.encode.toArray = .ok f ∧
    f.pool.copyInto (PoolCall.runAll [.int 8] (.withPolicy 0 Growth.pool)) = .ok 2 p' ∧
      p'.entries.toList = encodeAll [integer 8, integer 7] := by
  have hparse := parse_encode (x := []) repeatedPool.encode.toArray repeatedPool_wellFormed (by simp)
  obtain ⟨s, trailing, ds, hs, hsplit, hreports, hds, hok, herror⟩ :=
    copyInto_merges _ _ hparse 0 Growth.pool [.int 8]
  have heq : repeatedPool.encode ++ [] = s.encode ++ trailing := by
    rw [← hsplit, List.append_nil]
  obtain ⟨rfl, rfl⟩ := encode_append_inj repeatedPool_wellFormed hs heq
  have hsink := (PoolCall.int 8).after_represents_left (.withPolicy 0 Growth.pool)
  obtain rfl : ds = [integer 8] := hds.unique hsink
  have hmissing : missing repeatedPool.constants [integer 8] = [integer 7] := by decide
  have hcount : (repeatedPool.classFile repeatedPool.encode.toArray).pool.count = 4 := hreports.count
  cases hcopy : (repeatedPool.classFile repeatedPool.encode.toArray).pool.copyInto
      (PoolCall.runAll [.int 8] (.withPolicy 0 Growth.pool)) with
  | ok m p' =>
    obtain ⟨-, hp', hm, -⟩ := hok m p' hcopy
    rw [hcount, hmissing] at hm
    have htwo : (List.range 4).countP
        (movesAt repeatedPool.constants ([integer 8] ++ [integer 7])) = 2 := by decide
    rw [htwo] at hm
    rw [hmissing] at hp'
    exact ⟨_, p', hparse, hm ▸ hcopy, hp'.entries⟩
  | error e p' =>
    obtain ⟨-, hfull, -, front, c, after, hfront, hp'⟩ := herror e p' hcopy
    rw [hmissing] at hfront
    obtain rfl : front = [] := by
      rcases front with _ | ⟨d, front⟩
      · rfl
      · simp at hfront
    rw [hp'.count] at hfull
    exact absurd hfull (by decide)

end ClassFile
end JavaClass
