import JavaClass.Proofs.PoolCopies
import JavaClass.Proofs.Replays

/-!
# Rebuilt classes

A file whose constants are distinct is rebuilt as it was, apart from a count that does not fit its
constants exactly: that one is put right. Any other file is refused.
-/

namespace JavaClass

open Constant

/-! ## Counts -/

namespace ClassSyntax

variable {s : ClassSyntax}

/-- The last of the declared slots starts a constant that takes two. -/
def EndsWide (s : ClassSyntax) : Prop :=
  ∃ start c, at? 10 s.constants (s.count.toNat - 1) = some (start, c) ∧
    (c.tag = .long ∨ c.tag = .double)

theorem endsWide_iff (hs : s.WellFormed) :
    s.EndsWide ↔ s.count ≠ 0 ∧ slotCount s.constants = s.count.toNat := by
  have hle := hs.constants.slotCount_le
  constructor
  · rintro ⟨start, c, hc, htag⟩
    obtain ⟨before, after, hsplit, hindex, -⟩ := at?_eq_some.mp hc
    have hslots : c.slots = 2 := Tag.slots_eq_two.mpr htag
    have hcount : slotCount s.constants = slotCount before + 2 + slotCount after := by
      rw [hsplit, slotCount_append, slotCount_cons, hslots]
      omega
    refine ⟨?_, by omega⟩
    intro hzero
    rw [hzero] at hindex
    simp at hindex
    omega
  · rintro ⟨hzero, hcount⟩
    have hpos : s.count.toNat ≠ 0 := fun h => hzero (UInt16.toNat_inj.mp h)
    rcases List.eq_nil_or_concat' s.constants with hnil | ⟨before, c, hsplit⟩
    · rw [hnil, slotCount_nil] at hcount
      omega
    · have hstart := hs.constants.2 before c [] hsplit
      rw [hsplit, slotCount_append, slotCount_cons, slotCount_nil] at hcount
      have hslots : c.slots ≤ 2 := c.tag.slots_le_two
      refine ⟨_, c, at?_eq_some.mpr ⟨before, [], hsplit, by omega, rfl⟩, ?_⟩
      exact Tag.slots_eq_two.mp (by show c.slots = 2; omega)

theorem encode_counted (s : ClassSyntax) :
    s.counted.encode = s.encode.take 8 ++ bytes16 s.counted.count ++ s.encode.drop 10 := by
  have hsplit : s.encode = (bytes32 magic ++ bytes16 s.version.minor ++ bytes16 s.version.major) ++
      (bytes16 s.count ++ (encodeAll s.constants ++ s.encodeHeader ++
        encodeCounted Member.encode s.fields ++ encodeCounted Member.encode s.methods ++
        encodeCounted Attribute.encode s.attributes)) := by
    simp [encode, encodePreamble]
  have htake : s.encode.take 8 =
      bytes32 magic ++ bytes16 s.version.minor ++ bytes16 s.version.major := by
    rw [hsplit, List.take_left' (by simp)]
  have hdrop : s.encode.drop 10 = encodeAll s.constants ++ s.encodeHeader ++
      encodeCounted Member.encode s.fields ++ encodeCounted Member.encode s.methods ++
      encodeCounted Attribute.encode s.attributes := by
    rw [hsplit, ← List.append_assoc, List.drop_left' (by simp)]
  rw [htake, hdrop]
  simp [encode, encodePreamble, encodeHeader, counted]

theorem count_counted (hs : s.WellFormed) (hroom : 1 + slotCount s.constants < 65536) :
    (s.count ≠ 0 → ¬ s.EndsWide → s.counted.count = s.count) ∧
      (s.count = 0 → s.counted.count = 1) ∧ (s.EndsWide → s.counted.count = s.count + 1) := by
  have htoNat : s.counted.count.toNat = 1 + slotCount s.constants :=
    UInt16.toNat_ofNat_of_lt' hroom
  have hle := hs.constants.slotCount_le
  have hge := hs.constants.1
  refine ⟨fun hzero hends => ?_, fun hzero => ?_, fun hends => ?_⟩
  · have hne : slotCount s.constants ≠ s.count.toNat :=
      fun h => hends ((endsWide_iff hs).mpr ⟨hzero, h⟩)
    have hpos : s.count.toNat ≠ 0 := fun h => hzero (UInt16.toNat_inj.mp h)
    apply UInt16.toNat_inj.mp
    omega
  · have hnil : s.constants = [] := by
      have hfill := hs.constants
      rw [hzero] at hfill
      exact fill_zero.mp hfill
    unfold counted
    rw [hnil]
    rfl
  · obtain ⟨-, hcount⟩ := (endsWide_iff hs).mp hends
    apply UInt16.toNat_inj.mp
    rw [htoNat, UInt16.toNat_add, hcount, Nat.mod_eq_of_lt]
    · exact Nat.add_comm _ _
    · show s.count.toNat + 1 < 65536
      omega

end ClassSyntax

/-! ## Rebuilding -/

namespace ClassFile

variable {s : ClassSyntax} {bytes : Bytes} {trailing : List UInt8} {f : ClassFile} {m n : Nat}

theorem copyInto_eq_ok (hs : s.WellFormed) (h : bytes.toList = s.encode ++ trailing) :
    ∃ m p ds, (s.classFile bytes).pool.copyInto
        (ClassDraft.withOptions (s.classFile bytes).draftOptions).pool = .ok m p ∧
      p.Represents ds ∧ Copied s.constants ds m :=
  (holds_classFile hs h).copyInto_eq_ok (fill_classFile hs bytes) (count_classFile_lt hs bytes)
    (.withPolicy _ _)

theorem rebuild_of_moved {p : ConstantPool} (hm : m ≠ 0)
    (hcopy : f.pool.copyInto (ClassDraft.withOptions f.draftOptions).pool = .ok m p) :
    f.rebuild = .error (.indexesMoved m) := by
  unfold rebuild
  simp only [bind_apply_ok (ClassM.onPool_apply_ok hcopy)]
  rw [if_pos hm]
  rfl

theorem rebuild_of_kept {p : ConstantPool}
    (hcopy : f.pool.copyInto (ClassDraft.withOptions f.draftOptions).pool = .ok 0 p) :
    f.rebuild = match f.replayInto (fun _ => false)
        { ClassDraft.withOptions f.draftOptions with pool := p } with
      | .ok _ c => .ok c
      | .error e _ => .error e := by
  unfold rebuild
  simp only [bind_apply_ok (ClassM.onPool_apply_ok hcopy)]
  rfl

theorem rebuild_of_repeats (hs : s.WellFormed) (h : bytes.toList = s.encode ++ trailing)
    (hrepeats : RepeatsFrom s.constants n) :
    (s.classFile bytes).rebuild = .error (.indexesMoved n) := by
  obtain ⟨m, p, ds, hcopy, -, hcopied⟩ := copyInto_eq_ok hs h
  cases hcopied with
  | same hnodup => exact absurd hnodup hrepeats.not_nodup
  | moved hrepeats' =>
    obtain rfl := hrepeats'.unique hrepeats
    have hpos : m ≠ 0 := by
      obtain ⟨before, c, after, -, -, -, rfl⟩ := hrepeats
      omega
    exact rebuild_of_moved hpos hcopy

theorem rebuild_of_nodup (hs : s.WellFormed) (h : bytes.toList = s.encode ++ trailing)
    (hnodup : s.constants.Nodup) :
    ∃ c : ClassDraft, c.Closed s ∧
      (∀ l, c.pieces = .ok l → (s.classFile bytes).rebuild = .ok c) ∧
      (∀ e, c.pieces = .error e → (s.classFile bytes).rebuild = .error e) := by
  obtain ⟨m, p, ds, hcopy, hp, hcopied⟩ := copyInto_eq_ok hs h
  cases hcopied with
  | moved hrepeats => exact absurd hnodup hrepeats.not_nodup
  | same _ hds =>
    subst hds
    have hfresh := (ClassDraft.fresh_withOptions (s.classFile bytes).draftOptions).withPool hp
    obtain ⟨c₁, hbuilds, hok, herror⟩ := replayInto_eq_finish bytes hs hfresh
    obtain ⟨c, hclosed, hfinish, hfail⟩ := ClassM.finish_apply hbuilds (count32_lt hs.fieldCount)
    refine ⟨c, { __ := hclosed }, fun l hl => ?_, fun e he => ?_⟩
    · rw [rebuild_of_kept hcopy, hok c (hfinish l hl)]
    · rw [rebuild_of_kept hcopy, herror e c (hfail e he)]

theorem countable_of_wellFormed (hs : s.WellFormed) (hroom : 1 + slotCount s.constants < 65536) :
    s.Countable :=
  ⟨hroom, count32_lt hs.methodCount, count32_lt hs.attributeCount⟩

theorem rebuild_eq_ok (hs : s.WellFormed) (h : bytes.toList = s.encode ++ trailing)
    (hnodup : s.constants.Nodup) (hroom : 1 + slotCount s.constants < 65536) :
    ∃ c : ClassDraft, (s.classFile bytes).rebuild = .ok c ∧
      c.toBytes = .ok s.counted.encode.toArray := by
  obtain ⟨c, hclosed, hok, -⟩ := rebuild_of_nodup hs h hnodup
  have hcountable := countable_of_wellFormed hs hroom
  obtain ⟨l, hl, -⟩ := hclosed.pieces_eq_ok hcountable
  exact ⟨c, hok l hl, hclosed.toBytes_eq_ok hcountable⟩

theorem rebuild_of_full (hs : s.WellFormed) (h : bytes.toList = s.encode ++ trailing)
    (hnodup : s.constants.Nodup) (hfull : ¬ 1 + slotCount s.constants < 65536) :
    (s.classFile bytes).rebuild = .error (.poolOverflow (1 + slotCount s.constants)) := by
  obtain ⟨c, hclosed, -, herror⟩ := rebuild_of_nodup hs h hnodup
  exact herror _ (hclosed.pieces_error hfull)

theorem wellFormed_counted (hs : s.WellFormed) (hroom : 1 + slotCount s.constants < 65536) :
    s.counted.WellFormed where
  __ := hs
  constants := by
    rw [(countable_of_wellFormed hs hroom).toNat_count, Nat.add_sub_cancel_left]
    exact fill_slotCount s.constants

theorem full_iff (hs : s.WellFormed) :
    ¬ 1 + slotCount s.constants < 65536 ↔ s.count = 65535 ∧ s.EndsWide := by
  have hle := hs.constants.slotCount_le
  have hlt : s.count.toNat < 65536 := s.count.toNat_lt
  rw [ClassSyntax.endsWide_iff hs]
  constructor
  · intro hfull
    have hcount : s.count.toNat = 65535 := by omega
    have heq : s.count = 65535 := UInt16.toNat_inj.mp hcount
    refine ⟨heq, ?_, by omega⟩
    rw [heq]
    decide
  · rintro ⟨hcount, -, hslots⟩
    rw [hcount] at hslots
    have : (65535 : UInt16).toNat = 65535 := rfl
    omega

theorem nodup_or_repeats (hs : s.WellFormed) (h : bytes.toList = s.encode ++ trailing) :
    s.constants.Nodup ∨ ∃ n, RepeatsFrom s.constants n := by
  obtain ⟨m, p, ds, -, -, hcopied⟩ := copyInto_eq_ok hs h
  cases hcopied with
  | same hnodup => exact .inl hnodup
  | moved hrepeats => exact .inr ⟨m, hrepeats⟩

theorem rebuild_eq_indexesMoved (hs : s.WellFormed) (h : bytes.toList = s.encode ++ trailing) :
    (s.classFile bytes).rebuild = .error (.indexesMoved n) ↔ RepeatsFrom s.constants n := by
  refine ⟨fun hmoved => ?_, rebuild_of_repeats hs h⟩
  rcases nodup_or_repeats hs h with hnodup | ⟨m, hrepeats⟩
  · by_cases hroom : 1 + slotCount s.constants < 65536
    · obtain ⟨c, hok, -⟩ := rebuild_eq_ok hs h hnodup hroom
      rw [hok] at hmoved
      cases hmoved
    · rw [rebuild_of_full hs h hnodup hroom] at hmoved
      cases hmoved
  · rw [rebuild_of_repeats hs h hrepeats] at hmoved
    cases hmoved
    exact hrepeats

theorem rebuild_eq_overflow (hs : s.WellFormed) (h : bytes.toList = s.encode ++ trailing)
    (hnodup : s.constants.Nodup) :
    (s.classFile bytes).rebuild = .error (.poolOverflow 65536) ↔ s.count = 65535 ∧ s.EndsWide := by
  rw [← full_iff hs]
  constructor
  · intro hoverflow hroom
    obtain ⟨c, hok, -⟩ := rebuild_eq_ok hs h hnodup hroom
    rw [hok] at hoverflow
    cases hoverflow
  · intro hfull
    have hle := hs.constants.slotCount_le
    have hlt : s.count.toNat < 65536 := s.count.toNat_lt
    rw [rebuild_of_full hs h hnodup hfull, show 1 + slotCount s.constants = 65536 by omega]

/-- Rebuilding any file that parses: it is refused exactly if constants repeat, overflows exactly if
the last of 65535 slots starts a wide constant, and else comes out as it was apart from a count
that does not fit the constants. What comes out is rebuilt as it is. -/
theorem rebuild_reproduces_file (bytes : Bytes) (f : ClassFile)
    (hparse : ClassFile.parse bytes = .ok f) :
    ∃ (s : ClassSyntax) (trailing : List UInt8),
      s.WellFormed ∧ bytes.toList = s.encode ++ trailing ∧ f.Reports s ∧
      ((∃ m, f.rebuild = .error (.indexesMoved m)) ↔ ¬ s.constants.Nodup) ∧
      (∀ m, f.rebuild = .error (.indexesMoved m) ↔ RepeatsFrom s.constants m) ∧
      (s.constants.Nodup →
        (f.rebuild = .error (.poolOverflow 65536) ↔ s.count = 65535 ∧ s.EndsWide)) ∧
      (s.constants.Nodup → ¬ (s.count = 65535 ∧ s.EndsWide) →
        ∃ c out, ∃ count : UInt16, f.rebuild = .ok c ∧ c.toBytes = .ok out ∧
          out.toList = bytes.toList.take 8 ++ bytes16 count ++ (bytes.toList.take f.size).drop 10 ∧
          (s.count ≠ 0 → ¬ s.EndsWide → count = s.count) ∧ (s.count = 0 → count = 1) ∧
          (s.EndsWide → count = s.count + 1) ∧
          ∃ g c', ClassFile.parse out = .ok g ∧ g.rebuild = .ok c' ∧ c'.toBytes = .ok out) := by
  obtain ⟨s, trailing, hs, hsplit, rfl⟩ := parse_eq_ok.mp hparse
  refine ⟨s, trailing, hs, hsplit, reports_classFile hs hsplit, ?_, ?_, ?_, ?_⟩
  · constructor
    · rintro ⟨m, hmoved⟩
      exact ((rebuild_eq_indexesMoved hs hsplit).mp hmoved).not_nodup
    · intro hnodup
      obtain ⟨m, hrepeats⟩ := (nodup_or_repeats hs hsplit).resolve_left hnodup
      exact ⟨m, rebuild_of_repeats hs hsplit hrepeats⟩
  · exact fun m => rebuild_eq_indexesMoved hs hsplit
  · exact rebuild_eq_overflow hs hsplit
  · intro hnodup hends
    have hroom : 1 + slotCount s.constants < 65536 := by
      rw [← full_iff hs] at hends
      exact not_not.mp hends
    obtain ⟨c, hok, hbytes⟩ := rebuild_eq_ok hs hsplit hnodup hroom
    obtain ⟨hkept, hzero, hwide⟩ := ClassSyntax.count_counted hs hroom
    have hs' := wellFormed_counted hs hroom
    have hsplit' : s.counted.encode.toArray.toList = s.counted.encode ++ [] := by simp
    obtain ⟨c', hok', hbytes'⟩ := rebuild_eq_ok hs' hsplit' hnodup hroom
    have hsize : (s.classFile bytes).size = s.encode.length := rfl
    have htake : bytes.toList.take 8 = s.encode.take 8 := by
      rw [hsplit, List.take_append_of_le_length]
      rw [ClassSyntax.length_encode, ClassSyntax.attributesOffset, ClassSyntax.methodsOffset,
        ClassSyntax.fieldsOffset, ClassSyntax.headerOffset]
      omega
    have hbody : bytes.toList.take s.encode.length = s.encode := by
      rw [hsplit, List.take_left]
    refine ⟨c, _, s.counted.count, hok, hbytes, ?_, hkept, hzero, hwide, _, c',
      parse_encode _ hs' hsplit', hok', hbytes'⟩
    rw [htake, hsize, hbody]
    exact ClassSyntax.encode_counted s

/-- A class whose declared count cuts off the second slot of its only constant. -/
def cutPool : ClassSyntax where
  version := .v1_8
  count := 2
  constants := [ofPayload .long (.wide 7) rfl]
  flags := ⟨0x21⟩
  thisClass := 0
  superClass := 0
  interfaces := []
  fields := []
  methods := []
  attributes := []

theorem cutPool_wellFormed : cutPool.WellFormed where
  constants := fill_cons.mpr ⟨by decide, fill_nil.mpr rfl⟩
  interfaces := by decide
  fieldCount := by decide
  fields := by simp [cutPool]
  methodCount := by decide
  methods := by simp [cutPool]
  attributeCount := by decide
  attributes := by simp [cutPool]

theorem cutPool_is_completed : ∃ f c out, ClassFile.parse cutPool.encode.toArray = .ok f ∧
    f.rebuild = .ok c ∧ c.toBytes = .ok out ∧
    out.toList = cutPool.encode.take 8 ++ bytes16 3 ++ cutPool.encode.drop 10 := by
  have hparse := parse_encode (x := []) cutPool.encode.toArray cutPool_wellFormed (by simp)
  obtain ⟨s, trailing, hs, hsplit, hreports, -, -, -, hrebuild⟩ :=
    rebuild_reproduces_file _ _ hparse
  have heq : cutPool.encode ++ [] = s.encode ++ trailing := by
    rw [← hsplit, List.append_nil]
  obtain ⟨rfl, rfl⟩ := encode_append_inj cutPool_wellFormed hs heq
  have hends : cutPool.EndsWide := ⟨10, _, rfl, .inl rfl⟩
  have hcount : ¬ (cutPool.count = 65535 ∧ cutPool.EndsWide) := fun h => absurd h.1 (by decide)
  obtain ⟨c, out, count, hok, hbytes, hout, -, -, hwide, -⟩ :=
    hrebuild (by simp [cutPool]) hcount
  refine ⟨_, c, out, hparse, hok, hbytes, ?_⟩
  rw [hout, hwide hends, hreports.size, List.toList_toArray, List.take_length]
  rfl

end ClassFile
end JavaClass
