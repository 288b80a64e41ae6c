import JavaClass.Proofs.ClassScripts

/-!
# Counts of finished classes

A class can be ended again after an end that has failed. Every end checks the numbers of methods and
of attributes, and so does serializing. Only the first end has the number of fields. If that does
not fit, the later ends pass, and the class is written out with the reserved zero in front of its
fields.
-/

namespace JavaClass

open Constant

/-! ## Ends -/

/-- Ends the class so many times, and tells what each end answered. -/
def ClassM.ends : Nat → ClassM (List (Except Error Unit))
  | 0 => pure []
  | n + 1 => do
    let answer ← outcome finish
    return answer :: (← ends n)

def poolEnd (n : Nat) : Except Error Unit :=
  if n < 65536 then .ok () else .error (.poolOverflow n)

theorem poolEnd_eq_ok {n : Nat} : poolEnd n = .ok () ↔ n < 65536 := by
  unfold poolEnd
  split <;> simp_all

namespace ClassSyntax

/-- What every end checks, and serializing too. -/
def check (s : ClassSyntax) : Except Error Unit := do
  poolEnd (1 + slotCount s.constants)
  countEnd .methods (count32 s.methods.length)
  countEnd .attributes (count32 s.attributes.length)

variable {s : ClassSyntax}

theorem check_eq_ok : s.check = .ok () ↔ s.Countable := by
  unfold check
  rw [except_bind_eq_ok]
  constructor
  · rintro ⟨_, hroom, hcounts⟩
    obtain ⟨_, hmethods, hattributes⟩ := except_bind_eq_ok.mp hcounts
    exact ⟨poolEnd_eq_ok.mp hroom, countEnd_eq_ok.mp hmethods, countEnd_eq_ok.mp hattributes⟩
  · rintro ⟨hroom, hmethods, hattributes⟩
    refine ⟨(), poolEnd_eq_ok.mpr hroom, ?_⟩
    rw [countEnd_eq_ok.mpr hmethods]
    exact countEnd_eq_ok.mpr hattributes

/-- What ends answer, one after the other. Only the first one has the number of fields. -/
def endAnswers (s : ClassSyntax) : Nat → List (Except Error Unit)
  | 0 => []
  | n + 1 => (do countEnd .fields (count32 s.fields.length); s.check) :: List.replicate n s.check

/-- The number in front of the fields of a class that has been ended: that of the fields, or the
reserved zero. -/
def endedFieldCount (s : ClassSyntax) : UInt16 :=
  if count32 s.fields.length < 65536 then UInt16.ofNat s.fields.length else 0

end ClassSyntax

namespace ClassDraft

variable {c : ClassDraft} {s : ClassSyntax} {fieldCount : UInt16}

theorem ClosedWith.check (h : c.ClosedWith s fieldCount) :
    (c.pieces.map fun _ => ()) = s.check := by
  unfold pieces ConstantPool.encodedCount ClassSyntax.check poolEnd countEnd
  rw [h.pool.count, h.methodCount, h.attributeCount, count16_counter, count16_counter]
  split_ifs <;> rfl

end ClassDraft

namespace ClassM

variable {c : ClassDraft} {s : ClassSyntax} {fieldCount : UInt16}

theorem outcome_finish_of_counted (h : c.ClosedWith s fieldCount) (hcounted : c.fields = none) :
    outcome finish c = .ok s.check c := by
  rw [← h.check]
  unfold outcome
  rw [finish_of_counted hcounted]
  cases c.pieces <;> rfl

theorem ends_of_counted (n : Nat) (h : c.ClosedWith s fieldCount) (hcounted : c.fields = none) :
    ends n c = .ok (List.replicate n s.check) c := by
  induction n with
  | zero => rfl
  | succ n ih =>
    refine (bind_apply_ok (outcome_finish_of_counted h hcounted)).trans ?_
    exact bind_apply_ok ih

/-- After one end or more the class is closed, around the number of fields or around a zero. -/
theorem ends_eq_ok (n : Nat) (h : c.Holds s) : ∃ c' : ClassDraft,
    ends (n + 1) c = .ok (s.endAnswers (n + 1)) c' ∧ c'.ClosedWith s s.endedFieldCount := by
  unfold ClassSyntax.endAnswers ClassSyntax.endedFieldCount
  -- either way the first end takes the reserved number of fields out of the draft
  by_cases hfields : count32 s.fields.length < 65536
  · obtain ⟨c', hclosed, hcounted, hfinish⟩ := finish_closes h hfields
    have hfirst : outcome finish c = .ok s.check c' := by
      rw [← outcome_finish_of_counted hclosed hcounted]
      unfold outcome
      rw [hfinish]
    rw [if_pos hfields, countEnd_eq_ok.mpr hfields]
    refine ⟨c', ?_, hclosed⟩
    exact (bind_apply_ok hfirst).trans (bind_apply_ok (ends_of_counted n hclosed hcounted))
  · have hfirst : outcome finish c =
        .ok (.error (.countOverflow .fields (count32 s.fields.length)))
          { c with fields := none } :=
      outcome_of_error (finish_error h hfields)
    have hclosed : ({ c with fields := none } : ClassDraft).ClosedWith s 0 := by
      refine ⟨h.version, h.pool, h.written .body, h.written .methods, h.written .attributes,
        h.methodCount, h.attributeCount⟩
    have hcount : countEnd .fields (count32 s.fields.length) =
        .error (.countOverflow .fields (count32 s.fields.length)) := if_neg hfields
    rw [if_neg hfields, hcount]
    refine ⟨{ c with fields := none }, ?_, hclosed⟩
    exact (bind_apply_ok hfirst).trans (bind_apply_ok (ends_of_counted n hclosed rfl))

end ClassM

/-! ## Runs -/

namespace ClassStep

variable {c : ClassDraft} {s : ClassSyntax}

def bareField (flags : AccessFlags) (name descriptor : UInt16) : ClassStep :=
  member .field ⟨flags, .indexes name descriptor, .done⟩

theorem bareField_eq_ok (flags : AccessFlags) (name descriptor : UInt16) (h : c.Holds s) :
    ∃ c' s', (bareField flags name descriptor).run c = .ok [.ok ()] c' ∧ c'.pool = c.pool ∧
      c'.Holds s' := by
  obtain ⟨list, d, hstart, hlist, hpool⟩ := ClassM.startKind_eq_ok .field h flags name descriptor
  obtain ⟨d', hfinish, hbytes, hpool'⟩ :=
    ClassM.finishMember_eq_ok (c.countMember .field) MemberKind.field.place hlist (by decide)
  have hextend : AttributeForest.done.extend list d = .ok ([], list) d := rfl
  have hvisit := MemberVisit.visit_apply_ok hstart hextend (outcome_of_ok hfinish)
  exact ⟨_, _, hvisit, hpool'.trans hpool,
    h.addMember .field ⟨flags, name, descriptor, []⟩ hbytes (hpool'.trans hpool ▸ h.pool)⟩

theorem bareFields_eq_ok (k : Nat) (flags : AccessFlags) (name descriptor : UInt16)
    (h : c.Holds s) : ∃ c',
    runAll (List.replicate k (bareField flags name descriptor)) c =
      .ok (List.replicate k (.ok ())) c' ∧ c'.pool = c.pool := by
  induction k generalizing c s with
  | zero => exact ⟨c, rfl, rfl⟩
  | succ k ih =>
    obtain ⟨c₁, s₁, hfield, hpool₁, h₁⟩ := bareField_eq_ok flags name descriptor h
    obtain ⟨c₂, hfields, hpool₂⟩ := ih h₁
    exact ⟨c₂, (bind_apply_ok hfield).trans (bind_apply_ok hfields), hpool₂.trans hpool₁⟩

theorem length_bareFields (k : Nat) (flags : AccessFlags) (name descriptor : UInt16)
    (kind : MemberKind) :
    ((List.replicate k (bareField flags name descriptor)).filterMap (member? kind)).length =
      if kind = .field then k else 0 := by
  cases kind <;> simp [bareField]

theorem attributes_bareFields (k : Nat) (flags : AccessFlags) (name descriptor : UInt16) :
    (List.replicate k (bareField flags name descriptor)).filterMap attributes? = [] := by
  simp [bareField, List.filterMap_replicate]

end ClassStep

namespace ClassScript

variable {script : ClassScript} {s : ClassSyntax}

/-- The class is accepted or not by the numbers of what was visited, and written out with them. -/
structure CountedIn (script : ClassScript) (s : ClassSyntax) : Prop where
  countable : s.Countable ↔ 1 + slotCount s.constants < 65536 ∧
    (script.members .method).length < 65536 ∧ script.classAttributes.length < 65536
  fields : s.endedFieldCount.toNat =
    if (script.members .field).length < 65536 then (script.members .field).length else 0
  methods : s.Countable → (UInt16.ofNat s.methods.length).toNat = (script.members .method).length
  attributes : s.Countable →
    (UInt16.ofNat s.attributes.length).toNat = script.classAttributes.length

theorem Shows.countedIn (h : script.Shows s)
    (hmembers : ∀ kind, (script.members kind).length < 2 ^ 32)
    (hattributes : script.classAttributes.length < 2 ^ 32) : script.CountedIn s := by
  have hfieldCount : s.fields.length = (script.members .field).length := h.length_members .field
  have hmethodCount : s.methods.length = (script.members .method).length :=
    h.length_members .method
  have hcountable : s.Countable ↔ 1 + slotCount s.constants < 65536 ∧
      (script.members .method).length < 65536 ∧ script.classAttributes.length < 65536 := by
    constructor
    · rintro ⟨hroom, hmethods, hlast⟩
      rw [hmethodCount, count32_of_lt (hmembers .method)] at hmethods
      rw [h.attributes, count32_of_lt hattributes] at hlast
      exact ⟨hroom, hmethods, hlast⟩
    · rintro ⟨hroom, hmethods, hlast⟩
      exact ⟨hroom, count32_lt (hmethodCount ▸ hmethods), count32_lt (h.attributes ▸ hlast)⟩
  refine ⟨hcountable, ?_, fun hs => ?_, fun hs => ?_⟩
  · unfold ClassSyntax.endedFieldCount
    rw [hfieldCount, count32_of_lt (hmembers .field)]
    split
    case isTrue hfits => exact UInt16.toNat_ofNat_of_lt' hfits
    case isFalse => rfl
  · rw [hmethodCount]
    exact UInt16.toNat_ofNat_of_lt' (hcountable.mp hs).2.1
  · rw [h.attributes]
    exact UInt16.toNat_ofNat_of_lt' (hcountable.mp hs).2.2

/-- Whatever its ends have answered, the class is refused if its pool, its methods or its attributes
cannot be counted, and otherwise it is written out. As long as no counter has started again, the
numbers of methods and attributes are those of the visits. But the number of fields is a zero if it
does not fit, for only the first end complains. -/
theorem finished_counts (script : ClassScript) (options : DraftOptions) (n : Nat) (c : ClassDraft)
    (answers : List (Except Error Unit))
    (hbuild : script.build (.withOptions options) = .ok answers c)
    (hwell : ∀ answer ∈ answers, answer = .ok ()) :
    ∃ s c', script.Shows s ∧ c.pool.Represents s.constants ∧
      ClassM.ends (n + 1) c = .ok (s.endAnswers (n + 1)) c' ∧
      (s.Countable → s.check = .ok () ∧
        let out := s.counted.encodeWith s.endedFieldCount
        c'.toBytes = .ok out.toArray ∧
        ∃ pieces : List Bytes, pieces.flatMap Array.toList = out ∧
          ∀ (σ : Type) (write : Bytes → EStateM Error σ Unit),
            c'.writeTo write = pieces.forM write) ∧
      (¬ s.Countable → ∃ e, s.check = .error e ∧ c'.toBytes = .error e ∧
        ∀ (σ : Type) (write : Bytes → EStateM Error σ Unit) (t : σ),
          c'.writeTo write t = .error e t) ∧
      ((∀ kind, (script.members kind).length < 2 ^ 32) →
        script.classAttributes.length < 2 ^ 32 → script.CountedIn s) := by
  obtain ⟨s, hholds, hshows⟩ := build_eq_ok (ClassDraft.fresh_withOptions options) hbuild hwell
  obtain ⟨c', hends, hclosed⟩ := ClassM.ends_eq_ok n hholds
  refine ⟨s, c', hshows, hholds.pool, hends, fun hs => ?_, fun hs => ?_, hshows.countedIn⟩
  · obtain ⟨pieces, hpieces, hout⟩ := hclosed.pieces_eq_ok hs
    exact ⟨ClassSyntax.check_eq_ok.mpr hs, hclosed.toBytes_eq_ok hs, pieces, hout,
      fun σ write => ClassDraft.writeTo_of_pieces hpieces write⟩
  · have hcheck := hclosed.check
    cases hpieces : c'.pieces with
    | ok pieces => exact absurd (hclosed.countable_of_pieces hpieces) hs
    | error e =>
      rw [hpieces] at hcheck
      exact ⟨e, hcheck.symm, ClassDraft.toBytes_of_error hpieces,
        fun σ write t => ClassDraft.writeTo_of_error hpieces write t⟩

/-- One field more than can be counted. -/
def tooManyFields : ClassScript where
  calls := []
  version := .v1_8
  flags := ⟨0x21⟩
  names := .indexes 1 0 []
  steps := List.replicate 65536 (.bareField ⟨1⟩ 2 3)

theorem length_tooManyFields (kind : MemberKind) :
    (tooManyFields.members kind).length = if kind = .field then 65536 else 0 :=
  ClassStep.length_bareFields 65536 ⟨1⟩ 2 3 kind

theorem classAttributes_tooManyFields : tooManyFields.classAttributes = [] :=
  congrArg (List.flatMap AttributeForest.attributes)
    (ClassStep.attributes_bareFields 65536 ⟨1⟩ 2 3)

theorem tooManyFields_start (h : tooManyFields.Shows s) (hconstants : s.constants = [])
    (huncounted : s.endedFieldCount = 0) :
    (s.counted.encodeWith s.endedFieldCount).take 20 =
      [0xCA, 0xFE, 0xBA, 0xBE, 0, 0, 0, 52, 0, 1, 0, 0x21, 0, 1, 0, 0, 0, 0, 0, 0] := by
  obtain ⟨hthis, hsuper, hinterfaces⟩ := h.names
  unfold ClassSyntax.encodeWith ClassSyntax.encodePreamble ClassSyntax.encodeHeader
    ClassSyntax.counted
  rw [huncounted, hconstants, h.version, h.flags, hthis, hsuper, hinterfaces]
  simp only [List.append_assoc]
  rfl

/-- The first end fails and the second one passes. Then the class is written out with a zero in
front of its fields. -/
theorem tooManyFields_counted_as_none : ∃ answers c c' out,
    tooManyFields.build (.withOptions {}) = .ok answers c ∧
      (∀ answer ∈ answers, answer = .ok ()) ∧
      ClassM.ends 2 c = .ok [.error (.countOverflow .fields 65536), .ok ()] c' ∧
      c'.toBytes = .ok out ∧ out.toList.take 20 =
        [0xCA, 0xFE, 0xBA, 0xBE, 0, 0, 0, 52, 0, 1, 0, 0x21, 0, 1, 0, 0, 0, 0, 0, 0] := by
  obtain ⟨c₁, hheader, hholds⟩ := ClassM.header_eq_ok (ClassDraft.fresh_withOptions {})
    tooManyFields.version tooManyFields.flags 1 0 [] (by decide)
  obtain ⟨c, hfields, hpool⟩ := ClassStep.bareFields_eq_ok 65536 ⟨1⟩ 2 3 hholds
  have hbuild : tooManyFields.build (.withOptions {}) = .ok (List.replicate 65536 (.ok ())) c :=
    (bind_apply_ok rfl).trans ((bind_apply_ok hheader).trans hfields)
  have hwell : ∀ answer ∈ List.replicate 65536 (Except.ok () : Except Error Unit),
      answer = .ok () := fun _ h => List.eq_of_mem_replicate h
  obtain ⟨s, c', hshows, hs, hends, hwritten, -, hexact⟩ := finished_counts _ _ 1 c _ hbuild hwell
  -- no visit has interned anything
  have hconstants : s.constants = [] := by
    have hslots := hs.count
    rw [hpool, hholds.pool.count, slotCount_nil] at hslots
    have hzero : slotCount s.constants = 0 := by omega
    exact fill_zero.mp (hzero ▸ fill_slotCount s.constants)
  -- nor has a counter started again
  have hcounted : tooManyFields.CountedIn s := by
    apply hexact
    · intro kind
      rw [length_tooManyFields]
      cases kind <;> decide
    · rw [classAttributes_tooManyFields]
      decide
  have hcountable : s.Countable := by
    refine hcounted.countable.mpr ⟨?_, ?_, ?_⟩
    · simp [hconstants]
    · rw [length_tooManyFields]
      decide
    · rw [classAttributes_tooManyFields]
      decide
  have huncounted : s.endedFieldCount = 0 := by
    apply UInt16.toNat_inj.mp
    rw [hcounted.fields, length_tooManyFields]
    rfl
  obtain ⟨hcheck, hbytes, -⟩ := hwritten hcountable
  refine ⟨_, c, c', _, hbuild, hwell, ?_, hbytes,
    tooManyFields_start hshows hconstants huncounted⟩
  have hcount : s.fields.length = 65536 :=
    (hshows.length_members .field).trans (length_tooManyFields .field)
  rw [hends, ClassSyntax.endAnswers, hcheck, hcount]
  rfl

end ClassScript
end JavaClass
