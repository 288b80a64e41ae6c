import JavaClass.Proofs.Agreement

/-!
# Calls that fail

A call for one constant fails for two reasons only, and then it has done nothing that a later call
could tell. A call made of several keeps what its first parts have interned, and nothing else.
-/

namespace JavaClass

/-! ## What steps append -/

namespace Constant

variable {own : List Constant → Constant → Prop} {cs ds es : List Constant} {c : Constant}
  {index : UInt16} {e : Error} {name descriptor owner value : String}

/-- The index is that of a constant of the list with the property. -/
def PointsTo (cs : List Constant) (index : UInt16) (kind : Constant → Prop) : Prop :=
  ∃ c ∈ cs, kind c ∧ index = UInt16.ofNat (indexOf c cs)

theorem PointsTo.mono {kind : Constant → Prop} (h : PointsTo cs index kind) (hds : cs <+: ds) :
    PointsTo ds index kind := by
  obtain ⟨c, hmem, hc, rfl⟩ := h
  obtain ⟨more, rfl⟩ := hds
  exact ⟨c, List.mem_append_left more hmem, hc, by rw [indexOf_append hmem]⟩

def IsText (value : String) (c : Constant) : Prop :=
  c.tag = .utf8 ∧ c.payload = (ModifiedUtf8.encode value).toList

def IsClass (cs : List Constant) (name : String) (c : Constant) : Prop :=
  ∃ index, PointsTo cs index (IsText name) ∧
    c = ofPayload .classInfo (.reference index) (Payload.suits_reference rfl index)

def IsNameAndType (cs : List Constant) (name descriptor : String) (c : Constant) : Prop :=
  ∃ first second, PointsTo cs first (IsText name) ∧ PointsTo cs second (IsText descriptor) ∧
    c = ofPayload .nameAndType (.references first second) (Payload.suits_nameAndType first second)

theorem IsClass.mono (h : IsClass cs name c) (hds : cs <+: ds) : IsClass ds name c := by
  obtain ⟨index, hname, hc⟩ := h
  exact ⟨index, hname.mono hds, hc⟩

theorem IsNameAndType.mono (h : IsNameAndType cs name descriptor c) (hds : cs <+: ds) :
    IsNameAndType ds name descriptor c := by
  obtain ⟨first, second, hname, hdescriptor, hc⟩ := h
  exact ⟨first, second, hname.mono hds, hdescriptor.mono hds, hc⟩

/-- The second list has more constants behind, which are all of a certain kind there. -/
def Gains (own : List Constant → Constant → Prop) (cs ds : List Constant) : Prop :=
  ∃ gained, ds = cs ++ gained ∧ ∀ c ∈ gained, own ds c

theorem Gains.refl (cs : List Constant) : Gains own cs cs := ⟨[], by simp, by simp⟩

theorem Gains.grows (h : Gains own cs ds) : cs <+: ds := by
  obtain ⟨gained, rfl, -⟩ := h
  exact List.prefix_append cs gained

theorem Gains.imp {own' : List Constant → Constant → Prop} (h : Gains own cs ds)
    (himp : ∀ c, own ds c → own' ds c) : Gains own' cs ds := by
  obtain ⟨gained, hds, hgained⟩ := h
  exact ⟨gained, hds, fun c hc => himp c (hgained c hc)⟩

theorem Gains.trans (h : Gains own cs ds) (h' : Gains own ds es)
    (hlasts : ∀ c, own ds c → own es c) : Gains own cs es := by
  obtain ⟨first, rfl, hfirst⟩ := h
  obtain ⟨second, rfl, hsecond⟩ := h'
  refine ⟨first ++ second, List.append_assoc _ _ _, fun c hc => ?_⟩
  rcases List.mem_append.mp hc with hc | hc
  · exact hlasts c (hfirst c hc)
  · exact hsecond c hc

theorem internText_error {text : Bytes} (h : internText text cs = .error e ds) : ds = cs := by
  unfold internText at h
  split at h
  · exact (intern_eq_error.mp h).2.2.2
  · exact (EStateM.Result.error.inj h).2.symm

theorem gains_intern (h : intern c cs = .ok index ds) (hc : own ds c) : Gains own cs ds := by
  unfold intern at h
  split at h
  · rw [← (EStateM.Result.ok.inj h).2]
    exact .refl cs
  · split at h
    · obtain ⟨-, rfl⟩ := EStateM.Result.ok.inj h
      exact ⟨[c], rfl, by simpa using hc⟩
    · cases h

theorem gains_internText (h : internText (ModifiedUtf8.encode value) cs = .ok index ds) :
    Gains (fun _ => IsText value) cs ds ∧ PointsTo ds index (IsText value) := by
  obtain ⟨short, hintern⟩ := internText_eq_ok h
  obtain ⟨-, hmem, hindex⟩ := intern_eq_ok hintern
  exact ⟨gains_intern hintern ⟨rfl, rfl⟩, _, hmem, ⟨rfl, rfl⟩, hindex⟩

theorem gains_textReference_error (tag : Tag) (suits : tag.payloadLength? = some 2)
    (h : internTextReference tag suits value cs = .error e ds) :
    Gains (fun _ => IsText value) cs ds := by
  rcases bind_eq_error.mp h with h | ⟨index, es, htext, h⟩
  · rw [internText_error h]
    exact .refl cs
  · rw [(intern_eq_error.mp h).2.2.2]
    exact (gains_internText htext).1

theorem gains_class (h : internTextReference .classInfo rfl name cs = .ok index ds) :
    Gains (fun ds c => IsText name c ∨ IsClass ds name c) cs ds := by
  obtain ⟨i, es, htext, hclass⟩ := bind_eq_ok.mp h
  obtain ⟨hgains, hname⟩ := gains_internText htext
  have hlast := (intern_eq_ok hclass).1
  refine (hgains.imp fun c hc => ?_).trans
    (gains_intern hclass (.inr ⟨i, hname.mono hlast, rfl⟩)) ?_
  · exact .inl hc
  · rintro c (hc | hc)
    · exact .inl hc
    · exact .inr (hc.mono hlast)

theorem gains_texts (h : internText (ModifiedUtf8.encode name) cs = .ok index ds)
    (h' : Gains (fun _ => IsText descriptor) ds es) :
    Gains (fun _ c => IsText name c ∨ IsText descriptor c) cs es :=
  ((gains_internText h).1.imp fun _ => .inl).trans (h'.imp fun _ => .inr) fun _ hc => hc

theorem gains_nameAndType_error (h : internNameAndType name descriptor cs = .error e ds) :
    Gains (fun _ c => IsText name c ∨ IsText descriptor c) cs ds := by
  rcases bind_eq_error.mp h with h | ⟨first, es, hname, h⟩
  · rw [internText_error h]
    exact .refl cs
  apply gains_texts hname
  rcases bind_eq_error.mp h with h | ⟨second, fs, hdescriptor, h⟩
  · rw [internText_error h]
    exact .refl es
  · rw [(intern_eq_error.mp h).2.2.2]
    exact (gains_internText hdescriptor).1

theorem gains_nameAndType (h : internNameAndType name descriptor cs = .ok index ds) :
    Gains (fun ds c => IsText name c ∨ IsText descriptor c ∨ IsNameAndType ds name descriptor c)
      cs ds := by
  obtain ⟨first, es, hname, h⟩ := bind_eq_ok.mp h
  obtain ⟨second, fs, hdescriptor, h⟩ := bind_eq_ok.mp h
  obtain ⟨hgains, hsecond⟩ := gains_internText hdescriptor
  have hfirst := (gains_internText hname).2
  have hlast := (intern_eq_ok h).1
  refine ((gains_texts hname hgains).imp fun c hc => ?_).trans (gains_intern h (.inr (.inr ?_))) ?_
  · exact hc.imp id .inl
  · exact ⟨first, second, hfirst.mono (hgains.grows.trans hlast), hsecond.mono hlast, rfl⟩
  · rintro c (hc | hc | hc)
    · exact .inl hc
    · exact .inr (.inl hc)
    · exact .inr (.inr (hc.mono hlast))

/-- The constant is one that a reference to a member needs before it. -/
def IsMemberPart (owner name descriptor : String) (cs : List Constant) (c : Constant) : Prop :=
  IsText owner c ∨ IsClass cs owner c ∨ IsText name c ∨ IsText descriptor c ∨
    IsNameAndType cs name descriptor c

theorem IsMemberPart.mono (h : IsMemberPart owner name descriptor cs c) (hds : cs <+: ds) :
    IsMemberPart owner name descriptor ds c := by
  rcases h with h | h | h | h | h
  · exact .inl h
  · exact .inr (.inl (h.mono hds))
  · exact .inr (.inr (.inl h))
  · exact .inr (.inr (.inr (.inl h)))
  · exact .inr (.inr (.inr (.inr (h.mono hds))))

theorem gains_memberRef_error (tag : Tag) (suits : tag.payloadLength? = some 4)
    (h : internMemberRef tag suits owner name descriptor cs = .error e ds) :
    Gains (IsMemberPart owner name descriptor) cs ds := by
  rcases bind_eq_error.mp h with h | ⟨classIndex, es, hclass, h⟩
  · exact (gains_textReference_error _ rfl h).imp fun c hc => .inl hc
  have howner : Gains (IsMemberPart owner name descriptor) cs es := by
    apply (gains_class hclass).imp
    rintro c (hc | hc)
    · exact .inl hc
    · exact .inr (.inl hc)
  have hmember : Gains (IsMemberPart owner name descriptor) es ds := by
    rcases bind_eq_error.mp h with h | ⟨memberIndex, fs, hmember, h⟩
    · apply (gains_nameAndType_error h).imp
      rintro c (hc | hc)
      · exact .inr (.inr (.inl hc))
      · exact .inr (.inr (.inr (.inl hc)))
    · rw [(intern_eq_error.mp h).2.2.2]
      exact (gains_nameAndType hmember).imp fun c hc => .inr (.inr hc)
  exact howner.trans hmember fun c hc => hc.mono hmember.grows

end Constant

/-! ## Calls -/

namespace PoolCall

open Constant

variable {call : PoolCall} {p p' q : ConstantPool} {cs ds : List Constant} {c : Constant} {e : Error}

/-- The call asks for one constant. -/
def IsSingle : PoolCall → Prop
  | text _ | encodedText _ | word .. | wide .. | reference .. | references .. | handle .. | int _
  | float _ | long _ | double _ | attributeName _ => True
  | classInfo _ | string _ | methodType _ | nameAndType .. | memberRef .. | fieldRef ..
  | methodRef .. | interfaceMethodRef .. => False

def encodedText? : PoolCall → Option Bytes
  | text value => some (ModifiedUtf8.encode value)
  | encodedText bytes => some bytes
  | attributeName name => some (ModifiedUtf8.encode name.text)
  | _ => none

/-- The constant is one that the call needs before the one that it asks for. -/
def NeedsFirst : PoolCall → List Constant → Constant → Prop
  | classInfo value, _, c | string value, _, c | methodType value, _, c => IsText value c
  | nameAndType name descriptor, _, c => IsText name c ∨ IsText descriptor c
  | memberRef _ _ owner name descriptor, cs, c | fieldRef owner name descriptor, cs, c
  | methodRef owner name descriptor, cs, c | interfaceMethodRef owner name descriptor, cs, c =>
    IsMemberPart owner name descriptor cs c
  | _, _, _ => False

theorem gains_of_error (h : call.spec cs = .error e ds) : Gains call.NeedsFirst cs ds := by
  cases call with
  | text | encodedText | attributeName =>
    rw [internText_error h]
    exact .refl cs
  | word | wide | reference | references | handle | int | float | long | double =>
    rw [(intern_eq_error.mp h).2.2.2]
    exact .refl cs
  | classInfo | string | methodType => exact gains_textReference_error _ rfl h
  | nameAndType => exact gains_nameAndType_error h
  | memberRef tag suits => exact gains_memberRef_error tag suits h
  | fieldRef | methodRef | interfaceMethodRef => exact gains_memberRef_error _ rfl h

theorem target_or_long (h : call.IsSingle) :
    (∃ c, call.target? = some c ∧ ∀ text, call.encodedText? = some text → text.size < 65536) ∨
    ∃ text, call.encodedText? = some text ∧ 65536 ≤ text.size ∧ call.target? = none ∧
      call.spec = internText text := by
  -- texts may be too long, all other constants fit by their types
  have htext (text : Bytes) (htarget : call.target? = ofText? text)
      (hencoded : call.encodedText? = some text) (hspec : call.spec = internText text) :
      (∃ c, call.target? = some c ∧ ∀ text, call.encodedText? = some text → text.size < 65536) ∨
      ∃ text, call.encodedText? = some text ∧ 65536 ≤ text.size ∧ call.target? = none ∧
        call.spec = internText text := by
    unfold ofText? at htarget
    by_cases short : text.size < 65536
    · rw [dif_pos short] at htarget
      refine .inl ⟨_, htarget, fun other hother => ?_⟩
      rw [hencoded] at hother
      exact Option.some.inj hother ▸ short
    · rw [dif_neg short] at htarget
      exact .inr ⟨text, hencoded, by omega, htarget, hspec⟩
  cases call with
  | text | encodedText | attributeName => exact htext _ rfl rfl rfl
  | word | wide | reference | references | handle | int | float | long | double =>
    exact .inl ⟨_, rfl, by simp [encodedText?]⟩
  | classInfo | string | methodType | nameAndType | memberRef | fieldRef | methodRef
  | interfaceMethodRef => exact h.elim

theorem spec_eq_error (h : call.IsSingle) : call.spec cs = .error e ds ↔ ds = cs ∧
    ((∃ text, call.encodedText? = some text ∧ 65536 ≤ text.size ∧
        e = .textTooLong (ModifiedUtf8.excerpt (ModifiedUtf8.decode text)) text.size) ∨
      ∃ c, call.target? = some c ∧ c ∉ cs ∧ 65536 ≤ 1 + slotCount cs ∧
        e = .poolOverflow (1 + slotCount cs + 1)) := by
  rcases target_or_long h with ⟨c, htarget, hshort⟩ | ⟨text, hencoded, hlong, htarget, hspec⟩
  · rw [spec_of_target htarget, intern_eq_error, htarget]
    constructor
    · rintro ⟨hmissing, hfull, he, hds⟩
      exact ⟨hds, .inr ⟨c, rfl, hmissing, hfull, he⟩⟩
    · rintro ⟨hds, ⟨text, hencoded, hlong, -⟩ | ⟨_, ⟨⟩, hmissing, hfull, he⟩⟩
      · have hsize := hshort text hencoded
        omega
      · exact ⟨hmissing, hfull, he, hds⟩
  · rw [hspec, htarget, hencoded]
    unfold internText
    rw [dif_neg (by omega)]
    show EStateM.Result.error _ _ = _ ↔ _
    rw [EStateM.Result.error.injEq]
    constructor
    · rintro ⟨rfl, rfl⟩
      exact ⟨rfl, .inl ⟨text, rfl, hlong, rfl⟩⟩
    · rintro ⟨rfl, ⟨_, ⟨⟩, -, rfl⟩ | ⟨_, ⟨⟩, -⟩⟩
      exact ⟨rfl, rfl⟩

theorem run_eq_error (call : PoolCall) (h : p.Represents cs) (hrun : call.run p = .error e p') :
    ∃ ds, call.spec cs = .error e ds ∧ p'.Represents ds := by
  rcases call.refines p cs h with ⟨a, q, ds, hp, hcs, h'⟩ | ⟨e', q, ds, hp, hcs, h'⟩
  · rw [hrun] at hp
    cases hp
  · rw [hrun] at hp
    obtain ⟨rfl, rfl⟩ := EStateM.Result.error.inj hp
    exact ⟨ds, hcs, h'⟩

theorem run_error_iff (call : PoolCall) (h : p.Represents cs) :
    (∃ p', call.run p = .error e p') ↔ ∃ ds, call.spec cs = .error e ds := by
  constructor
  · rintro ⟨p', hrun⟩
    obtain ⟨ds, hspec, -⟩ := call.run_eq_error h hrun
    exact ⟨ds, hspec⟩
  · rintro ⟨ds, hspec⟩
    rcases call.refines p cs h with ⟨_, _, _, _, hcs, _⟩ | ⟨_, q, _, hp, hcs, _⟩
    · rw [hspec] at hcs
      cases hcs
    · rw [hspec] at hcs
      cases hcs
      exact ⟨q, hp⟩

theorem run_of_mem (h : p.Represents cs) (htarget : call.target? = some c) (hmem : c ∈ cs) :
    ∃ index p', call.run p = .ok index p' ∧ (∃ start, at? 0 cs index.toNat = some (start, c)) ∧
      p'.Same p := by
  have hspec := spec_of_target htarget
  rcases call.refines p cs h with ⟨index, p', ds, hp, hcs, h'⟩ | ⟨e, _, _, _, hcs, _⟩
  · rcases run_target h htarget hp with ⟨-, hat, hsame⟩ | ⟨hmissing, -⟩
    · exact ⟨index, p', hp, hat, hsame.same h⟩
    · exact absurd hmem hmissing
  · rw [hspec, intern_of_mem hmem] at hcs
    cases hcs

/-! ## Answers -/

def answer (call : PoolCall) (p : ConstantPool) : Except Error UInt16 :=
  match call.run p with
  | .ok index _ => .ok index
  | .error e _ => .error e

def answersFrom : List PoolCall → ConstantPool → List (Except Error UInt16)
  | [], _ => []
  | call :: calls, p => call.answer p :: answersFrom calls (call.after p)

theorem answer_eq_ok {index : UInt16} :
    call.answer p = .ok index ↔ ∃ p', call.run p = .ok index p' := by
  unfold answer
  cases call.run p <;> simp

theorem answer_eq_error : call.answer p = .error e ↔ ∃ p', call.run p = .error e p' := by
  unfold answer
  cases call.run p <;> simp

theorem answer_congr {other : PoolCall} (hspec : call.spec = other.spec) (hp : p.Represents cs)
    (hq : q.Represents cs) : call.answer p = other.answer q := by
  rcases call.refines p cs hp with ⟨a, p', ds, hrun, hcs, -⟩ | ⟨e, p', ds, hrun, hcs, -⟩
  · have hother := other.refines q cs hq
    rw [← hspec, hcs] at hother
    rcases hother with ⟨_, q', _, hrun', ⟨⟩, -⟩ | ⟨_, _, _, _, ⟨⟩, -⟩
    rw [answer_eq_ok.mpr ⟨p', hrun⟩, answer_eq_ok.mpr ⟨q', hrun'⟩]
  · have hother := other.refines q cs hq
    rw [← hspec, hcs] at hother
    rcases hother with ⟨_, _, _, _, ⟨⟩, -⟩ | ⟨_, q', _, hrun', ⟨⟩, -⟩
    rw [answer_eq_error.mpr ⟨p', hrun⟩, answer_eq_error.mpr ⟨q', hrun'⟩]

theorem answersFrom_congr_spec {calls others : List PoolCall}
    (hspecs : calls.map spec = others.map spec) (hp : p.Represents cs) (hq : q.Represents cs) :
    answersFrom calls p = answersFrom others q ∧ (runAll calls p).Same (runAll others q) := by
  induction calls generalizing p q cs others with
  | nil =>
    obtain rfl := List.map_eq_nil_iff.mp hspecs.symm
    exact ⟨rfl, hp.same hq⟩
  | cons call calls ih =>
    obtain ⟨other, others, rfl, hother, hothers⟩ := List.map_eq_cons_iff.mp hspecs.symm
    have hq' := other.after_represents_left hq
    rw [hother] at hq'
    obtain ⟨hrest, hsame⟩ := ih hothers.symm (call.after_represents_left hp) hq'
    refine ⟨?_, hsame⟩
    rw [answersFrom, answersFrom, answer_congr hother.symm hp hq, hrest]

theorem answersFrom_congr (calls : List PoolCall) (hp : p.Represents cs) (hq : q.Represents cs) :
    answersFrom calls p = answersFrom calls q ∧ (runAll calls p).Same (runAll calls q) :=
  answersFrom_congr_spec rfl hp hq

/-- In any pool that calls have made, a call for one constant fails exactly if its text is too long
or its constant is missing and all indexes are taken. The pool is then as it was, for all that later
calls can tell. A call that interns several constants may fail between them: it leaves the pool with
some of those that it needs first, behind all the others. -/
theorem failed_calls_keep_pool (capacity : Nat) (growth : Growth) (calls : List PoolCall) :
    ∃ cs : List Constant,
      let p := runAll calls (ConstantPool.withPolicy capacity growth)
      p.Represents cs ∧
      (∀ (call : PoolCall) (e : Error), call.IsSingle → ((∃ p', call.run p = .error e p') ↔
        (∃ text, call.encodedText? = some text ∧ 65536 ≤ text.size ∧
          e = .textTooLong (ModifiedUtf8.excerpt (ModifiedUtf8.decode text)) text.size) ∨
        ∃ c, call.target? = some c ∧ c ∉ cs ∧ 65536 ≤ p.count ∧ e = .poolOverflow (p.count + 1))) ∧
      (∀ (call : PoolCall) (c : Constant), call.target? = some c → c ∈ cs → ∃ index p',
        call.run p = .ok index p' ∧ (∃ start, at? 0 cs index.toNat = some (start, c)) ∧
          p'.Same p) ∧
      (∀ (call : PoolCall) (e : Error) (p' : ConstantPool), call.IsSingle →
        call.run p = .error e p' → p'.Same p ∧ p'.count = p.count ∧ p'.table = p.table ∧
          ∀ later, answersFrom later p' = answersFrom later p ∧
            (runAll later p').Same (runAll later p)) ∧
      (∀ (call : PoolCall) (e : Error) (p' : ConstantPool), call.run p = .error e p' →
        ∃ gained, p'.Represents (cs ++ gained) ∧
          (∀ c ∈ gained, call.NeedsFirst (cs ++ gained) c) ∧ p.Extends p') := by
  obtain ⟨cs, -, h⟩ := runAll_represents calls (.withPolicy capacity growth)
  refine ⟨cs, h, fun call e hsingle => ?_, fun call c => run_of_mem h, ?_, ?_⟩
  · rw [call.run_error_iff h, h.count]
    simp [spec_eq_error hsingle]
  · intro call e p' hsingle hrun
    obtain ⟨ds, hspec, h'⟩ := call.run_eq_error h hrun
    obtain ⟨rfl, -⟩ := (spec_eq_error hsingle).mp hspec
    have hsame := h'.same h
    have hdata := Array.toList_inj.mp hsame.1
    refine ⟨hsame, by rw [h'.count, h.count], ?_, fun later => answersFrom_congr later h' h⟩
    rw [ConstantPool.table, hdata, hsame.2.1, ConstantPool.table]
  · intro call e p' hrun
    obtain ⟨ds, hspec, h'⟩ := call.run_eq_error h hrun
    obtain ⟨gained, rfl, hgained⟩ := gains_of_error hspec
    exact ⟨gained, h', hgained, h.extends_of_prefix h' (List.prefix_append cs gained)⟩

end PoolCall
end JavaClass
