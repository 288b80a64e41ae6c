import JavaClass.Proofs.ClassScripts
import JavaClass.Proofs.FirstMatches

/-!
# Visits that are refused

A visit interns the names in its arguments before it writes anything, and from then on nothing can
fail. So a refused visit has done no more than calls on the pool, in whatever state the class is. A
run that passes over refused members builds the class of the others. Serializing checks every count
in front of the first byte.
-/

namespace JavaClass

open Constant

/-! ## Entries that stay -/

theorem Bytes.HasAt.of_prefix {bytes bytes' : Bytes} {offset : Nat} {part : List UInt8}
    (h : bytes.HasAt offset part) (hfront : bytes.toList <+: bytes'.toList) :
    bytes'.HasAt offset part := by
  obtain ⟨before, after, hbytes, hlength⟩ := hasAt_iff_append.mp h
  obtain ⟨more, hmore⟩ := hfront
  refine hasAt_iff_append.mpr ⟨before, after ++ more, ?_, hlength⟩
  rw [← hmore, hbytes, List.append_assoc]

namespace ConstantPool.Extends

variable {p q r : ConstantPool} {tag : Tag} {payload : List UInt8} {index : UInt16} {start : Nat}

theorem refl (p : ConstantPool) : p.Extends p :=
  ⟨List.prefix_rfl, List.prefix_rfl, fun _ _ h => h⟩

theorem trans (hq : p.Extends q) (hr : q.Extends r) : p.Extends r where
  entries := hq.entries.trans hr.entries
  starts := hq.starts.trans hr.starts
  texts text index h := hr.texts text index (hq.texts text index h)

theorem start? (h : p.Extends q) (hstart : p.table.start? index = some start) :
    q.table.start? index = some start := by
  have hold : p.starts[index.toNat]? = some (some start) := Option.join_eq_some_iff.mp hstart
  obtain ⟨more, hmore⟩ := h.starts
  show q.starts[index.toNat]?.join = some start
  rw [← Array.getElem?_toList] at hold ⊢
  obtain ⟨hlt, -⟩ := List.getElem?_eq_some_iff.mp hold
  rw [← hmore, List.getElem?_append_left hlt, hold]
  rfl

theorem hasAt (h : p.Extends q) {part : List UInt8} (hat : p.table.bytes.HasAt start part) :
    q.table.bytes.HasAt start part :=
  hat.of_prefix h.entries

theorem payloadOffset (h : p.Extends q) (hoffset : p.table.payloadOffset index = .ok start) :
    q.table.payloadOffset index = .ok start := by
  unfold ConstantTable.payloadOffset at hoffset ⊢
  cases hstart : p.table.start? index with
  | none => simp [hstart] at hoffset
  | some first =>
    rw [hstart] at hoffset
    rw [h.start? hstart]
    exact hoffset

theorem textAt (h : p.Extends q) {text : Bytes} (htext : p.table.textAt start = .ok text) :
    q.table.textAt start = .ok text := by
  obtain ⟨length, hlength, hslice⟩ := except_bind_eq_ok.mp htext
  obtain ⟨hstop, hat⟩ := Bytes.slice_eq_ok.mp hslice
  unfold ConstantTable.textAt
  rw [Bytes.get16_eq_ok.mpr (h.hasAt (Bytes.get16_eq_ok.mp hlength)), except_ok_bind]
  exact Bytes.slice_eq_ok.mpr ⟨hstop, h.hasAt hat⟩

theorem textBytes (h : p.Extends q) {text : Bytes} (htext : p.table.textBytes index = .ok text) :
    q.table.textBytes index = .ok text := by
  obtain ⟨offset, hoffset, hat⟩ := except_bind_eq_ok.mp htext
  unfold ConstantTable.textBytes
  rw [h.payloadOffset hoffset, except_ok_bind, h.textAt hat]

theorem payloadBytes (h : p.Extends q) (hpayload : p.table.payloadBytes tag index = .ok payload) :
    q.table.payloadBytes tag index = .ok payload := by
  unfold ConstantTable.payloadBytes at hpayload ⊢
  split at hpayload
  · obtain ⟨offset, hoffset, hwindow⟩ := except_bind_eq_ok.mp hpayload
    obtain ⟨hlength, hat⟩ := Bytes.window_eq_ok.mp hwindow
    rw [h.payloadOffset hoffset, except_ok_bind]
    exact Bytes.window_eq_ok.mpr ⟨hlength, h.hasAt hat⟩
  · cases htext : p.table.textBytes index with
    | error e => simp [htext] at hpayload
    | ok text =>
      rw [htext] at hpayload
      rw [h.textBytes htext]
      exact hpayload

theorem tag? (h : p.Extends q) (htag : p.table.tag? index = some tag) :
    q.table.tag? index = some tag := by
  obtain ⟨start, hstart, hbyte⟩ := Option.bind_eq_some_iff.mp htag
  obtain ⟨b, hb, hof⟩ := Option.bind_eq_some_iff.mp hbyte
  have hb' := Bytes.hasAt_singleton.mp (h.hasAt (Bytes.hasAt_singleton.mpr hb))
  unfold ConstantTable.tag?
  rw [h.start? hstart, Option.bind_some, hb', Option.bind_some, hof]

theorem hasEntry (h : p.Extends q) (hentry : p.table.HasEntry tag payload index) :
    q.table.HasEntry tag payload index :=
  ⟨h.tag? hentry.1, h.payloadBytes hentry.2⟩

end ConstantPool.Extends

namespace PoolM

/-- The pool that the call leaves, whether it succeeds or not. -/
def left {α : Type} (call : PoolM α) (p : ConstantPool) : ConstantPool :=
  match call p with
  | .ok _ q | .error _ q => q

/-- Any pool has all that it had before when the call is over. -/
def Keeps {α : Type} (call : PoolM α) : Prop := ∀ p : ConstantPool, p.Extends (left call p)

section

variable {α β : Type} {p p' : ConstantPool} {text : Bytes}

theorem left_bind (R : ConstantPool → ConstantPool → Prop)
    (htrans : ∀ {p q r : ConstantPool}, R p q → R q r → R p r) {call : PoolM α}
    {next : α → PoolM β} (h : ∀ p, R p (left call p)) (hnext : ∀ a p, R p (left (next a) p))
    (p : ConstantPool) : R p (left (call >>= next) p) := by
  have hfirst := h p
  unfold left at hfirst ⊢
  cases hcall : call p with
  | ok a q =>
    rw [hcall] at hfirst
    rw [bind_apply_ok hcall]
    exact htrans hfirst (hnext a q)
  | error e q =>
    rw [hcall] at hfirst
    rw [bind_apply_error hcall]
    exact hfirst

theorem Keeps.bind {call : PoolM α} {next : α → PoolM β} (h : Keeps call)
    (hnext : ∀ a, Keeps (next a)) : Keeps (call >>= next) :=
  left_bind ConstantPool.Extends (fun hfirst hrest => hfirst.trans hrest) h hnext

end

end PoolM

theorem PoolCall.left_run (call : PoolCall) (p : ConstantPool) :
    PoolM.left call.run p = call.after p := by
  unfold PoolM.left after
  cases call.run p <;> rfl

/-! ## Steps that only intern -/

/-- The second class is the first one, but for a pool that has all its entries and maybe more. -/
structure ClassDraft.OnlyInterns (c c' : ClassDraft) : Prop where
  sections : c' = { c with pool := c'.pool }
  pool : c.pool.Extends c'.pool
  entries : ∀ tag payload index, c.pool.table.HasEntry tag payload index →
    c'.pool.table.HasEntry tag payload index
  represents : c.pool.GrowsTo c'.pool

namespace ClassDraft.OnlyInterns

variable {c c' c'' : ClassDraft}

theorem of_pool (c : ClassDraft) {p : ConstantPool} (h : c.pool.Extends p)
    (hgrows : c.pool.GrowsTo p) : c.OnlyInterns { c with pool := p } :=
  ⟨rfl, h, fun _ _ _ => h.hasEntry, hgrows⟩

theorem refl (c : ClassDraft) : c.OnlyInterns c := of_pool c (.refl _) (.refl _)

theorem trans (h : c.OnlyInterns c') (h' : c'.OnlyInterns c'') : c.OnlyInterns c'' where
  sections := by
    have hlast := h'.sections
    rw [h.sections] at hlast
    exact hlast
  pool := h.pool.trans h'.pool
  entries tag payload index hentry :=
    h'.entries tag payload index (h.entries tag payload index hentry)
  represents := h.represents.trans h'.represents

end ClassDraft.OnlyInterns

namespace ClassM

/-- Whether the step succeeds or not, it has only interned. -/
def Interns {α : Type} (x : ClassM α) : Prop :=
  ∀ c, (∀ a c', x c = .ok a c' → c.OnlyInterns c') ∧ ∀ e c', x c = .error e c' → c.OnlyInterns c'

/-- If the step fails, it has only interned. -/
def RefusesClean {α : Type} (x : ClassM α) : Prop :=
  ∀ c e c', x c = .error e c' → c.OnlyInterns c'

section

variable {α β : Type} {x : ClassM α} {f : α → ClassM β}

theorem Interns.refusesClean (h : Interns x) : RefusesClean x := fun c => (h c).2

theorem RefusesClean.after (hx : Interns x) (hf : ∀ a, RefusesClean (f a)) :
    RefusesClean (x >>= f) := by
  intro c e c' hrun
  rcases bind_eq_error.mp hrun with hfirst | ⟨a, c₁, hfirst, hrest⟩
  · exact (hx c).2 e c' hfirst
  · exact ((hx c).1 a c₁ hfirst).trans (hf a c₁ e c' hrest)

theorem Interns.bind (hx : Interns x) (hf : ∀ a, Interns (f a)) : Interns (x >>= f) := by
  intro c
  refine ⟨fun b c' hrun => ?_, RefusesClean.after hx (fun a => (hf a).refusesClean) c⟩
  obtain ⟨a, c₁, hfirst, hrest⟩ := bind_eq_ok.mp hrun
  exact ((hx c).1 a c₁ hfirst).trans ((hf a c₁).1 b c' hrest)

theorem state_of_onPool_ok (call : PoolCall) {c c' : ClassDraft} {index : UInt16}
    (h : onPool call.run c = .ok index c') : c' = { c with pool := call.after c.pool } := by
  obtain ⟨p, hcall, rfl⟩ := onPool_eq_ok.mp h
  unfold PoolCall.after
  rw [hcall]

theorem state_of_onPool_error (call : PoolCall) {c c' : ClassDraft} {e : Error}
    (h : onPool call.run c = .error e c') : c' = { c with pool := call.after c.pool } := by
  unfold PoolCall.after
  cases hcall : call.run c.pool with
  | ok index p =>
    rw [onPool_apply_ok hcall] at h
    cases h
  | error f p =>
    rw [onPool_apply_error hcall] at h
    exact (EStateM.Result.error.inj h).2.symm

end

/-! ## Steps that never fail -/

/-- The step succeeds in every state. -/
def Succeeds {ε σ α : Type} (x : EStateM ε σ α) : Prop := ∀ s, ∃ a t, x s = .ok a t

section

variable {ε σ α β : Type} {x : EStateM ε σ α} {f : α → EStateM ε σ β}

theorem Succeeds.bind (hx : Succeeds x) (hf : ∀ a, Succeeds (f a)) : Succeeds (x >>= f) := by
  intro s
  obtain ⟨a, t, hfirst⟩ := hx s
  obtain ⟨b, u, hrest⟩ := hf a t
  exact ⟨b, u, (bind_apply_ok hfirst).trans hrest⟩

theorem succeeds_modify (f : σ → σ) : Succeeds (modify f : EStateM ε σ PUnit) :=
  fun _ => ⟨_, _, rfl⟩

theorem succeeds_countSlot : Succeeds CountSlot.start := by
  intro d
  obtain ⟨d', hstart, -⟩ := CountSlot.leaves_start d
  exact ⟨_, d', hstart⟩

theorem Succeeds.within {step : DraftM α} (place : Section) (h : Succeeds step) :
    Succeeds (within place step) := by
  intro c
  obtain ⟨a, d, hstep⟩ := h (c.draft place)
  exact ⟨a, _, within_apply_ok hstep⟩

theorem Succeeds.refusesClean {x : ClassM α} (h : Succeeds x) : RefusesClean x := by
  intro c e c' hrun
  obtain ⟨a, c'', hok⟩ := h c
  rw [hok] at hrun
  cases hrun

end

/-! ## Headers and members -/

theorem succeeds_countField : Succeeds countField := by
  apply Succeeds.bind fun c => ⟨c, c, rfl⟩
  intro c
  cases c.fields with
  | some slot => exact Succeeds.bind (fun c => ⟨slot, c, rfl⟩) fun _ => succeeds_modify _
  | none => exact (succeeds_countSlot.within .body).bind fun _ => succeeds_modify _

theorem succeeds_startMember (place : Section) (flags : AccessFlags) (name descriptor : UInt16) :
    Succeeds (startMember place flags name descriptor) := by
  intro c
  obtain ⟨list, d, hstart, -⟩ := startMember_eq_ok place flags name descriptor c
  exact ⟨_, _, hstart⟩

theorem succeeds_startKind (kind : MemberKind) (flags : AccessFlags) (name descriptor : UInt16) :
    Succeeds (startKind kind flags name descriptor) := by
  cases kind with
  | field => exact succeeds_countField.bind fun _ => succeeds_startMember _ _ _ _
  | method => exact (succeeds_modify _).bind fun _ => succeeds_startMember _ _ _ _

end ClassM

namespace ClassStep

/-- Does the step, unless it is a member that is refused. Answers the step if it has been done, and
what the ends in it answered. -/
def attempt : ClassStep → ClassM (List ClassStep × List (Except Error Unit))
  | member kind v => fun c =>
    match v.start kind c with
    | .ok m c => (do let answers ← v.complete m; return ([member kind v], answers)) c
    | .error _ c => .ok ([], []) c
  | step => do
    let answers ← step.run
    return ([step], answers)

/-- The steps that are done, and what all ends in them answered. -/
def attemptAll : List ClassStep → ClassM (List ClassStep × List (Except Error Unit))
  | [] => pure ([], [])
  | step :: steps => do
    let (done, answers) ← step.attempt
    let (rest, more) ← attemptAll steps
    return (done ++ rest, answers ++ more)

/-- The steps visit the same members and attributes. -/
structure SameVisits (steps more : List ClassStep) : Prop where
  members : ∀ kind, steps.filterMap (member? kind) = more.filterMap (member? kind)
  attributes : steps.filterMap attributes? = more.filterMap attributes?

theorem SameVisits.refl (steps : List ClassStep) : SameVisits steps steps := ⟨fun _ => rfl, rfl⟩

theorem SameVisits.append {steps steps' more more' : List ClassStep} (h : SameVisits steps steps')
    (h' : SameVisits more more') : SameVisits (steps ++ more) (steps' ++ more') where
  members kind := by rw [List.filterMap_append, List.filterMap_append, h.members, h'.members]
  attributes := by rw [List.filterMap_append, List.filterMap_append, h.attributes, h'.attributes]

variable {c c' c'' : ClassDraft} {m : MemberDraft} {e : Error}
  {answers more : List (Except Error Unit)}

theorem runAll_append {first last : List ClassStep} (h : runAll first c = .ok answers c')
    (h' : runAll last c' = .ok more c'') :
    runAll (first ++ last) c = .ok (answers ++ more) c'' := by
  induction first generalizing c answers with
  | nil =>
    obtain ⟨rfl, rfl⟩ := pure_eq_ok.mp h
    exact h'
  | cons step first ih =>
    obtain ⟨own, c₁, hstep, h⟩ := bind_eq_ok.mp h
    obtain ⟨rest, c₂, hfirst, hpure⟩ := bind_eq_ok.mp h
    obtain ⟨rfl, rfl⟩ := pure_eq_ok.mp hpure
    rw [List.append_assoc]
    exact (bind_apply_ok hstep).trans (bind_apply_ok (ih hfirst))

theorem runAll_singleton {step : ClassStep} (h : step.run c = .ok answers c') :
    runAll [step] c = .ok answers c' := by
  refine (bind_apply_ok h).trans (pure_eq_ok.mpr ⟨?_, rfl⟩)
  exact (List.append_nil answers).symm

theorem calls_of_texts {name descriptor : String} {start : UInt16 → UInt16 → ClassM MemberDraft}
    (hstart : ∀ i j, ClassM.Succeeds (start i j)) (h : (do
      let i ← ClassM.onPool (PoolM.text name)
      let j ← ClassM.onPool (PoolM.text descriptor)
      start i j) c = .error e c') :
    ∃ calls : List PoolCall, runAll (calls.map pool) c = .ok [] c' := by
  rcases bind_eq_error.mp h with hname | ⟨i, c₁, hname, h⟩
  · refine ⟨[.text name], ?_⟩
    rw [ClassM.state_of_onPool_error (.text name) hname]
    rfl
  · refine ⟨[.text name, .text descriptor], ?_⟩
    rcases bind_eq_error.mp h with hdescriptor | ⟨j, c₂, hdescriptor, h⟩
    · rw [ClassM.state_of_onPool_error (.text descriptor) hdescriptor,
        ClassM.state_of_onPool_ok (.text name) hname]
      rfl
    · obtain ⟨m, c₃, hok⟩ := hstart i j c₂
      rw [hok] at h
      cases h

/-- What a refused member has interned can be interned by calls on the pool. -/
theorem exists_calls_of_refused {v : MemberVisit} {kind : MemberKind}
    (h : v.start kind c = .error e c') :
    ∃ calls : List PoolCall, runAll (calls.map pool) c = .ok [] c' := by
  unfold MemberVisit.start at h
  cases hnames : v.names with
  | indexes name descriptor =>
    obtain ⟨m, c'', hok⟩ := ClassM.succeeds_startKind kind v.flags name descriptor c
    rw [hnames] at h
    cases kind <;> exact nomatch hok.symm.trans h
  | texts name descriptor =>
    rw [hnames] at h
    cases kind with
    | field => exact calls_of_texts (ClassM.succeeds_startKind .field v.flags) h
    | method => exact calls_of_texts (ClassM.succeeds_startKind .method v.flags) h

theorem sameVisits_calls (calls : List PoolCall) : SameVisits (calls.map pool) [] where
  members kind := by simp [List.filterMap_map, Function.comp_def]
  attributes := by simp [List.filterMap_map, Function.comp_def]

theorem attempt_eq_run (step : ClassStep) {done : List ClassStep}
    (h : step.attempt c = .ok (done, answers) c') :
    done.Sublist [step] ∧ ∃ steps, runAll steps c = .ok answers c' ∧ SameVisits steps done := by
  have hdone {other : ClassStep}
      (h : (do let answers ← other.run; return ([other], answers)) c = .ok (done, answers) c') :
      done.Sublist [other] ∧
        ∃ steps, runAll steps c = .ok answers c' ∧ SameVisits steps done := by
    obtain ⟨_, _, hrun, hpure⟩ := bind_eq_ok.mp h
    obtain ⟨hpair, rfl⟩ := pure_eq_ok.mp hpure
    obtain ⟨rfl, rfl⟩ := Prod.mk.inj hpair
    exact ⟨.refl _, [other], runAll_singleton hrun, .refl _⟩
  cases step with
  | pool call => exact hdone h
  | attributes forest => exact hdone h
  | member kind v =>
    unfold attempt at h
    cases hstart : v.start kind c with
    | ok m c₁ =>
      simp only [hstart] at h
      obtain ⟨_, _, hcomplete, hpure⟩ := bind_eq_ok.mp h
      exact hdone ((bind_apply_ok ((bind_apply_ok hstart).trans hcomplete)).trans hpure)
    | error e c₁ =>
      simp only [hstart] at h
      obtain ⟨hpair, rfl⟩ := EStateM.Result.ok.inj h
      obtain ⟨rfl, rfl⟩ := Prod.mk.inj hpair
      obtain ⟨calls, hcalls⟩ := exists_calls_of_refused hstart
      exact ⟨List.nil_sublist _, calls.map pool, hcalls, sameVisits_calls calls⟩

theorem attemptAll_eq_run (steps : List ClassStep) {done : List ClassStep}
    (h : attemptAll steps c = .ok (done, answers) c') : done.Sublist steps ∧
      ∃ taken, runAll taken c = .ok answers c' ∧ SameVisits taken done := by
  induction steps generalizing c done answers with
  | nil =>
    obtain ⟨hpair, rfl⟩ := pure_eq_ok.mp h
    obtain ⟨rfl, rfl⟩ := Prod.mk.inj hpair
    exact ⟨.refl [], [], rfl, .refl []⟩
  | cons step steps ih =>
    obtain ⟨⟨first, own⟩, c₁, hfirst, h⟩ := bind_eq_ok.mp h
    obtain ⟨⟨rest, others⟩, c₂, hsteps, hpure⟩ := bind_eq_ok.mp h
    obtain ⟨hpair, rfl⟩ := pure_eq_ok.mp hpure
    obtain ⟨rfl, rfl⟩ := Prod.mk.inj hpair
    obtain ⟨hsublist, firsts, hfirsts, hsame⟩ := step.attempt_eq_run hfirst
    obtain ⟨hsublist', lasts, hlasts, hsame'⟩ := ih hsteps
    exact ⟨hsublist.append hsublist', firsts ++ lasts, runAll_append hfirsts hlasts,
      hsame.append hsame'⟩

end ClassStep

namespace ClassScript

/-- As `run`, but members that are refused are passed over. Answers the script without them too. -/
def attempt (script : ClassScript) : ClassM (ClassScript × List (Except Error Unit)) := do
  script.calls.forM fun call => ClassM.onPool call.attempt
  script.names.visit script.version script.flags
  let (steps, answers) ← ClassStep.attemptAll script.steps
  ClassM.finish
  return ({ script with steps }, answers)

variable {script done : ClassScript} {c c' : ClassDraft} {answers : List (Except Error Unit)}

theorem attempt_eq_run (h : script.attempt c = .ok (done, answers) c') :
    ∃ steps, run { script with steps } c = .ok answers c' ∧
      done = { script with steps := done.steps } ∧ done.steps.Sublist script.steps ∧
      ClassStep.SameVisits steps done.steps := by
  obtain ⟨_, c₁, hcalls, h⟩ := bind_eq_ok.mp h
  obtain ⟨_, c₂, hheader, h⟩ := bind_eq_ok.mp h
  obtain ⟨⟨taken, own⟩, c₃, hsteps, h⟩ := bind_eq_ok.mp h
  obtain ⟨_, c₄, hfinish, hpure⟩ := bind_eq_ok.mp h
  obtain ⟨hpair, rfl⟩ := pure_eq_ok.mp hpure
  obtain ⟨rfl, rfl⟩ := Prod.mk.inj hpair
  obtain ⟨hsublist, steps, hrun, hsame⟩ := ClassStep.attemptAll_eq_run script.steps hsteps
  have hbuild : build { script with steps } c = .ok answers c₃ :=
    (bind_apply_ok hcalls).trans ((bind_apply_ok hheader).trans hrun)
  exact ⟨steps, (bind_apply_ok hbuild).trans (bind_apply_ok hfinish), rfl, hsublist, hsame⟩

theorem Shows.congr {steps more : List ClassStep} {s : ClassSyntax}
    (h : Shows { script with steps } s) (hsame : ClassStep.SameVisits steps more) :
    Shows { script with steps := more } s := by
  have hmembers (kind : MemberKind) : ClassScript.members { script with steps := more } kind =
      ClassScript.members { script with steps } kind := (hsame.members kind).symm
  have hforests : forests { script with steps := more } = forests { script with steps } :=
    hsame.attributes.symm
  refine ⟨h.version, h.flags, h.names, h.interfaces, fun kind => ?_, ?_, fun kind => ?_, ?_⟩
  · rw [hmembers]
    exact h.members kind
  · unfold classAttributes
    rw [hforests]
    exact h.attributes
  · rw [hmembers]
    exact h.memberEnds kind
  · rw [hforests]
    exact h.classEnds

end ClassScript

/-! ## Counts that are too great -/

namespace ClassDraft

variable {c : ClassDraft}

end ClassDraft

end JavaClass
