import JavaClass.Proofs.Replays

/-!
# Traces of class files

A replay calls the listener with the events of the file, in file order, up to the first call that
fails. A class under construction that listens writes down what stands behind the pool of the file,
whatever its own pool holds.
-/

namespace JavaClass

/-! ## The events of a class -/

/-- What opens the member, its attributes, and its end. -/
def Member.trace (kind : MemberKind) (m : Member) : List ClassEvent :=
  ReplayM.opening kind m :: (m.attributes.map .memberAttribute ++ [.memberEnd])

/-- All events of the class, in the order of the file. -/
def ClassSyntax.trace (s : ClassSyntax) : List ClassEvent :=
  .header s.version s.flags s.thisClass s.superClass s.interfaces ::
    (s.fields.flatMap (Member.trace .field) ++ s.methods.flatMap (Member.trace .method) ++
      s.attributes.map .classAttribute ++ [.classEnd])

section Monad

variable {m : Type → Type} [Monad m] [LawfulMonad m] {α β : Type}

theorem forM_flatMap (l : List α) (g : α → List β) (f : β → m PUnit) :
    forM (l.flatMap g) f = forM l fun a => forM (g a) f := by
  induction l with
  | nil => rfl
  | cons a l ih => rw [List.flatMap_cons, List.forM_append, List.forM_cons, ih]

theorem Member.replay_eq_forM (kind : MemberKind) (f : Member) (listener : ClassListener m) :
    ClassFile.replayMember listener (ReplayM.opening kind f) f = (f.trace kind).forM listener := by
  simp [ClassFile.replayMember, Member.trace]

theorem ClassSyntax.replay_eq_forM (s : ClassSyntax) (bytes : Bytes) (listener : ClassListener m) :
    (s.classFile bytes).replay listener = s.trace.forM listener := by
  simp [ClassFile.replay_eq_visit, ClassFile.visit, ClassSyntax.classFile, ClassSyntax.trace,
    forM_flatMap, Member.replay_eq_forM]

end Monad

/-! ## Listeners that may fail -/

namespace ClassListener

variable {ε σ : Type}

/-- The listener, which also notes every event that it is called with. -/
def recorded (listener : ClassListener (EStateM ε σ)) :
    ClassListener (EStateM ε (σ × List ClassEvent)) := fun event (state, calls) =>
  match listener event state with
  | .ok _ state => .ok () (state, calls ++ [event])
  | .error e state => .error e (state, calls ++ [event])

theorem forM_cases (listener : ClassListener (EStateM ε σ)) (events : List ClassEvent) (state : σ)
    (calls : List ClassEvent) :
    (∃ last, events.forM listener state = .ok () last ∧
      events.forM listener.recorded (state, calls) = .ok () (last, calls ++ events)) ∨
    ∃ before event after found last e, events = before ++ event :: after ∧
      before.forM listener state = .ok () found ∧ listener event found = .error e last ∧
      events.forM listener state = .error e last ∧
      events.forM listener.recorded (state, calls) =
        .error e (last, calls ++ (before ++ [event])) := by
  induction events generalizing state calls with
  | nil => exact .inl ⟨state, rfl, by rw [List.append_nil]; rfl⟩
  | cons event events ih =>
    cases hcall : listener event state with
    | error e last =>
      have hrecorded : listener.recorded event (state, calls) =
          .error e (last, calls ++ [event]) := by
        simp only [recorded, hcall]
      exact .inr ⟨[], event, events, state, last, e, rfl, rfl, hcall, bind_apply_error hcall,
        bind_apply_error hrecorded⟩
    | ok _ next =>
      have hrecorded : listener.recorded event (state, calls) =
          .ok () (next, calls ++ [event]) := by
        simp only [recorded, hcall]
      rcases ih next (calls ++ [event]) with ⟨last, hrun, hnoted⟩ |
        ⟨before, failing, after, found, last, e, rfl, hbefore, hfail, hrun, hnoted⟩
      · refine .inl ⟨last, (bind_apply_ok hcall).trans hrun, ?_⟩
        refine (bind_apply_ok hrecorded).trans ?_
        rwa [List.append_assoc] at hnoted
      · refine .inr ⟨event :: before, failing, after, found, last, e, rfl,
          (bind_apply_ok hcall).trans hbefore, hfail, (bind_apply_ok hcall).trans hrun, ?_⟩
        refine (bind_apply_ok hrecorded).trans ?_
        rwa [List.append_assoc] at hnoted

end ClassListener

/-! ## Steps that do not look at the pool -/

section Ignores

variable {ε σ α β : Type} {change : σ → σ} {step : EStateM ε σ α} {next : α → EStateM ε σ β}

/-- Where the step succeeds, it also succeeds after the change, with the same answer, and leaves the
changed state. -/
def Ignores (change : σ → σ) (step : EStateM ε σ α) : Prop :=
  ∀ s a t, step s = .ok a t → step (change s) = .ok a (change t)

theorem ignores_pure (change : σ → σ) (a : α) : Ignores change (pure a : EStateM ε σ α) := by
  rintro s _ _ ⟨⟩
  rfl

theorem Ignores.bind (hstep : Ignores change step) (hnext : ∀ a, Ignores change (next a)) :
    Ignores change (step >>= next) := by
  intro s b t h
  obtain ⟨a, s', hfirst, hrest⟩ := bind_eq_ok.mp h
  exact (bind_apply_ok (hstep s a s' hfirst)).trans (hnext a s' b t hrest)

theorem ignores_get_bind {read : σ → EStateM ε σ α} (hsame : ∀ s, read (change s) = read s)
    (hread : ∀ s, Ignores change (read s)) : Ignores change (get >>= read) := by
  intro s a t h
  show read (change s) (change s) = _
  rw [hsame]
  exact hread s s a t h

theorem ignores_modify {f : σ → σ} (h : ∀ s, f (change s) = change (f s)) :
    Ignores change (modify f : EStateM ε σ PUnit) := by
  rintro s _ _ ⟨⟩
  exact congrArg (EStateM.Result.ok PUnit.unit) (h s)

theorem ignores_forM {each : α → EStateM ε σ PUnit} (l : List α)
    (h : ∀ a ∈ l, Ignores change (each a)) : Ignores change (l.forM each) := by
  induction l with
  | nil => exact ignores_pure change PUnit.unit
  | cons a l ih =>
    obtain ⟨ha, hl⟩ := List.forall_mem_cons.mp h
    exact ha.bind fun _ => ih hl

end Ignores

theorem ignores_lift {σ α : Type} (change : σ → σ) (x : Except Error α) :
    Ignores change (liftM x : EStateM Error σ α) := by
  intro s a t h
  obtain ⟨hx, rfl⟩ := lift_eq_ok.mp h
  exact lift_eq_ok.mpr ⟨hx, rfl⟩

/-- The draft with another pool. -/
def Draft.withPool (p : ConstantPool) (d : Draft) : Draft := { d with pool := p }

namespace DraftM

variable (p : ConstantPool)

theorem ignores_onBuffer (change : ByteBuffer → ByteBuffer) :
    Ignores (Draft.withPool p) (onBuffer change) := by
  rintro d _ _ ⟨⟩
  rfl

theorem ignores_skip (n : Nat) : Ignores (Draft.withPool p) (skip n) := by
  rintro d _ _ ⟨⟩
  rfl

theorem ignores_patch (offset : Nat) (values : List UInt8) :
    Ignores (Draft.withPool p) (patch offset values) := by
  intro d a d' h
  unfold patch at h
  split at h
  · rename_i hroom
    exact (if_pos hroom).trans (ignores_onBuffer p _ d a d' h)
  · cases h

theorem ignores_startCount : Ignores (Draft.withPool p) CountSlot.start :=
  (ignores_skip p 2).bind fun _ => ignores_pure _ _

theorem ignores_finishCount (slot : CountSlot) (what : Counted) :
    Ignores (Draft.withPool p) (slot.finish what) :=
  (ignores_lift _ _).bind fun _ => ignores_patch p _ _

theorem ignores_grow (list : AttributeList) : Ignores (Draft.withPool p) list.grow := by
  cases list with
  | tallied | reserved => exact ignores_pure _ _
  | pending => exact (ignores_startCount p).bind fun _ => ignores_pure _ _

theorem ignores_finishList (list : AttributeList) (what : Counted) :
    Ignores (Draft.withPool p) (list.finish what) := by
  cases list with
  | tallied => exact ignores_pure _ _
  | pending => exact ignores_onBuffer p (·.put16 0)
  | reserved slot => exact ignores_finishCount p slot what

theorem ignores_appendRaw (a : Attribute) (list : AttributeList) :
    Ignores (Draft.withPool p) (ReplayM.appendRaw a list) :=
  ((ignores_grow p list).bind fun _ => (ignores_onBuffer p _).bind fun _ => ignores_pure _ _).bind
    fun _ => ignores_pure _ _

end DraftM

/-- The class with another pool. -/
def ClassDraft.withPool (p : ConstantPool) (c : ClassDraft) : ClassDraft := { c with pool := p }

namespace ClassM

open DraftM

variable {α : Type} (p : ConstantPool)

theorem ignores_within {place : Section} {step : DraftM α} (h : Ignores (Draft.withPool p) step) :
    Ignores (ClassDraft.withPool p) (within place step) := by
  intro c a c' hstep
  obtain ⟨d, hd, rfl⟩ := within_eq_ok.mp hstep
  have hdraft : (c.withPool p).draft place = (c.draft place).withPool p := by cases place <;> rfl
  refine within_eq_ok.mpr ⟨d.withPool p, ?_, ?_⟩
  · rw [hdraft]
    exact h _ a d hd
  · cases place <;> rfl

theorem ignores_header (version : Version) (flags : AccessFlags) (thisClass superClass : UInt16)
    (interfaces : List UInt16) :
    Ignores (ClassDraft.withPool p) (header version flags thisClass superClass interfaces) := by
  refine (ignores_lift _ _).bind fun _ => (ignores_modify fun _ => by rfl).bind fun _ => ?_
  refine (ignores_within p ?_).bind fun _ => ignores_modify fun _ => by rfl
  exact (ignores_onBuffer p _).bind fun _ => (ignores_onBuffer p _).bind fun _ =>
    (ignores_onBuffer p _).bind fun _ => ignores_startCount p

theorem ignores_startMember (place : Section) (flags : AccessFlags) (name descriptor : UInt16) :
    Ignores (ClassDraft.withPool p) (startMember place flags name descriptor) :=
  ignores_within p <| (ignores_onBuffer p _).bind fun _ =>
    ((ignores_startCount p).bind fun _ => ignores_pure _ _).bind fun _ => ignores_pure _ _

theorem ignores_startField (flags : AccessFlags) (name descriptor : UInt16) :
    Ignores (ClassDraft.withPool p) (startField flags name descriptor) := by
  refine Ignores.bind (ignores_get_bind (fun _ => rfl) fun c => ?_) fun _ =>
    ignores_startMember p .body flags name descriptor
  cases c.fields with
  | some slot => exact (ignores_pure _ _).bind fun _ => ignores_modify fun _ => by rfl
  | none =>
    exact (ignores_within p (ignores_startCount p)).bind fun _ => ignores_modify fun _ => by rfl

theorem ignores_startMethod (flags : AccessFlags) (name descriptor : UInt16) :
    Ignores (ClassDraft.withPool p) (startMethod flags name descriptor) :=
  (ignores_modify fun _ => by rfl).bind fun _ =>
    ignores_startMember p .methods flags name descriptor

theorem ignores_onAttributes (a : Attribute) :
    Ignores (ClassDraft.withPool p) (onAttributes (ReplayM.appendRaw a)) :=
  ignores_get_bind (fun _ => rfl) fun _ =>
    (ignores_within p (ignores_appendRaw p a _)).bind fun _ =>
      (ignores_modify fun _ => by rfl).bind fun _ => ignores_pure _ _

end ClassM

/-- The class under construction with another pool, and the same member open. -/
def ReplayState.withPool (p : ConstantPool) (s : ReplayState) : ReplayState :=
  { s with draft := s.draft.withPool p }

namespace ReplayM

open ClassM DraftM

variable {α : Type} (p : ConstantPool)

theorem ignores_onClass {step : ClassM α} (h : Ignores (ClassDraft.withPool p) step) :
    Ignores (ReplayState.withPool p) (onClass step) := by
  rintro ⟨c, member⟩ a s' hstep
  cases hc : step c with
  | ok b c' =>
    rw [onClass_apply_ok hc] at hstep
    cases hstep
    exact onClass_apply_ok (h c a c' hc)
  | error e c' =>
    rw [onClass_apply_error hc] at hstep
    cases hstep

theorem ignores_open {step : ClassM MemberDraft} (h : Ignores (ClassDraft.withPool p) step) :
    Ignores (ReplayState.withPool p) (ReplayM.startMember step) :=
  (ignores_onClass p h).bind fun _ => ignores_modify fun _ => by rfl

/-- Only the end of the class asks for the pool, to check its count. -/
theorem ignores_builder {event : ClassEvent} (h : event ≠ .classEnd) :
    Ignores (ReplayState.withPool p) (builder event) := by
  cases event with
  | header => exact ignores_onClass p (ignores_header p _ _ _ _ _)
  | field => exact ignores_open p (ignores_startField p _ _ _)
  | method => exact ignores_open p (ignores_startMethod p _ _ _)
  | classAttribute a => exact ignores_onClass p (ignores_onAttributes p a)
  | classEnd => exact absurd rfl h
  | memberAttribute a =>
    refine ignores_get_bind (fun _ => rfl) fun s => ?_
    cases s.member with
    | none => exact ignores_pure _ _
    | some m =>
      refine Ignores.bind (ignores_onClass p ?_) fun _ => ignores_modify fun _ => by rfl
      exact (ignores_within p (ignores_appendRaw p a _)).bind fun _ => ignores_pure _ _
  | memberEnd =>
    refine ignores_get_bind (fun _ => rfl) fun s => ?_
    cases s.member with
    | none => exact ignores_pure _ _
    | some m =>
      exact (ignores_modify fun _ => by rfl).bind fun _ =>
        ignores_onClass p (ignores_within p (ignores_finishList p _ _))

end ReplayM

theorem ClassFile.ignores_visit (p : ConstantPool) (c : ClassFile) :
    Ignores (ReplayState.withPool p) (c.visit ReplayM.builder) := by
  have hmember (kind : MemberKind) (f : Member) : Ignores (ReplayState.withPool p)
      (replayMember ReplayM.builder (ReplayM.opening kind f) f) := by
    refine (ReplayM.ignores_builder p ?_).bind fun _ => Ignores.bind (ignores_forM _ fun a _ => ?_)
      fun _ => ReplayM.ignores_builder p (by simp)
    · cases kind <;> simp [ReplayM.opening]
    · exact ReplayM.ignores_builder p (by simp)
  refine (ReplayM.ignores_builder p (by simp)).bind fun _ => ?_
  refine (ignores_forM _ fun f _ => hmember .field f).bind fun _ => ?_
  refine (ignores_forM _ fun f _ => hmember .method f).bind fun _ => ?_
  exact ignores_forM _ fun a _ => ReplayM.ignores_builder p (by simp)

/-! ## Classes behind any pool -/

namespace ClassFile

open Constant

variable {s : ClassSyntax} {bytes : Bytes} {trailing : List UInt8} {p : ConstantPool}

theorem finish_writes_body {c : ClassDraft} (h : c.Holds s) (hs : s.WellFormed)
    (hp : p.count < 65536) : ∃ c' out, ClassM.finish (c.withPool p) = .ok () c' ∧
      c'.pool = p ∧ c'.toBytes = .ok out ∧
      out.toList = bytes32 magic ++ bytes16 s.version.minor ++ bytes16 s.version.major ++
        bytes16 (UInt16.ofNat p.count) ++ p.entries.toList ++ s.encodeBody := by
  obtain ⟨d, hbytes, hpool, hfinish⟩ :=
    ClassM.finish_eq_finish (c := c.withPool p) h.slot (h.written .body)
      (count32_lt hs.fieldCount)
  have hpool' : d.pool = p := hpool
  have hpieces := ClassDraft.pieces_of_counts (c := ClassM.withBody (c.withPool p) d)
    (show d.pool.count < 65536 from hpool'.symm ▸ hp)
    (show c.methodCount < 65536 from h.methodCount ▸ counter_lt.mpr (count32_lt hs.methodCount))
    (show c.attributeCount < 65536 from
      h.attributeCount ▸ counter_lt.mpr (count32_lt hs.attributeCount))
  refine ⟨_, _, ?_, hpool', ClassDraft.toBytes_of_pieces hpieces, ?_⟩
  · rw [hfinish, ClassM.finish_of_counted rfl]
    exact bind_apply_ok (lift_eq_ok.mpr ⟨hpieces, rfl⟩)
  · have hbody : d.buffer.data.toList = _ := hbytes
    have hmethodBytes : c.methods.data.toList = _ := h.written .methods
    have hattributeBytes : c.attributes.data.toList = _ := h.written .attributes
    simp [ClassM.withBody, ClassDraft.withDraft, ClassDraft.withPool, hpool', hbody, hmethodBytes,
      hattributeBytes, h.version, h.methodCount, h.attributeCount, Buffer.toList,
      ClassSyntax.written, ClassSyntax.encodeBody, encodeCounted]

theorem replay_writes_body (hs : s.WellFormed) (options : DraftOptions) (hp : p.count < 65536) :
    ∃ c out, (s.classFile bytes).replay ReplayM.builder
        ⟨(ClassDraft.withOptions options).withPool p, none⟩ = .ok () ⟨c, none⟩ ∧
      c.pool = p ∧ c.toBytes = .ok out ∧
      out.toList = bytes32 magic ++ bytes16 s.version.minor ++ bytes16 s.version.major ++
        bytes16 (UInt16.ofNat p.count) ++ p.entries.toList ++ s.encodeBody := by
  -- the visits are those of the class without its constants, into a class without constants
  let bare : ClassSyntax := { s with count := 1, constants := [] }
  have hbare : bare.WellFormed := { hs with constants := fill_nil.mpr rfl }
  obtain ⟨c, hvisit, hbuilds⟩ := visit_eq_ok bytes hbare (ClassDraft.fresh_withOptions options)
  have hvisit' := ignores_visit p _ _ _ _ hvisit
  obtain ⟨c', out, hfinish, hpool, hbytes, hout⟩ :=
    finish_writes_body hbuilds { hbare with constants := fill_nil.mpr rfl } hp
  refine ⟨c', out, ?_, hpool, hbytes, hout⟩
  rw [replay_eq_visit]
  exact (bind_apply_ok hvisit').trans (ReplayM.onClass_apply_ok hfinish)

theorem extract_body (h : bytes.toList = s.encode ++ trailing) :
    bytes.extract s.headerOffset s.encode.length = s.encodeBody.toArray := by
  rw [ClassSyntax.encode_eq] at h ⊢
  have hat : Bytes.HasAt bytes s.headerOffset s.encodeBody :=
    Bytes.hasAt_iff_append.mpr ⟨_, trailing, h, by
      rw [List.length_append, ClassSyntax.length_encodePreamble, ClassSyntax.headerOffset]⟩
  rw [← hat.extract_eq]
  simp [ClassSyntax.length_encodePreamble, ClassSyntax.headerOffset, Nat.add_assoc]

/-- A replay calls any listener with the events of the file in their order, and the first call that
fails is the last one and decides the outcome. A fresh class under construction, with any pool that
can be counted, comes out with the bytes of the file behind that pool. -/
theorem replay_plays_trace (bytes : Bytes) (c : ClassFile)
    (hparse : ClassFile.parse bytes = .ok c) :
    ∃ (s : ClassSyntax) (trailing : List UInt8), s.WellFormed ∧
      bytes.toList = s.encode ++ trailing ∧
      (∀ (ε σ : Type) (listener : ClassListener (EStateM ε σ)) (state : σ),
        (∃ last, c.replay listener state = .ok () last ∧
          c.replay listener.recorded (state, []) = .ok () (last, s.trace)) ∨
        ∃ before event after found last e, s.trace = before ++ event :: after ∧
          before.forM listener state = .ok () found ∧ listener event found = .error e last ∧
          c.replay listener state = .error e last ∧
          c.replay listener.recorded (state, []) = .error e (last, before ++ [event])) ∧
      ∀ (options : DraftOptions) (p : ConstantPool), p.count < 65536 →
        ∃ draft out, c.replay ReplayM.builder
            ⟨(ClassDraft.withOptions options).withPool p, none⟩ = .ok () ⟨draft, none⟩ ∧
          draft.pool = p ∧ draft.toBytes = .ok out ∧
          out.toList = bytes32 magic ++ bytes16 c.version.minor ++ bytes16 c.version.major ++
            bytes16 (UInt16.ofNat p.count) ++ p.entries.toList ++
            (bytes.extract c.headerOffset c.size).toList := by
  obtain ⟨s, trailing, hs, hsplit, rfl⟩ := parse_eq_ok.mp hparse
  refine ⟨s, trailing, hs, hsplit, fun ε σ listener state => ?_, fun options p hp => ?_⟩
  · rw [s.replay_eq_forM, s.replay_eq_forM]
    simpa using listener.forM_cases s.trace state []
  · have hbody : (bytes.extract (s.classFile bytes).headerOffset (s.classFile bytes).size).toList =
        s.encodeBody := congrArg Array.toList (extract_body hsplit)
    rw [hbody]
    exact replay_writes_body hs options hp

/-- A class without constants that has one field, and an attribute there. -/
def loneField : ClassSyntax where
  version := .v1_8
  count := 1
  constants := []
  flags := ⟨0x21⟩
  thisClass := 0
  superClass := 0
  interfaces := []
  fields := [⟨⟨0x10⟩, 1, 2, [⟨3, #[4, 5]⟩]⟩]
  methods := []
  attributes := []

theorem loneField_wellFormed : loneField.WellFormed where
  constants := fill_nil.mpr rfl
  interfaces := by decide
  fieldCount := by decide
  fields := by
    intro m hm
    obtain rfl := List.mem_singleton.mp hm
    refine ⟨by decide, fun a ha => ?_⟩
    obtain rfl := List.mem_singleton.mp ha
    unfold Attribute.Fits
    decide
  methodCount := by decide
  methods := by simp [loneField]
  attributeCount := by decide
  attributes := by simp [loneField]

theorem loneField_behind_empty_pool : ∃ c draft out,
    ClassFile.parse loneField.encode.toArray = .ok c ∧
      c.replay ReplayM.builder ⟨(ClassDraft.withOptions {}).withPool .empty, none⟩ =
        .ok () ⟨draft, none⟩ ∧
      draft.toBytes = .ok out ∧ out.toList = loneField.encode := by
  have hparse := parse_encode (x := []) loneField.encode.toArray loneField_wellFormed (by simp)
  obtain ⟨-, -, -, -, -, hwrites⟩ := replay_plays_trace _ _ hparse
  obtain ⟨draft, out, hreplay, -, hbytes, hout⟩ := hwrites {} .empty (by decide)
  refine ⟨_, draft, out, hparse, hreplay, hbytes, ?_⟩
  rw [hout]
  rfl

end ClassFile

end JavaClass
