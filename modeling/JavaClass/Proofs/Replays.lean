import JavaClass.ClassFile.Replay
import JavaClass.Proofs.Building

/-!
# Replays into classes under construction

Each event of a replay does to an open class what the part of the file asks for. So a whole replay
visits the parts of the file one after the other, up to the end, where the counts are checked.
-/

namespace JavaClass

open Constant DraftM

theorem ClassListener.without_nothing {m : Type → Type} [Monad m] (listener : ClassListener m) :
    listener.without (fun _ => false) = listener := by
  funext event
  cases event <;> rfl

namespace ReplayM

variable {α : Type} {c c₁ c' : ClassDraft} {member : Option MemberDraft} {a : α}

theorem onClass_apply_ok {step : ClassM α} (h : step c = .ok a c') :
    onClass step ⟨c, member⟩ = .ok a ⟨c', member⟩ := by
  simp only [onClass, h]

theorem onClass_apply_error {step : ClassM α} {e : Error} (h : step c = .error e c') :
    onClass step ⟨c, member⟩ = .error e ⟨c', member⟩ := by
  simp only [onClass, h]

theorem startMember_apply_ok {step : ClassM MemberDraft} {m : MemberDraft} (h : step c = .ok m c') :
    startMember step ⟨c, member⟩ = .ok () ⟨c', some m⟩ :=
  (bind_apply_ok (onClass_apply_ok h)).trans rfl

/-! ## Members -/

section Member

variable {d : Draft} {list : AttributeList} {base : List UInt8} {done : List Attribute}
  {place : Section} {m : Member}

theorem leaves_appendRaw {counted : Bool} (a : Attribute)
    (h : list.Holds counted base done d.bytes) : ∃ list' bytes,
      Leaves (appendRaw a list) d ((), list') bytes ∧
        list'.Holds counted base (done ++ [a]) bytes := by
  obtain ⟨list', bytes, hput, hlist'⟩ := AttributeList.leaves_putRaw a.name a.info h
  refine ⟨list', bytes, hput.bind fun d' hd' => ?_, hlist'⟩
  rw [← hd']
  exact leaves_pure d' _

theorem memberAttribute_eq_ok (c : ClassDraft) (place : Section) (a : Attribute)
    (h : list.Holds true base done d.bytes) :
    ∃ list' d', builder (.memberAttribute a) ⟨c.withDraft place d, some ⟨place, list⟩⟩ =
        .ok () ⟨c.withDraft place d', some ⟨place, list'⟩⟩ ∧
      list'.Holds true base (done ++ [a]) d'.bytes ∧ d'.pool = d.pool := by
  obtain ⟨list', bytes, ⟨d', hd', hbytes, hpool⟩, hlist'⟩ := leaves_appendRaw a h
  refine ⟨list', d', ?_, hbytes ▸ hlist', hpool⟩
  have hwithin : ClassM.within place (appendRaw a list) (c.withDraft place d) =
      .ok ((), list') (c.withDraft place d') := ClassM.within_withDraft_eq_ok.mpr ⟨d', hd', rfl⟩
  have hmember : ClassM.onMember ⟨place, list⟩ (appendRaw a) (c.withDraft place d) =
      .ok ((), ⟨place, list'⟩) (c.withDraft place d') := bind_apply_ok hwithin
  refine (bind_apply_ok rfl).trans ?_
  exact (bind_apply_ok (onClass_apply_ok hmember)).trans rfl

theorem forM_memberAttributes (c : ClassDraft) (place : Section) (l : List Attribute)
    (h : list.Holds true base done d.bytes) :
    ∃ list' d', (l.forM fun a => builder (.memberAttribute a))
        ⟨c.withDraft place d, some ⟨place, list⟩⟩ =
        .ok () ⟨c.withDraft place d', some ⟨place, list'⟩⟩ ∧
      list'.Holds true base (done ++ l) d'.bytes ∧ d'.pool = d.pool := by
  induction l generalizing list d done with
  | nil => exact ⟨list, d, rfl, by simpa using h, rfl⟩
  | cons a l ih =>
    obtain ⟨list₁, d₁, hfirst, hlist₁, hpool₁⟩ := memberAttribute_eq_ok c place a h
    obtain ⟨list₂, d₂, hrest, hlist₂, hpool₂⟩ := ih hlist₁
    refine ⟨list₂, d₂, (bind_apply_ok hfirst).trans hrest, ?_, hpool₂.trans hpool₁⟩
    simpa using hlist₂

theorem memberEnd_eq_ok (c : ClassDraft) (place : Section) (h : list.Holds true
      (base ++ (bytes16 m.flags.bits ++ bytes16 m.name ++ bytes16 m.descriptor)) m.attributes
      d.bytes) (hm : m.Fits) :
    ∃ d', builder .memberEnd ⟨c.withDraft place d, some ⟨place, list⟩⟩ =
        .ok () ⟨c.withDraft place d', none⟩ ∧
      d'.bytes = base ++ m.encode ∧ d'.pool = d.pool := by
  obtain ⟨d', hfinish, hbytes, hpool⟩ :=
    ClassM.finishMember_eq_ok c place h (count32_lt hm.count)
  refine ⟨d', ?_, hbytes, hpool⟩
  refine (bind_apply_ok rfl).trans ?_
  exact (bind_apply_ok rfl).trans (onClass_apply_ok hfinish)

theorem replayMember_eq_ok (opening : ClassEvent)
    (hopen : builder opening ⟨c, none⟩ = .ok () ⟨c₁.withDraft place d, some ⟨place, list⟩⟩)
    (hlist : list.Holds true
      (base ++ (bytes16 m.flags.bits ++ bytes16 m.name ++ bytes16 m.descriptor)) [] d.bytes)
    (hm : m.Fits) :
    ∃ d', ClassFile.replayMember builder opening m ⟨c, none⟩ =
        .ok () ⟨c₁.withDraft place d', none⟩ ∧
      d'.bytes = base ++ m.encode ∧ d'.pool = d.pool := by
  obtain ⟨list₁, d₁, hall, hlist₁, hpool₁⟩ :=
    forM_memberAttributes c₁ place m.attributes hlist
  obtain ⟨d₂, hend, hbytes, hpool₂⟩ := memberEnd_eq_ok c₁ place hlist₁ hm
  refine ⟨d₂, ?_, hbytes, hpool₂.trans hpool₁⟩
  refine (bind_apply_ok hopen).trans ?_
  exact (bind_apply_ok hall).trans hend

end Member

/-! ## Sections -/

section Section

variable {s : ClassSyntax} {m : Member}

/-- The event that opens a member of the kind. -/
def opening (kind : MemberKind) (m : Member) : ClassEvent :=
  match kind with
  | .field => .field m.flags m.name m.descriptor
  | .method => .method m.flags m.name m.descriptor

theorem replayMember_adds (kind : MemberKind) (h : c.Holds s) (hm : m.Fits) : ∃ c',
    ClassFile.replayMember builder (opening kind m) m ⟨c, none⟩ = .ok () ⟨c', none⟩ ∧
      c'.Holds (s.addMember kind m) := by
  obtain ⟨list, d, hstart, hlist, hpool⟩ :=
    ClassM.startKind_eq_ok kind h m.flags m.name m.descriptor
  have hopen : builder (opening kind m) ⟨c, none⟩ =
      .ok () ⟨(c.countMember kind).withDraft kind.place d, some ⟨kind.place, list⟩⟩ := by
    cases kind <;> exact startMember_apply_ok hstart
  obtain ⟨d', hreplay, hbytes, hpool'⟩ := replayMember_eq_ok (opening kind m) hopen hlist hm
  have hrepresents : d'.pool.Represents s.constants := by
    rw [hpool', hpool]
    exact h.pool
  exact ⟨_, hreplay, h.addMember kind m hbytes hrepresents⟩

theorem classAttribute_eq_ok {a : Attribute} (h : c.Holds s) : ∃ c',
    builder (.classAttribute a) ⟨c, none⟩ = .ok () ⟨c', none⟩ ∧
      c'.Holds { s with attributes := s.attributes ++ [a] } := by
  have htallied : (AttributeList.tallied c.attributeCount).Holds false [] s.attributes
      (c.draft .attributes).bytes := ⟨rfl, h.attributeCount, h.written .attributes⟩
  obtain ⟨list, bytes, ⟨d, hd, hbytes, hpool⟩, hlist⟩ := leaves_appendRaw a htallied
  obtain ⟨hwritten, hcount⟩ := hlist.tally
  have hwithin : ClassM.within .attributes (appendRaw a (.tallied c.attributeCount)) c =
      .ok ((), list) (c.withDraft .attributes d) := ClassM.within_apply_ok hd
  have hstep : ClassM.onAttributes (appendRaw a) c =
      .ok () { c.withDraft .attributes d with attributeCount := list.count } :=
    (bind_apply_ok rfl).trans ((bind_apply_ok hwithin).trans rfl)
  rw [← hbytes, List.flatMap_append] at hwritten
  rw [List.length_append] at hcount
  refine ⟨_, onClass_apply_ok hstep, h.addAttributes (l := [a]) hwritten hcount ?_⟩
  rw [hpool]
  exact h.pool

theorem forM_eq_ok {β : Type} {step : β → ReplayM Unit} {valid : β → Prop}
    (add : ClassSyntax → List β → ClassSyntax) (hnil : ∀ s, add s [] = s)
    (hcons : ∀ s b l, add (add s [b]) l = add s (b :: l))
    (hstep : ∀ c s b, ClassDraft.Holds c s → valid b →
      ∃ c', step b ⟨c, none⟩ = .ok () ⟨c', none⟩ ∧ c'.Holds (add s [b]))
    (l : List β) (h : c.Holds s) (hl : ∀ b ∈ l, valid b) :
    ∃ c', l.forM step ⟨c, none⟩ = .ok () ⟨c', none⟩ ∧ c'.Holds (add s l) := by
  induction l generalizing c s with
  | nil => exact ⟨c, rfl, (hnil s).symm ▸ h⟩
  | cons b l ih =>
    obtain ⟨c₁, hfirst, h₁⟩ := hstep c s b h (hl b (by simp))
    obtain ⟨c₂, hrest, h₂⟩ := ih h₁ fun b' hb' => hl b' (by simp [hb'])
    exact ⟨c₂, (bind_apply_ok hfirst).trans hrest, hcons s b l ▸ h₂⟩

end Section
end ReplayM

namespace ClassFile

variable {c : ClassDraft} {s : ClassSyntax}

/-- The replay of all that comes before the end of the class. -/
def visit {m : Type → Type} [Monad m] (c : ClassFile) (listener : ClassListener m) : m Unit := do
  listener (.header c.version c.flags c.thisClass c.superClass c.interfaces)
  c.fields.forM fun f => replayMember listener (ReplayM.opening .field f) f
  c.methods.forM fun f => replayMember listener (ReplayM.opening .method f) f
  c.attributes.forM fun a => listener (.classAttribute a)

theorem replay_eq_visit {m : Type → Type} [Monad m] [LawfulMonad m] (c : ClassFile)
    (listener : ClassListener m) :
    c.replay listener = c.visit listener >>= fun _ => listener .classEnd := by
  simp only [replay, visit, ReplayM.opening, bind_assoc]

theorem visit_eq_ok (bytes : Bytes) (hs : s.WellFormed) (h : c.Fresh s.constants) :
    ∃ c' : ClassDraft, (s.classFile bytes).visit ReplayM.builder ⟨c, none⟩ = .ok () ⟨c', none⟩ ∧
      c'.Holds { s with count := 0 } := by
  obtain ⟨c₁, hheader, h₁⟩ := ClassM.header_eq_ok h s.version s.flags s.thisClass s.superClass
    s.interfaces (count32_lt hs.interfaces)
  obtain ⟨c₂, hfields, h₂⟩ := ReplayM.forM_eq_ok
    (fun s l => { s with fields := s.fields ++ l }) (by simp) (by simp)
    (fun _ _ _ => ReplayM.replayMember_adds .field) s.fields h₁ hs.fields
  obtain ⟨c₃, hmethods, h₃⟩ := ReplayM.forM_eq_ok
    (fun s l => { s with methods := s.methods ++ l }) (by simp) (by simp)
    (fun _ _ _ => ReplayM.replayMember_adds .method) s.methods h₂ hs.methods
  obtain ⟨c₄, hattributes, h₄⟩ := ReplayM.forM_eq_ok
    (fun s l => { s with attributes := s.attributes ++ l }) (by simp) (by simp)
    (fun _ _ _ h _ => ReplayM.classAttribute_eq_ok h) s.attributes h₃ hs.attributes
  refine ⟨c₄, ?_, h₄⟩
  exact (bind_apply_ok (ReplayM.onClass_apply_ok hheader)).trans <|
    (bind_apply_ok hfields).trans <| (bind_apply_ok hmethods).trans hattributes

theorem replayInto_eq_finish (bytes : Bytes) (hs : s.WellFormed) (h : c.Fresh s.constants) :
    ∃ c₁ : ClassDraft, c₁.Holds { s with count := 0 } ∧
      (∀ c', ClassM.finish c₁ = .ok () c' →
        (s.classFile bytes).replayInto (fun _ => false) c = .ok () c') ∧
      (∀ e c', ClassM.finish c₁ = .error e c' →
        (s.classFile bytes).replayInto (fun _ => false) c = .error e c') := by
  obtain ⟨c₁, hvisit, h₁⟩ := visit_eq_ok bytes hs h
  have hreplay : (s.classFile bytes).replay ReplayM.builder ⟨c, none⟩ =
      ReplayM.onClass ClassM.finish ⟨c₁, none⟩ := by
    rw [replay_eq_visit]
    exact bind_apply_ok hvisit
  refine ⟨c₁, h₁, ?_, ?_⟩
  · intro c' hfinish
    unfold replayInto
    rw [ClassListener.without_nothing, hreplay, ReplayM.onClass_apply_ok hfinish]
  · intro e c' hfinish
    unfold replayInto
    rw [ClassListener.without_nothing, hreplay, ReplayM.onClass_apply_error hfinish]

end ClassFile
end JavaClass
