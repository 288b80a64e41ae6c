import JavaClass.Proofs.Contents
import JavaClass.Proofs.Walks

/-!
# Forests of attributes

What a caller does to an open attribute list: attributes of every form, nested to any depth, with
calls on the pool in between. A section that cannot be ended does not stop the caller, for its bytes
are written all the same. A forest declares, without any buffer, which attributes come of it and
what the ends of its sections answer, and its run does as declared.
-/

namespace JavaClass

/-! ## Ends -/

namespace DraftM

variable {d : Draft} {x : DraftM Unit} {bytes : List UInt8}

theorem Writes.outcome (h : Writes x d () bytes) : Writes (outcome x) d (.ok ()) bytes := by
  obtain ⟨d', hd, hbytes⟩ := h
  exact ⟨d', outcome_of_ok hd, hbytes⟩

theorem writes_outcome_error {e : Error} (h : x d = .error e d) :
    Writes (outcome x) d (.error e) d.bytes :=
  ⟨d, outcome_of_error h, rfl, .refl d.pool⟩

end DraftM

open DraftM

def countEnd (what : Counted) (n : Nat) : Except Error Unit :=
  if n < 65536 then .ok () else .error (.countOverflow what n)

def lengthEnd (n : Nat) : Except Error Unit :=
  if n < 2 ^ 32 then .ok () else .error (.countOverflow .attributeLength (2 ^ 32 - 1))

/-- For `n` nested attributes and `m` bytes of content. -/
def compositeEnd (n m : Nat) : Except Error Unit := do
  countEnd .nestedAttributes n
  lengthEnd m

theorem countEnd_eq_ok {what : Counted} {n : Nat} : countEnd what n = .ok () ↔ n < 65536 := by
  unfold countEnd
  split <;> simp_all

theorem lengthEnd_eq_ok {n : Nat} : lengthEnd n = .ok () ↔ n < 2 ^ 32 := by
  unfold lengthEnd
  split <;> simp_all

theorem compositeEnd_eq_ok {n m : Nat} : compositeEnd n m = .ok () ↔ n < 65536 ∧ m < 2 ^ 32 := by
  unfold compositeEnd
  rw [except_bind_eq_ok]
  constructor
  · rintro ⟨_, hn, hm⟩
    exact ⟨countEnd_eq_ok.mp hn, lengthEnd_eq_ok.mp hm⟩
  · rintro ⟨hn, hm⟩
    exact ⟨(), countEnd_eq_ok.mpr hn, lengthEnd_eq_ok.mpr hm⟩

/-- The bytes are as many as the declared ones, and they are these if all went well. Where a section
could not be ended its count or length is still zero. -/
structure StandsFor (well : Prop) (bytes declared : List UInt8) : Prop where
  length : bytes.length = declared.length
  eq : well → bytes = declared

namespace StandsFor

variable {p q : Prop} {x y x' y' : List UInt8}

theorem self (x : List UInt8) : StandsFor True x x := ⟨rfl, fun _ => rfl⟩

theorem append (hx : StandsFor p x x') (hy : StandsFor q y y') :
    StandsFor (p ∧ q) (x ++ y) (x' ++ y') where
  length := by rw [List.length_append, List.length_append, hx.length, hy.length]
  eq h := by rw [hx.eq h.1, hy.eq h.2]

theorem imp (hx : StandsFor p x x') (h : q → p) : StandsFor q x x' := ⟨hx.length, hx.eq ∘ h⟩

theorem encode {length content image : List UInt8} (name : UInt16)
    (hlength : StandsFor p length (bytes32 (UInt32.ofNat content.length)))
    (himage : StandsFor q image content) : StandsFor (p ∧ q) (bytes16 name ++ (length ++ image))
      (Attribute.encode ⟨name, content.toArray⟩) := by
  unfold Attribute.encode
  rw [List.append_assoc]
  exact ((self (bytes16 name)).append (hlength.append himage)).imp fun h => ⟨trivial, h⟩

end StandsFor

section Ends

variable {d : Draft} {list : AttributeList} {base before content written : List UInt8} {n : Nat}

theorem writes_countEnd (what : Counted) (h : list.HoldsBytes true base n written d.bytes) :
    ∃ slot, StandsFor (count32 n < 65536) slot (bytes16 (UInt16.ofNat n)) ∧
      Writes (outcome (list.finish what)) d (countEnd what (count32 n))
        (base ++ (slot ++ written)) := by
  unfold countEnd
  by_cases hfits : count32 n < 65536
  · rw [if_pos hfits]
    exact ⟨_, (StandsFor.self _).imp fun _ => trivial, (h.finish what hfits).writes.outcome⟩
  · obtain ⟨herror, hbytes⟩ := h.finish_error what hfits
    rw [if_neg hfits]
    refine ⟨List.replicate 2 0, ⟨by simp, fun hlt => absurd hlt hfits⟩, ?_⟩
    rw [← hbytes]
    exact writes_outcome_error herror

theorem writes_lengthEnd (h : d.bytes = before ++ List.replicate 4 0 ++ content) :
    ∃ slot, StandsFor (content.length < 2 ^ 32) slot (bytes32 (UInt32.ofNat content.length)) ∧
      Writes (outcome (LengthSlot.finish ⟨before.length⟩)) d (lengthEnd content.length)
        (before ++ slot ++ content) := by
  unfold lengthEnd
  by_cases hfits : content.length < 2 ^ 32
  · rw [if_pos hfits]
    exact ⟨_, (StandsFor.self _).imp fun _ => trivial,
      (LengthSlot.leaves_finish h rfl hfits).writes.outcome⟩
  · rw [if_neg hfits]
    refine ⟨List.replicate 4 0, ⟨by simp, fun hlt => absurd hlt hfits⟩, ?_⟩
    rw [← h]
    exact writes_outcome_error (LengthSlot.finish_error h rfl hfits)

/-- A count that does not fit keeps the length from being filled in as well. -/
theorem writes_compositeEnd (h : list.HoldsBytes true (before ++ List.replicate 4 0 ++ content) n
      written d.bytes) :
    ∃ length count, StandsFor (count32 n < 65536 ∧ content.length + 2 + written.length < 2 ^ 32)
        length (bytes32 (UInt32.ofNat (content.length + 2 + written.length))) ∧
      StandsFor (count32 n < 65536) count (bytes16 (UInt16.ofNat n)) ∧
      Writes (outcome (CompositeAttribute.finish ⟨⟨before.length⟩, list⟩)) d
        (compositeEnd (count32 n) (content.length + 2 + written.length))
        (before ++ length ++ (content ++ (count ++ written))) := by
  unfold compositeEnd
  by_cases hfits : count32 n < 65536
  · obtain ⟨d', hd', hbytes, hpool⟩ := h.finish .nestedAttributes hfits
    rw [List.append_assoc] at hbytes
    obtain ⟨length, hlength, d'', hd'', hbytes'⟩ := writes_lengthEnd hbytes
    rw [hpool] at hbytes'
    have hsize : (content ++ (bytes16 (UInt16.ofNat n) ++ written)).length =
        content.length + 2 + written.length := by simp; omega
    rw [hsize] at hlength hd''
    refine ⟨length, _, hlength.imp fun h => h.2, (StandsFor.self _).imp fun _ => trivial, d'', ?_,
      hbytes'⟩
    rw [countEnd_eq_ok.mpr hfits, except_ok_bind, ← hd'']
    unfold outcome CompositeAttribute.finish
    rw [bind_apply_ok hd']
  · obtain ⟨herror, hbytes⟩ := h.finish_error .nestedAttributes hfits
    refine ⟨List.replicate 4 0, List.replicate 2 0, ⟨by simp, fun hlt => absurd hlt.1 hfits⟩,
      ⟨by simp, fun hlt => absurd hlt hfits⟩, ?_⟩
    have hcount : countEnd .nestedAttributes (count32 n) =
        .error (.countOverflow .nestedAttributes (count32 n)) := if_neg hfits
    rw [hcount, except_error_bind, ← List.append_assoc, ← hbytes]
    exact writes_outcome_error (bind_apply_error herror)

end Ends

/-! ## Forests -/

/-- An attribute that is written in one step. -/
inductive WholeAttribute
  | word (name value : UInt16)
  | empty (name : UInt16)
  | raw (name : UInt16) (info : Bytes)

namespace WholeAttribute

def put : WholeAttribute → AttributeList → DraftM AttributeList
  | word name value, list => list.putWord name value
  | empty name, list => list.putEmpty name
  | raw name info, list => list.putRaw name info

/-- The attribute that comes of it. -/
def made : WholeAttribute → Attribute
  | word name value => ⟨name, (bytes16 value).toArray⟩
  | empty name => ⟨name, #[]⟩
  | raw name info => ⟨name, info⟩

theorem leaves_put {d : Draft} {list : AttributeList} {counted : Bool} {base written : List UInt8}
    {n : Nat} (a : WholeAttribute) (h : list.HoldsBytes counted base n written d.bytes) :
    ∃ list' bytes, Leaves (a.put list) d list' bytes ∧
      list'.HoldsBytes counted base (n + 1) (written ++ a.made.encode) bytes := by
  cases a with
  | word name value => exact h.put (AttributeList.toList_putWord · name value)
  | empty name => exact h.put (AttributeList.toList_putEmpty · name)
  | raw name info => exact h.put (AttributeList.toList_putRaw · name info)

end WholeAttribute

/-- What is done to an open attribute list: one step, then the rest of the forest. -/
inductive AttributeForest
  | done
  | whole (a : WholeAttribute) (next : AttributeForest)
  | simple (name : UInt16) (body : List BodyStep) (next : AttributeForest)
  | composite (name : UInt16) (body : List BodyStep) (nested next : AttributeForest)
  /-- has the count of the list reserved now, unless it is reserved already -/
  | settle (next : AttributeForest)
  | pool (call : PoolCall) (next : AttributeForest)

namespace AttributeForest

open AttributeList

/-- Writes the forest to the list, and tells what each end of an attribute answered. -/
def run : AttributeForest → AttributeList → DraftM (AttributeList × List (Except Error Unit))
  | done, list => pure (list, [])
  | whole a next, list => do
    next.run (← a.put list)
  | simple name body next, list => do
    let (list, slot) ← list.startAttribute name
    body.forM (BodyStep.run (slot.offset + 4))
    let last ← outcome slot.finish
    let (list, ends) ← next.run list
    return (list, last :: ends)
  | composite name body nested next, list => do
    let (list, a) ← CompositeAttribute.start list name
    body.forM (BodyStep.run (a.length.offset + 4))
    let (inner, innerEnds) ← nested.run a.nested
    let last ← outcome (CompositeAttribute.finish { a with nested := inner })
    let (list, ends) ← next.run list
    return (list, innerEnds ++ last :: ends)
  | settle next, list => do
    next.run (← list.settle)
  | pool call next, list => do
    onPool call.attempt
    next.run list

/-- As `run`, for a list that is kept elsewhere. -/
def extend (forest : AttributeForest) (list : AttributeList) :
    DraftM (List (Except Error Unit) × AttributeList) := do
  let (list, answers) ← forest.run list
  return (answers, list)

/-- The content of a composite attribute. -/
def contentWith (body : List BodyStep) (nested : List Attribute) : List UInt8 :=
  BodyStep.content body ++ encodeCounted Attribute.encode nested

def attributes : AttributeForest → List Attribute
  | done => []
  | whole a next => a.made :: next.attributes
  | simple name body next => ⟨name, (BodyStep.content body).toArray⟩ :: next.attributes
  | composite name body nested next =>
    ⟨name, (contentWith body nested.attributes).toArray⟩ :: next.attributes
  | settle next => next.attributes
  | pool _ next => next.attributes

/-- What the ends of its attributes answer, in the order in which they are reached, where `count`
tells what a counter shows. -/
def endsBy (count : Nat → Nat) : AttributeForest → List (Except Error Unit)
  | done => []
  | whole _ next => next.endsBy count
  | simple _ body next => lengthEnd (BodyStep.content body).length :: next.endsBy count
  | composite _ body nested next =>
    nested.endsBy count ++ compositeEnd (count nested.attributes.length)
      (contentWith body nested.attributes).length :: next.endsBy count
  | settle next => next.endsBy count
  | pool _ next => next.endsBy count

/-- Nested attributes are counted in 32 bits. -/
abbrev ends (forest : AttributeForest) : List (Except Error Unit) := forest.endsBy count32

def EndsWell (forest : AttributeForest) : Prop := ∀ answer ∈ forest.ends, answer = .ok ()

def PatchesInside : AttributeForest → Prop
  | done => True
  | whole _ next => next.PatchesInside
  | simple _ body next => BodyStep.AllInside [] body ∧ next.PatchesInside
  | composite _ body nested next =>
    BodyStep.AllInside [] body ∧ nested.PatchesInside ∧ next.PatchesInside
  | settle next => next.PatchesInside
  | pool _ next => next.PatchesInside

/-- Nested attributes and the bytes of whole ones can be counted in 32 bits. For the other contents
their ends see to that. -/
def Bounded : AttributeForest → Prop
  | done => True
  | whole a next => a.made.info.size < 2 ^ 32 ∧ next.Bounded
  | simple _ _ next => next.Bounded
  | composite _ _ nested next =>
    nested.attributes.length < 2 ^ 32 ∧ nested.Bounded ∧ next.Bounded
  | settle next => next.Bounded
  | pool _ next => next.Bounded

instance decidableBounded : DecidablePred Bounded
  | done => inferInstanceAs (Decidable True)
  | simple _ _ next | settle next | pool _ next => decidableBounded next
  | whole a next =>
    have := decidableBounded next
    inferInstanceAs (Decidable (a.made.info.size < 2 ^ 32 ∧ next.Bounded))
  | composite _ _ nested next =>
    have := decidableBounded nested
    have := decidableBounded next
    inferInstanceAs
      (Decidable (nested.attributes.length < 2 ^ 32 ∧ nested.Bounded ∧ next.Bounded))

/-- The lengths and counts that are written are those of the contents and the nested lists. -/
def Exact : AttributeForest → Prop
  | done => True
  | whole a next => (UInt32.ofNat a.made.info.size).toNat = a.made.info.size ∧ next.Exact
  | simple _ body next =>
    (UInt32.ofNat (BodyStep.content body).length).toNat = (BodyStep.content body).length ∧
      next.Exact
  | composite _ body nested next =>
    let content := contentWith body nested.attributes
    (UInt32.ofNat content.length).toNat = content.length ∧
      (UInt16.ofNat nested.attributes.length).toNat = nested.attributes.length ∧
      nested.Exact ∧ next.Exact
  | settle next => next.Exact
  | pool _ next => next.Exact

section EndsWell

variable {name : UInt16} {body : List BodyStep} {forest nested next : AttributeForest}

theorem endsWell_simple : (simple name body next).EndsWell ↔
    (BodyStep.content body).length < 2 ^ 32 ∧ next.EndsWell := by
  unfold EndsWell ends
  rw [endsBy, List.forall_mem_cons, lengthEnd_eq_ok]

theorem endsWell_composite : (composite name body nested next).EndsWell ↔ nested.EndsWell ∧
    (count32 nested.attributes.length < 65536 ∧
      (contentWith body nested.attributes).length < 2 ^ 32) ∧ next.EndsWell := by
  unfold EndsWell ends
  rw [endsBy, List.forall_mem_append, List.forall_mem_cons, compositeEnd_eq_ok]

theorem EndsWell.exact (h : forest.EndsWell) (hb : forest.Bounded) : forest.Exact := by
  induction forest with
  | done => trivial
  | settle next ih | pool _ next ih => exact ih h hb
  | whole a next ih => exact ⟨UInt32.toNat_ofNat_of_lt' hb.1, ih h hb.2⟩
  | simple name body next ih =>
    obtain ⟨hlength, hnext⟩ := endsWell_simple.mp h
    exact ⟨UInt32.toNat_ofNat_of_lt' hlength, ih hnext hb⟩
  | composite name body nested next ihNested ih =>
    obtain ⟨hcount32, hbNested, hbNext⟩ := hb
    obtain ⟨hnested, ⟨hcount, hlength⟩, hnext⟩ := endsWell_composite.mp h
    rw [count32_of_lt hcount32] at hcount
    exact ⟨UInt32.toNat_ofNat_of_lt' hlength, UInt16.toNat_ofNat_of_lt' hcount,
      ihNested hnested hbNested, ih hnext hbNext⟩

theorem EndsWell.fits (h : forest.EndsWell) (hb : forest.Bounded) :
    ∀ a ∈ forest.attributes, a.Fits := by
  induction forest with
  | done => simp [attributes]
  | settle next ih | pool _ next ih => exact ih h hb
  | whole a next ih =>
    rw [attributes, List.forall_mem_cons]
    exact ⟨hb.1, ih h hb.2⟩
  | simple name body next ih =>
    obtain ⟨hlength, hnext⟩ := endsWell_simple.mp h
    rw [attributes, List.forall_mem_cons]
    exact ⟨hlength, ih hnext hb⟩
  | composite name body nested next _ ih =>
    obtain ⟨-, ⟨-, hlength⟩, hnext⟩ := endsWell_composite.mp h
    rw [attributes, List.forall_mem_cons]
    exact ⟨hlength, ih hnext hb.2.2⟩

end EndsWell

/-! ## Runs -/

section Run

variable {d d' : Draft} {list list' : AttributeList} {counted : Bool} {α β : Type} {x : DraftM β}
  {f : β → DraftM (AttributeList × α)} {y : DraftM (AttributeList × α)} {b : β} {ends : α}
  {p q r : Prop} {base written image bytes : List UInt8} {n : Nat} {a : Attribute}
  {attrs : List Attribute} {name : UInt16} {body : List BodyStep} {nested next : AttributeForest}

/-- The step writes these attributes behind the `n` that the list has. -/
def Adds (counted : Bool) (base : List UInt8) (n : Nat) (written : List UInt8) (d : Draft)
    (y : DraftM (AttributeList × α)) (ends : α) (well : Prop) (attrs : List Attribute) : Prop :=
  ∃ list image bytes, StandsFor well image (attrs.flatMap Attribute.encode) ∧
    list.HoldsBytes counted base (n + attrs.length) (written ++ image) bytes ∧
    Writes y d (list, ends) bytes

theorem adds_nil (ends : α) (h : list.HoldsBytes counted base n written d.bytes) :
    Adds counted base n written d (pure (list, ends)) ends True [] := by
  refine ⟨list, [], d.bytes, .self [], ?_, writes_pure d _⟩
  rw [List.append_nil]
  exact h

theorem Adds.bind (hx : Writes x d b bytes) (h : ∀ d', d'.bytes = bytes →
      Adds counted base n written d' (f b) ends p attrs) :
    Adds counted base n written d (x >>= f) ends p attrs := by
  obtain ⟨d₁, hd₁, hbytes, hgrows⟩ := hx
  obtain ⟨list, image, bytes', himage, hlist, d₂, hd₂, hbytes', hgrows'⟩ := h d₁ hbytes
  exact ⟨list, image, bytes', himage, hlist, d₂, (bind_apply_ok hd₁).trans hd₂, hbytes',
    hgrows.trans hgrows'⟩

theorem Adds.cons (himage : StandsFor p image a.encode)
    (h : Adds counted base (n + 1) (written ++ image) d y ends q attrs) :
    Adds counted base n written d y ends (p ∧ q) (a :: attrs) := by
  obtain ⟨list, image', bytes, himage', hlist, hwrites⟩ := h
  refine ⟨list, image ++ image', bytes, himage.append himage', ?_, hwrites⟩
  rw [List.append_assoc] at hlist
  rw [List.length_cons, Nat.add_comm attrs.length, ← Nat.add_assoc]
  exact hlist

theorem Adds.imp (h : Adds counted base n written d y ends p attrs) (hp : q → p) :
    Adds counted base n written d y ends q attrs := by
  obtain ⟨list, image, bytes, himage, hrest⟩ := h
  exact ⟨list, image, bytes, himage.imp hp, hrest⟩

theorem Adds.map (g : α → β) (h : Adds counted base n written d y ends p attrs) :
    Adds counted base n written d (do let (list, ends) ← y; return (list, g ends)) (g ends) p
      attrs := by
  obtain ⟨list, image, bytes, himage, hlist, hwrites⟩ := h
  exact ⟨list, image, bytes, himage, hlist, hwrites.bind fun d₁ h₁ => h₁ ▸ writes_pure d₁ _⟩

theorem Adds.whole (hx : Writes x d b bytes) (h : ∀ d', d'.bytes = bytes →
      Adds counted base (n + 1) (written ++ a.encode) d' (f b) ends p attrs) :
    Adds counted base n written d (x >>= f) ends p (a :: attrs) :=
  .bind hx fun d' hd' => ((h d' hd').cons (.self _)).imp fun hp => ⟨trivial, hp⟩

theorem writes_body (h : d.bytes = bytes ++ (bytes16 name ++ List.replicate 4 0))
    (hin : BodyStep.AllInside [] body) :
    Writes (body.forM (BodyStep.run (bytes.length + 2 + 4))) d ()
      (bytes ++ bytes16 name ++ List.replicate 4 0 ++ BodyStep.content body) := by
  have hlen : (bytes ++ (bytes16 name ++ List.replicate 4 0)).length = bytes.length + 2 + 4 := by
    simp
  rw [← hlen, List.append_assoc bytes]
  exact BodyStep.writes_forM body (by rw [h, List.append_nil]) hin

theorem allInside_of_body {f : Unit → DraftM β} {b : β}
    (h : d.bytes = bytes ++ (bytes16 name ++ List.replicate 4 0))
    (hrun : (body.forM (BodyStep.run (bytes.length + 2 + 4)) >>= f) d = .ok b d') :
    BodyStep.AllInside [] body := by
  have hlen : (bytes ++ (bytes16 name ++ List.replicate 4 0)).length = bytes.length + 2 + 4 := by
    simp
  obtain ⟨_, t, hbody, -⟩ := bind_eq_ok.mp hrun
  rw [← hlen] at hbody
  exact BodyStep.allInside_of_forM body (by rw [h, List.append_nil]) hbody

theorem writes_startComposite {bytes' : List UInt8}
    (h : Leaves (list.startAttribute name) d (list', ⟨bytes.length + 2⟩) bytes') :
    Writes (CompositeAttribute.start list name) d (list', ⟨⟨bytes.length + 2⟩, .pending⟩) bytes' :=
  h.writes.bind fun d' hd' => hd' ▸ writes_pure d' _

theorem writes_run (forest : AttributeForest)
    (h : list.HoldsBytes counted base n written d.bytes) (hin : forest.PatchesInside) :
    Adds counted base n written d (forest.run list) forest.ends forest.EndsWell
      forest.attributes := by
  -- a nested list begins at another place, with nothing written
  induction forest generalizing list d counted base n written with
  | done => exact (adds_nil _ h).imp fun _ => trivial
  | whole a next ih =>
    obtain ⟨list₁, bytes, hleaves, hlist₁⟩ := a.leaves_put h
    exact .whole hleaves.writes fun d₁ hd₁ => ih (hd₁ ▸ hlist₁) hin
  | simple name body next ih =>
    obtain ⟨list₁, bytes, hleaves, hlist₁⟩ := h.startAttribute name
    refine .bind hleaves.writes fun d₁ hd₁ => .bind (writes_body hd₁ hin.1) fun d₂ hd₂ => ?_
    obtain ⟨length, hlength, hend⟩ := writes_lengthEnd hd₂
    rw [List.length_append, length_bytes16, List.append_assoc, List.append_assoc] at hend
    refine .imp (.cons (q := next.EndsWell) (hlength.encode name (.self _)) ?_) fun h => ?_
    · refine .bind hend fun d₃ hd₃ => ?_
      have hnext := ih (hd₃ ▸ hlist₁ _) hin.2
      exact hnext.map (lengthEnd _ :: ·)
    · obtain ⟨hfits, hnext⟩ := endsWell_simple.mp h
      exact ⟨⟨hfits, trivial⟩, hnext⟩
  | composite name body nested next ihNested ih =>
    obtain ⟨list₁, bytes, hleaves, hlist₁⟩ := h.startAttribute name
    refine .bind (writes_startComposite hleaves) fun d₁ hd₁ =>
      .bind (writes_body hd₁ hin.1) fun d₂ hd₂ => ?_
    have hpending : AttributeList.pending.HoldsBytes true d₂.bytes 0 [] d₂.bytes :=
      ⟨rfl, rfl, rfl, rfl⟩
    obtain ⟨inner, image, _, himage, hinner, hnested⟩ := ihNested hpending hin.2.1
    refine .bind hnested fun d₃ hd₃ => ?_
    rw [hd₂, Nat.zero_add, List.nil_append, ← hd₃] at hinner
    obtain ⟨length, count, hlength, hcount, hend⟩ := writes_compositeEnd hinner
    rw [List.length_append, length_bytes16, List.append_assoc, List.append_assoc] at hend
    have hcontent : (contentWith body nested.attributes).length =
        (BodyStep.content body).length + 2 + image.length := by
      unfold contentWith encodeCounted
      simp [himage.length, Nat.add_assoc]
    rw [← hcontent] at hlength hend
    have hpayload := (StandsFor.self (BodyStep.content body)).append (hcount.append himage)
    refine .imp (.cons (q := next.EndsWell) (hlength.encode name hpayload) ?_) fun h => ?_
    · refine .bind hend fun d₄ hd₄ => ?_
      have hnext := ih (hd₄ ▸ hlist₁ _) hin.2.2
      exact hnext.map (nested.ends ++ compositeEnd _ _ :: ·)
    · obtain ⟨hnested, hfits, hnext⟩ := endsWell_composite.mp h
      exact ⟨⟨hfits, trivial, hfits.1, hnested⟩, hnext⟩
  | settle next ih =>
    obtain ⟨list₁, bytes, hleaves, hlist₁⟩ := h.settle
    exact .bind hleaves.writes fun d₁ hd₁ => ih (hd₁ ▸ hlist₁) hin
  | pool call next ih =>
    exact .bind (writes_attempt d call) fun d₁ hd₁ => ih (hd₁ ▸ h) hin

/-- What a run gives back: a patch outside would have stopped it. -/
theorem patchesInside_of_run (forest : AttributeForest)
    {result : AttributeList × List (Except Error Unit)}
    (h : list.HoldsBytes counted base n written d.bytes)
    (hrun : forest.run list d = .ok result d') : forest.PatchesInside := by
  induction forest generalizing list result d d' counted base n written with
  | done => trivial
  | whole a next ih =>
    obtain ⟨list₁, bytes, hleaves, hlist₁⟩ := a.leaves_put h
    obtain ⟨d₁, hd₁, hnext⟩ := hleaves.writes.bind_eq_ok hrun
    exact ih (hd₁ ▸ hlist₁) hnext
  | simple name body next ih =>
    obtain ⟨list₁, bytes, hleaves, hlist₁⟩ := h.startAttribute name
    obtain ⟨d₁, hd₁, hrest⟩ := hleaves.writes.bind_eq_ok hrun
    have hbody := allInside_of_body hd₁ hrest
    obtain ⟨d₂, hd₂, hrest⟩ := (writes_body hd₁ hbody).bind_eq_ok hrest
    obtain ⟨length, -, hend⟩ := writes_lengthEnd hd₂
    rw [List.length_append, length_bytes16, List.append_assoc, List.append_assoc] at hend
    obtain ⟨d₃, hd₃, hrest⟩ := hend.bind_eq_ok hrest
    obtain ⟨_, d₄, hnext, -⟩ := bind_eq_ok.mp hrest
    exact ⟨hbody, ih (hd₃ ▸ hlist₁ _) hnext⟩
  | composite name body nested next ihNested ih =>
    obtain ⟨list₁, bytes, hleaves, hlist₁⟩ := h.startAttribute name
    obtain ⟨d₁, hd₁, hrest⟩ := (writes_startComposite hleaves).bind_eq_ok hrun
    have hbody := allInside_of_body hd₁ hrest
    obtain ⟨d₂, hd₂, hrest⟩ := (writes_body hd₁ hbody).bind_eq_ok hrest
    have hpending : AttributeList.pending.HoldsBytes true d₂.bytes 0 [] d₂.bytes :=
      ⟨rfl, rfl, rfl, rfl⟩
    obtain ⟨_, d₃, hnestedRun, -⟩ := bind_eq_ok.mp hrest
    have hnestedInside := ihNested hpending hnestedRun
    obtain ⟨inner, image, _, -, hinner, hnested⟩ := writes_run nested hpending hnestedInside
    obtain ⟨d₃, hd₃, hrest⟩ := hnested.bind_eq_ok hrest
    rw [hd₂, Nat.zero_add, List.nil_append, ← hd₃] at hinner
    obtain ⟨length, count, -, -, hend⟩ := writes_compositeEnd hinner
    rw [List.length_append, length_bytes16, List.append_assoc, List.append_assoc] at hend
    obtain ⟨d₄, hd₄, hrest⟩ := hend.bind_eq_ok hrest
    obtain ⟨_, d₅, hnext, -⟩ := bind_eq_ok.mp hrest
    exact ⟨hbody, hnestedInside, ih (hd₄ ▸ hlist₁ _) hnext⟩
  | settle next ih =>
    obtain ⟨list₁, bytes, hleaves, hlist₁⟩ := h.settle
    obtain ⟨d₁, hd₁, hnext⟩ := hleaves.writes.bind_eq_ok hrun
    exact ih (hd₁ ▸ hlist₁) hnext
  | pool call next ih =>
    obtain ⟨d₁, hd₁, hnext⟩ := (writes_attempt d call).bind_eq_ok hrun
    exact ih (hd₁ ▸ h) hnext

theorem extend_eq_ok {forest : AttributeForest} {answers : List (Except Error Unit)}
    (h : list.HoldsBytes counted base n written d.bytes)
    (hrun : forest.extend list d = .ok (answers, list') d') :
    answers = forest.ends ∧ d.pool.GrowsTo d'.pool ∧
      (forest.EndsWell → list'.HoldsBytes counted base (n + forest.attributes.length)
        (written ++ forest.attributes.flatMap Attribute.encode) d'.bytes) := by
  obtain ⟨⟨_, _⟩, _, hforest, hpure⟩ := bind_eq_ok.mp hrun
  obtain ⟨hpair, rfl⟩ := pure_eq_ok.mp hpure
  obtain ⟨rfl, rfl⟩ := Prod.mk.inj hpair
  have hin := forest.patchesInside_of_run h hforest
  obtain ⟨list₁, image, bytes, himage, hlist₁, hwrites⟩ := forest.writes_run h hin
  obtain ⟨hresult, hbytes, hgrows⟩ := hwrites.eq_of_ok hforest
  obtain ⟨rfl, rfl⟩ := Prod.mk.inj hresult
  refine ⟨rfl, hgrows, fun hwell => ?_⟩
  rw [hbytes, ← himage.eq hwell]
  exact hlist₁

end Run

end AttributeForest

end JavaClass
