import JavaClass.Proofs.Agreement
import JavaClass.Proofs.ClassScripts
import JavaClass.Proofs.Truncation

/-!
# Code attributes

A code attribute is written as a content, then a nested attribute list, and read by a decoder that
knows nothing of the writer. What was written is found again under its name, and the decoder needs
all of the content but nothing behind it.
-/

namespace JavaClass

/-! ## The encoding -/

def ExceptionHandler.encode (h : ExceptionHandler) : List UInt8 :=
  bytes16 h.startPc ++ (bytes16 h.endPc ++ (bytes16 h.handlerPc ++ bytes16 h.catchType))

namespace Code

/-- What stands in front of the nested attributes. -/
def encodeContent (c : Code) : List UInt8 :=
  bytes16 c.maxStack ++ (bytes16 c.maxLocals ++ (bytes32 (UInt32.ofNat c.instructions.size) ++
    (c.instructions.toList ++ encodeCounted ExceptionHandler.encode c.handlers)))

def encode (c : Code) : List UInt8 :=
  c.encodeContent ++ encodeCounted Attribute.encode c.attributes

structure Fits (c : Code) : Prop where
  instructions : c.instructions.size < 2 ^ 32
  handlers : c.handlers.length < 65536
  count : c.attributes.length < 65536
  attributes : ∀ a ∈ c.attributes, a.Fits

theorem length_le_flatMap {l : List Attribute} {a : Attribute} (h : a ∈ l) :
    a.info.size ≤ (l.flatMap Attribute.encode).length := by
  have hsize : a.info.size ≤ a.encode.length := by
    simp only [Attribute.encode, List.length_append, Array.length_toList]
    omega
  exact hsize.trans (List.sublist_flatten_of_mem (List.mem_map_of_mem h)).length_le

theorem fits_of_length {c : Code} (hhandlers : c.handlers.length < 65536)
    (hcount : c.attributes.length < 65536) (h : c.encode.length < 2 ^ 32) : c.Fits where
  instructions := by
    simp only [encode, encodeContent, List.length_append, Array.length_toList] at h
    omega
  handlers := hhandlers
  count := hcount
  attributes a ha := by
    have hle := length_le_flatMap ha
    simp only [encode, encodeCounted, List.length_append] at h
    show a.info.size < 2 ^ 32
    omega

end Code

/-! ## The decoder -/

namespace Decoder

variable {α : Type} {item : Decoder α} {encode : α → List UInt8}

/-- The checked walk finds the end of the list, the other one its items. -/
theorem attributes_eq_ok {c : Cursor} {l : List Attribute} (hlen : l.length < 65536)
    (hfits : ∀ a ∈ l, a.Fits)
    (h : c.bytes.HasAt c.position (encodeCounted Attribute.encode l)) :
    attributes c = .ok l ⟨c.bytes, c.position + (encodeCounted Attribute.encode l).length⟩ := by
  have hparts := h
  unfold encodeCounted at hparts
  rw [Bytes.hasAt_append, length_bytes16] at hparts
  have hcount := (reads_u16 c _ (UInt16.ofNat l.length) h.1).mpr ⟨_, rfl, hparts.1, rfl⟩
  have hnumber : (UInt16.ofNat l.length).toNat = l.length := UInt16.toNat_ofNat_of_lt' hlen
  have hend : (encodeCounted Attribute.encode l).length =
      2 + (l.flatMap Attribute.encode).length := by
    simp [encodeCounted]
  have hskip : times attributeInfo l.length ⟨c.bytes, c.position + 2⟩ =
      .ok () ⟨c.bytes, c.position + (encodeCounted Attribute.encode l).length⟩ := by
    rw [hend, ← Nat.add_assoc]
    exact (reads_times reads_attributeInfo l.length _ _ () hparts.2.1).mpr
      ⟨_, ⟨l, rfl, hfits, rfl⟩, hparts.2, rfl⟩
  obtain ⟨s, hspan, hat⟩ := Bytes.span_hasAt h le_rfl h.le
  refine (bind_apply_ok rfl).trans ((bind_apply_ok hcount).trans ?_)
  rw [length_bytes16, hnumber]
  refine (bind_apply_ok hskip).trans ((bind_apply_ok rfl).trans ((bind_apply_ok rfl).trans ?_))
  refine (bind_apply_ok (lift_eq_ok.mpr ⟨hspan, rfl⟩)).trans ?_
  exact lift_eq_ok.mpr ⟨Span.attributes_eq_ok hlen hfits hat, rfl⟩

end Decoder

/-! ## Forests one behind the other -/

namespace AttributeForest

/-- One forest, then another one on the same list. -/
def andThen : AttributeForest → AttributeForest → AttributeForest
  | done, more => more
  | whole a next, more => whole a (next.andThen more)
  | simple name body next, more => simple name body (next.andThen more)
  | composite name body nested next, more => composite name body nested (next.andThen more)
  | settle next, more => settle (next.andThen more)
  | pool call next, more => pool call (next.andThen more)

variable {forest more : AttributeForest}

theorem PatchesInside.andThen (h : forest.PatchesInside) (hmore : more.PatchesInside) :
    (forest.andThen more).PatchesInside := by
  induction forest with
  | done => exact hmore
  | whole a next ih | settle next ih | pool call next ih => exact ih h
  | simple name body next ih => exact ⟨h.1, ih h.2⟩
  | composite name body nested next _ ih => exact ⟨h.1, h.2.1, ih h.2.2⟩

theorem EndsWell.andThen (h : forest.EndsWell) (hmore : more.EndsWell) :
    (forest.andThen more).EndsWell := by
  induction forest with
  | done => exact hmore
  | whole a next ih | settle next ih | pool call next ih => exact ih h
  | simple name body next ih =>
    obtain ⟨hlength, hnext⟩ := endsWell_simple.mp h
    exact endsWell_simple.mpr ⟨hlength, ih hnext⟩
  | composite name body nested next _ ih =>
    obtain ⟨hnested, hfits, hnext⟩ := endsWell_composite.mp h
    exact endsWell_composite.mpr ⟨hnested, hfits, ih hnext⟩

end AttributeForest

/-! ## Names of attributes -/

namespace ConstantTable

/-- The index is that of a text constant, which decodes to the text. -/
def Spells (t : ConstantTable) (index : UInt16) (text : String) : Prop :=
  t.tag? index = some .utf8 ∧ t.text index = .ok text

variable {t u : ConstantTable} {offset offset' : Nat} {cs : List Constant} {index : UInt16}
  {text : String} {a : Attribute}

end ConstantTable

/-! ## Writing code -/

def ExceptionHandler.steps (h : ExceptionHandler) : List BodyStep :=
  [.u16 h.startPc, .u16 h.endPc, .u16 h.handlerPc, .u16 h.catchType]

namespace Code

def steps (c : Code) : List BodyStep :=
  [.u16 c.maxStack, .u16 c.maxLocals, .u32 (UInt32.ofNat c.instructions.size),
    .bytes c.instructions, .u16 (UInt16.ofNat c.handlers.length)] ++
  c.handlers.flatMap ExceptionHandler.steps

variable {code : Code} {name : UInt16} {body : List BodyStep} {nested later : AttributeForest}

end Code

/-! ## Round trip -/

namespace CodeSample

def code : Code where
  maxStack := 2
  maxLocals := 1
  instructions := #[0x2A, 0xB1]
  handlers := [⟨0, 1, 1, 0⟩]
  attributes := [⟨1, #[7]⟩]

def nested : AttributeForest := .settle (.whole (.raw 1 #[7]) .done)

def method : MemberVisit where
  flags := ⟨9⟩
  names := .indexes 1 1
  attributes := AttributeForest.andThen (.whole (.empty 2) .done)
    (.composite 1 code.steps nested .done)

def call : PoolCall := .encodedText #[0x43, 0x6F, 0x64, 0x65]

def script : ClassScript where
  calls := [call]
  version := .v1_8
  flags := ⟨0x21⟩
  names := .indexes 1 0 []
  steps := [.member .method method]

def pool : ConstantPool where
  entries := ⟨#[1, 0, 4, 0x43, 0x6F, 0x64, 0x65], 200, Growth.pool⟩
  starts := #[none, some 0]
  texts := (∅ : Std.HashMap Bytes UInt16).insert #[0x43, 0x6F, 0x64, 0x65] 1
  names := ∅

end CodeSample
end JavaClass
