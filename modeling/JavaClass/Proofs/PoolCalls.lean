import JavaClass.Proofs.Interning

/-!
# Runs of calls on a pool

Calls whose tags suit their payloads, in any order. Whatever fails in between, the pool represents
a list of distinct constants that only grows at its end, so an index once answered stays good.
-/

namespace JavaClass

/-! ## Interning several constants -/

namespace Payload

variable {tag : Tag}

theorem suits_reference (h : tag.payloadLength? = some 2) (index : UInt16) :
    (reference index).Suits tag := by
  unfold Suits
  rw [h, encode, length_bytes16]

theorem suits_word (h : tag.payloadLength? = some 4) (value : UInt32) :
    (word value).Suits tag := by
  unfold Suits
  rw [h, encode, length_bytes32]

theorem suits_references (h : tag.payloadLength? = some 4) (first second : UInt16) :
    (references first second).Suits tag :=
  suits_word h _

theorem suits_nameAndType (first second : UInt16) : (references first second).Suits .nameAndType :=
  suits_references rfl first second

theorem suits_wide (h : tag.payloadLength? = some 8) (value : UInt64) :
    (wide value).Suits tag := by
  unfold Suits
  rw [h, encode, length_bytes64]

theorem suits_handle (kind : UInt8) (index : UInt16) :
    (handle kind index).Suits .methodHandle := by
  simp [Suits, encode, Tag.payloadLength?, Tag.shape]

end Payload

namespace Constant

def internTextReference (tag : Tag) (suits : tag.payloadLength? = some 2) (value : String) :
    EStateM Error (List Constant) UInt16 := do
  let index ← internText (ModifiedUtf8.encode value)
  intern (ofPayload tag (.reference index) (Payload.suits_reference suits index))

def internNameAndType (name descriptor : String) : EStateM Error (List Constant) UInt16 := do
  let nameIndex ← internText (ModifiedUtf8.encode name)
  let descriptorIndex ← internText (ModifiedUtf8.encode descriptor)
  intern (ofPayload .nameAndType (.references nameIndex descriptorIndex)
    (Payload.suits_references rfl nameIndex descriptorIndex))

def internMemberRef (tag : Tag) (suits : tag.payloadLength? = some 4)
    (owner name descriptor : String) : EStateM Error (List Constant) UInt16 := do
  let classIndex ← internTextReference .classInfo rfl owner
  let memberIndex ← internNameAndType name descriptor
  intern (ofPayload tag (.references classIndex memberIndex)
    (Payload.suits_references suits classIndex memberIndex))

variable {α β : Type} {cs ds : List Constant}

/-- Whether it succeeds or not, the step only appends constants. -/
def Grows (step : EStateM Error (List Constant) α) : Prop :=
  ∀ cs ds, (∀ a, step cs = .ok a ds → cs <+: ds) ∧ (∀ e, step cs = .error e ds → cs <+: ds)

theorem Grows.bind {step : EStateM Error (List Constant) α}
    {next : α → EStateM Error (List Constant) β} (hstep : Grows step)
    (hnext : ∀ a, Grows (next a)) : Grows (step >>= next) := by
  intro cs ds
  cases hcs : step cs with
  | ok a es =>
    rw [bind_apply_ok hcs]
    have hfirst := (hstep cs es).1 a hcs
    exact ⟨fun b h => hfirst.trans ((hnext a es ds).1 b h),
      fun e h => hfirst.trans ((hnext a es ds).2 e h)⟩
  | error e es =>
    rw [bind_apply_error hcs]
    have hfirst := (hstep cs es).2 e hcs
    constructor
    · rintro b ⟨⟩
    · rintro _ ⟨⟩
      exact hfirst

theorem grows_intern (c : Constant) : Grows (intern c) := by
  intro cs ds
  refine ⟨fun index h => (intern_eq_ok h).1, fun e h => ?_⟩
  unfold intern at h
  split at h
  · cases h
  · split at h
    · cases h
    · obtain ⟨-, rfl⟩ := EStateM.Result.error.inj h
      exact List.prefix_rfl

theorem grows_internText (text : Bytes) : Grows (internText text) := by
  unfold internText
  split
  · exact grows_intern _
  · intro cs ds
    constructor
    · rintro _ ⟨⟩
    · rintro _ ⟨⟩
      exact List.prefix_rfl

theorem grows_internTextReference (tag : Tag) (suits : tag.payloadLength? = some 2)
    (value : String) : Grows (internTextReference tag suits value) :=
  (grows_internText _).bind fun _ => grows_intern _

theorem grows_internNameAndType (name descriptor : String) :
    Grows (internNameAndType name descriptor) :=
  (grows_internText _).bind fun _ => (grows_internText _).bind fun _ => grows_intern _

theorem grows_internMemberRef (tag : Tag) (suits : tag.payloadLength? = some 4)
    (owner name descriptor : String) : Grows (internMemberRef tag suits owner name descriptor) :=
  (grows_internTextReference _ _ _).bind fun _ =>
    (grows_internNameAndType _ _).bind fun _ => grows_intern _

/-- An index that the step answers is that of a constant of the list. -/
def Answers (step : EStateM Error (List Constant) UInt16) : Prop :=
  ∀ cs ds index, step cs = .ok index ds → ∃ c ∈ ds, index = UInt16.ofNat (indexOf c ds)

theorem Answers.after {step : EStateM Error (List Constant) α}
    {next : α → EStateM Error (List Constant) UInt16} (hnext : ∀ a, Answers (next a)) :
    Answers (step >>= next) := by
  intro cs ds index h
  obtain ⟨a, es, -, hlast⟩ := bind_eq_ok.mp h
  exact hnext a es ds index hlast

theorem answers_intern (c : Constant) : Answers (intern c) := by
  intro cs ds index h
  obtain ⟨-, hmem, hindex⟩ := intern_eq_ok h
  exact ⟨c, hmem, hindex⟩

theorem answers_internText (text : Bytes) : Answers (internText text) := by
  intro cs ds index h
  obtain ⟨short, hok⟩ := internText_eq_ok h
  exact answers_intern _ cs ds index hok

theorem answers_internMemberRef (tag : Tag) (suits : tag.payloadLength? = some 4)
    (owner name descriptor : String) :
    Answers (internMemberRef tag suits owner name descriptor) :=
  .after fun _ => .after fun _ => answers_intern _

end Constant

namespace PoolM

open Constant

theorem refines_textReference (tag : Tag) (suits : tag.payloadLength? = some 2) (value : String) :
    Refines (textReference tag value) (internTextReference tag suits value) :=
  (refines_text value).bind fun _ => refines_constant _

theorem refines_nameAndType (name descriptor : String) :
    Refines (nameAndType name descriptor) (internNameAndType name descriptor) :=
  (refines_text name).bind fun _ => (refines_text descriptor).bind fun _ => refines_constant _

theorem refines_memberRef (tag : Tag) (suits : tag.payloadLength? = some 4)
    (owner name descriptor : String) :
    Refines (memberRef tag owner name descriptor)
      (internMemberRef tag suits owner name descriptor) :=
  (refines_textReference .classInfo rfl owner).bind fun _ =>
    (refines_nameAndType name descriptor).bind fun _ => refines_constant _

end PoolM

/-! ## Calls -/

/-- A call on a pool under construction. Where the caller chooses the tag, it suits the payload. -/
inductive PoolCall
  | text (value : String)
  | encodedText (bytes : Bytes)
  | word (tag : Tag) (suits : tag.payloadLength? = some 4) (value : UInt32)
  | wide (tag : Tag) (suits : tag.payloadLength? = some 8) (value : UInt64)
  | reference (tag : Tag) (suits : tag.payloadLength? = some 2) (index : UInt16)
  | references (tag : Tag) (suits : tag.payloadLength? = some 4) (first second : UInt16)
  | handle (kind : UInt8) (index : UInt16)
  | int (value : Int32)
  | float (bits : UInt32)
  | long (value : Int64)
  | double (bits : UInt64)
  | classInfo (name : String)
  | string (value : String)
  | methodType (descriptor : String)
  | nameAndType (name descriptor : String)
  | memberRef (tag : Tag) (suits : tag.payloadLength? = some 4) (owner name descriptor : String)
  | fieldRef (owner name descriptor : String)
  | methodRef (owner name descriptor : String)
  | interfaceMethodRef (owner name descriptor : String)
  | attributeName (name : AttributeName)

namespace PoolCall

open Constant

/-- The call on the pool. -/
def run : PoolCall → PoolM UInt16
  | text value => PoolM.text value
  | encodedText bytes => PoolM.encodedText bytes
  | word tag _ value => PoolM.constant tag (.word value)
  | wide tag _ value => PoolM.constant tag (.wide value)
  | reference tag _ index => PoolM.reference tag index
  | references tag _ first second => PoolM.references tag first second
  | handle kind index => PoolM.handle kind index
  | int value => PoolM.int value
  | float bits => PoolM.float bits
  | long value => PoolM.long value
  | double bits => PoolM.double bits
  | classInfo name => PoolM.classInfo name
  | string value => PoolM.string value
  | methodType descriptor => PoolM.methodType descriptor
  | nameAndType name descriptor => PoolM.nameAndType name descriptor
  | memberRef tag _ owner name descriptor => PoolM.memberRef tag owner name descriptor
  | fieldRef owner name descriptor => PoolM.fieldRef owner name descriptor
  | methodRef owner name descriptor => PoolM.methodRef owner name descriptor
  | interfaceMethodRef owner name descriptor => PoolM.interfaceMethodRef owner name descriptor
  | attributeName name => PoolM.attributeName name

/-- What the call does to the constants that the pool represents. -/
def spec : PoolCall → EStateM Error (List Constant) UInt16
  | text value => internText (ModifiedUtf8.encode value)
  | encodedText bytes => internText bytes
  | word tag suits value => intern (ofPayload tag (.word value) (Payload.suits_word suits value))
  | wide tag suits value => intern (ofPayload tag (.wide value) (Payload.suits_wide suits value))
  | reference tag suits index =>
    intern (ofPayload tag (.reference index) (Payload.suits_reference suits index))
  | references tag suits first second =>
    intern (ofPayload tag (.references first second)
      (Payload.suits_references suits first second))
  | handle kind index =>
    intern (ofPayload .methodHandle (.handle kind index) (Payload.suits_handle kind index))
  | int value =>
    intern (ofPayload .integer (.word value.toUInt32) (Payload.suits_word rfl value.toUInt32))
  | float bits => intern (ofPayload .float (.word bits) (Payload.suits_word rfl bits))
  | long value =>
    intern (ofPayload .long (.wide value.toUInt64) (Payload.suits_wide rfl value.toUInt64))
  | double bits => intern (ofPayload .double (.wide bits) (Payload.suits_wide rfl bits))
  | classInfo name => internTextReference .classInfo rfl name
  | string value => internTextReference .string rfl value
  | methodType descriptor => internTextReference .methodType rfl descriptor
  | nameAndType name descriptor => internNameAndType name descriptor
  | memberRef tag suits owner name descriptor => internMemberRef tag suits owner name descriptor
  | fieldRef owner name descriptor => internMemberRef .fieldRef rfl owner name descriptor
  | methodRef owner name descriptor => internMemberRef .methodRef rfl owner name descriptor
  | interfaceMethodRef owner name descriptor =>
    internMemberRef .interfaceMethodRef rfl owner name descriptor
  | attributeName name => internText (ModifiedUtf8.encode name.text)

theorem refines (call : PoolCall) : PoolM.Refines call.run call.spec := by
  cases call with
  | text value => exact PoolM.refines_text value
  | encodedText bytes => exact PoolM.refines_encodedText bytes
  | word tag suits value => exact PoolM.refines_constant _
  | wide tag suits value => exact PoolM.refines_constant _
  | reference tag suits index => exact PoolM.refines_constant _
  | references tag suits first second => exact PoolM.refines_constant _
  | handle kind index => exact PoolM.refines_constant _
  | int value => exact PoolM.refines_constant _
  | float bits => exact PoolM.refines_constant _
  | long value => exact PoolM.refines_constant _
  | double bits => exact PoolM.refines_constant _
  | classInfo name => exact PoolM.refines_textReference .classInfo rfl name
  | string value => exact PoolM.refines_textReference .string rfl value
  | methodType descriptor => exact PoolM.refines_textReference .methodType rfl descriptor
  | nameAndType name descriptor => exact PoolM.refines_nameAndType name descriptor
  | memberRef tag suits owner name descriptor =>
    exact PoolM.refines_memberRef tag suits owner name descriptor
  | fieldRef owner name descriptor =>
    exact PoolM.refines_memberRef .fieldRef rfl owner name descriptor
  | methodRef owner name descriptor =>
    exact PoolM.refines_memberRef .methodRef rfl owner name descriptor
  | interfaceMethodRef owner name descriptor =>
    exact PoolM.refines_memberRef .interfaceMethodRef rfl owner name descriptor
  | attributeName name => exact PoolM.refines_attributeName name

theorem grows (call : PoolCall) : Grows call.spec := by
  cases call with
  | text | encodedText | attributeName => exact grows_internText _
  | word | wide | reference | references | handle | int | float | long | double =>
    exact grows_intern _
  | classInfo | string | methodType => exact grows_internTextReference _ rfl _
  | nameAndType => exact grows_internNameAndType _ _
  | memberRef _ suits => exact grows_internMemberRef _ suits _ _ _
  | fieldRef | methodRef | interfaceMethodRef => exact grows_internMemberRef _ rfl _ _ _

theorem answers (call : PoolCall) : Answers call.spec := by
  cases call with
  | text | encodedText | attributeName => exact answers_internText _
  | word | wide | reference | references | handle | int | float | long | double =>
    exact answers_intern _
  | classInfo | string | methodType => exact .after fun _ => answers_intern _
  | nameAndType => exact .after fun _ => .after fun _ => answers_intern _
  | memberRef _ suits => exact answers_internMemberRef _ suits _ _ _
  | fieldRef | methodRef | interfaceMethodRef => exact answers_internMemberRef _ rfl _ _ _

/-! ## Runs -/

/-- The pool that the call leaves, whether it succeeds or not. -/
def after (call : PoolCall) (p : ConstantPool) : ConstantPool :=
  match call.run p with
  | .ok _ p => p
  | .error _ p => p

/-- The pool that calls leave, one after the other. -/
def runAll (calls : List PoolCall) (p : ConstantPool) : ConstantPool :=
  calls.foldl (fun p call => call.after p) p

variable {p p' : ConstantPool} {cs : List Constant} {index : UInt16}

theorem after_represents (call : PoolCall) (h : p.Represents cs) :
    ∃ ds, cs <+: ds ∧ (call.after p).Represents ds := by
  unfold after
  rcases call.refines p cs h with ⟨a, p', ds, hp, hcs, h'⟩ | ⟨e, p', ds, hp, hcs, h'⟩
  · rw [hp]
    exact ⟨ds, (call.grows cs ds).1 a hcs, h'⟩
  · rw [hp]
    exact ⟨ds, (call.grows cs ds).2 e hcs, h'⟩

theorem runAll_represents (calls : List PoolCall) (h : p.Represents cs) :
    ∃ ds, cs <+: ds ∧ (runAll calls p).Represents ds := by
  induction calls generalizing p cs with
  | nil => exact ⟨cs, List.prefix_rfl, h⟩
  | cons call calls ih =>
    obtain ⟨ds, hfirst, hcall⟩ := call.after_represents h
    obtain ⟨es, hrest, hcalls⟩ := ih hcall
    exact ⟨es, hfirst.trans hrest, hcalls⟩

theorem run_eq_ok (call : PoolCall) (h : p.Represents cs) (hrun : call.run p = .ok index p') :
    ∃ ds, call.spec cs = .ok index ds ∧ p'.Represents ds := by
  rcases call.refines p cs h with ⟨a, q, ds, hp, hcs, h'⟩ | ⟨e, q, ds, hp, hcs, h'⟩
  · rw [hrun] at hp
    obtain ⟨rfl, rfl⟩ := EStateM.Result.ok.inj hp
    exact ⟨ds, hcs, h'⟩
  · rw [hrun] at hp
    cases hp

/-! ## What callers can rely on -/

/-- The constant that a call for a single constant asks for; none if that is too long a text. -/
def target? : PoolCall → Option Constant
  | text value => ofText? (ModifiedUtf8.encode value)
  | encodedText bytes => ofText? bytes
  | attributeName name => ofText? (ModifiedUtf8.encode name.text)
  | word tag suits value => some (ofPayload tag (.word value) (Payload.suits_word suits value))
  | wide tag suits value => some (ofPayload tag (.wide value) (Payload.suits_wide suits value))
  | reference tag suits index =>
    some (ofPayload tag (.reference index) (Payload.suits_reference suits index))
  | references tag suits first second =>
    some (ofPayload tag (.references first second) (Payload.suits_references suits first second))
  | handle kind index =>
    some (ofPayload .methodHandle (.handle kind index) (Payload.suits_handle kind index))
  | int value =>
    some (ofPayload .integer (.word value.toUInt32) (Payload.suits_word rfl value.toUInt32))
  | float bits => some (ofPayload .float (.word bits) (Payload.suits_word rfl bits))
  | long value =>
    some (ofPayload .long (.wide value.toUInt64) (Payload.suits_wide rfl value.toUInt64))
  | double bits => some (ofPayload .double (.wide bits) (Payload.suits_wide rfl bits))
  | _ => none

theorem spec_of_target {call : PoolCall} {c : Constant} (h : call.target? = some c) :
    call.spec = intern c := by
  have htext {text : Bytes} (h : ofText? text = some c) : internText text = intern c := by
    unfold ofText? at h
    split at h
    · rename_i short
      unfold internText
      rw [dif_pos short, Option.some.inj h]
    · cases h
  cases call with
  | text | encodedText | attributeName => exact htext h
  | word | wide | reference | references | handle | int | float | long | double =>
    obtain rfl := Option.some.inj h
    rfl
  | classInfo | string | methodType | nameAndType | memberRef | fieldRef | methodRef
  | interfaceMethodRef => cases h

theorem run_target {call : PoolCall} {c : Constant} (h : p.Represents cs)
    (htarget : call.target? = some c) (hrun : call.run p = .ok index p') :
    (c ∈ cs ∧ (∃ start, at? 0 cs index.toNat = some (start, c)) ∧ p'.Represents cs) ∨
    (c ∉ cs ∧ index.toNat = p.count ∧ p'.Represents (cs ++ [c])) := by
  obtain ⟨ds, hspec, h'⟩ := call.run_eq_ok h hrun
  rw [spec_of_target htarget] at hspec
  by_cases hmem : c ∈ cs
  · rw [intern_of_mem hmem] at hspec
    obtain ⟨rfl, rfl⟩ := EStateM.Result.ok.inj hspec
    refine .inl ⟨hmem, ?_, h'⟩
    rw [UInt16.toNat_ofNat_of_lt' (h.indexed c hmem)]
    exact at?_indexOf 0 hmem
  by_cases hroom : 1 + slotCount cs < 65536
  · rw [intern_of_notMem hmem hroom] at hspec
    obtain ⟨rfl, rfl⟩ := EStateM.Result.ok.inj hspec
    refine .inr ⟨hmem, ?_, h'⟩
    rw [UInt16.toNat_ofNat_of_lt' hroom, h.count]
  · rw [intern_of_full hmem hroom] at hspec
    cases hspec

theorem run_stable {call : PoolCall} (h : p.Represents cs) (hrun : call.run p = .ok index p') :
    ∃ start, ∃ c : Constant, ∀ later, (runAll later p').table.start? index = some start ∧
      (runAll later p').table.tag? index = some c.tag ∧
      Bytes.HasAt (runAll later p').entries.data start c.encode := by
  obtain ⟨ds, hspec, h'⟩ := call.run_eq_ok h hrun
  obtain ⟨c, hmem, rfl⟩ := call.answers cs ds index hspec
  obtain ⟨start, hc⟩ := at?_indexOf 0 hmem
  rw [← UInt16.toNat_ofNat_of_lt' (h'.indexed c hmem)] at hc
  refine ⟨start, c, fun later => ?_⟩
  obtain ⟨_, ⟨more, rfl⟩, hlater⟩ := runAll_represents later h'
  have hc' := at?_append_of_eq_some more hc
  refine ⟨?_, ?_, hlater.holds.hasAt hc'⟩
  · rw [hlater.holds.start?, hc']
    rfl
  · rw [hlater.holds.tag?, hc']
    rfl

theorem text_same_as_encodedText (h : p.Represents cs) (value : String) :
    (∃ index p₁ p₂, PoolM.text value p = .ok index p₁ ∧
      PoolM.encodedText (ModifiedUtf8.encode value) p = .ok index p₂ ∧ p₁.Same p₂) ∨
    (∃ e p₁ p₂, PoolM.text value p = .error e p₁ ∧
      PoolM.encodedText (ModifiedUtf8.encode value) p = .error e p₂ ∧ p₁.Same p₂) := by
  have hencoded := PoolM.refines_encodedText (ModifiedUtf8.encode value) p cs h
  rcases PoolM.refines_text value p cs h with ⟨i, p₁, ds, hp, hcs, h₁⟩ | ⟨e, p₁, ds, hp, hcs, h₁⟩
  · rw [hcs] at hencoded
    rcases hencoded with ⟨_, p₂, _, hp₂, ⟨⟩, h₂⟩ | ⟨_, _, _, _, ⟨⟩, _⟩
    exact .inl ⟨i, p₁, p₂, hp, hp₂, h₁.same h₂⟩
  · rw [hcs] at hencoded
    rcases hencoded with ⟨_, _, _, _, ⟨⟩, _⟩ | ⟨_, p₂, _, hp₂, ⟨⟩, h₂⟩
    exact .inr ⟨e, p₁, p₂, hp, hp₂, h₁.same h₂⟩

/-- A pool refines a list of distinct constants, over any run of calls: it tells the list, a call
for one constant finds it or appends it, and an index that was answered stays good. -/
theorem pool_refines_constant_list (capacity : Nat) (growth : Growth) (calls : List PoolCall) :
    (∀ call : PoolCall, PoolM.Refines call.run call.spec) ∧ ∃ cs : List Constant,
      let p := runAll calls (ConstantPool.withPolicy capacity growth)
      p.Represents cs ∧ cs.Nodup ∧ p.count = 1 + slotCount cs ∧
      p.entries.toList = encodeAll cs ∧
      (∀ (text : Bytes) (index : UInt16), p.texts[text]? = some index ↔
        ∃ start c, at? 0 cs index.toNat = some (start, c) ∧ c.tag = .utf8 ∧
          c.payload = text.toList) ∧
      (∀ index, p.table.tag? index = (at? 0 cs index.toNat).map (·.2.tag)) ∧
      p.table.tag? 0 = none ∧
      (∀ (index : UInt16) start c, at? 0 cs index.toNat = some (start, c) → c.slots = 2 →
        p.table.tag? (index + 1) = none) ∧
      (∀ (call : PoolCall) c index p', call.target? = some c → call.run p = .ok index p' →
        (c ∈ cs ∧ (∃ start, at? 0 cs index.toNat = some (start, c)) ∧ p'.Same p) ∨
        (c ∉ cs ∧ index.toNat = p.count ∧ p'.Represents (cs ++ [c]))) ∧
      (∀ (call : PoolCall) index p', call.run p = .ok index p' →
        ∃ start, ∃ c : Constant, ∀ later, (runAll later p').table.start? index = some start ∧
          (runAll later p').table.tag? index = some c.tag ∧
          Bytes.HasAt (runAll later p').entries.data start c.encode) ∧
      (∀ value,
        (∃ index p₁ p₂, PoolM.text value p = .ok index p₁ ∧
          PoolM.encodedText (ModifiedUtf8.encode value) p = .ok index p₂ ∧ p₁.Same p₂) ∨
        (∃ e p₁ p₂, PoolM.text value p = .error e p₁ ∧
          PoolM.encodedText (ModifiedUtf8.encode value) p = .error e p₂ ∧ p₁.Same p₂)) := by
  obtain ⟨cs, -, h⟩ := runAll_represents calls (.withPolicy capacity growth)
  refine ⟨refines, cs, h, h.nodup, h.count, h.entries, h.texts_iff, h.holds.tag?, h.holds.tag? 0,
    ?_, ?_, fun call index p' hrun => run_stable h hrun, text_same_as_encodedText h⟩
  · intro index start c hc hwide
    exact h.tag?_second hc hwide
  · intro call c index p' htarget hrun
    rcases run_target h htarget hrun with ⟨hmem, hat, h'⟩ | hnew
    · exact .inl ⟨hmem, hat, h'.same h⟩
    · exact .inr hnew

end PoolCall
end JavaClass
