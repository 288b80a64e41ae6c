import JavaClass.Proofs.FailedCalls
import JavaClass.Proofs.RefusedVisits
import JavaClass.Proofs.WrittenTexts
import Mathlib.Data.List.Nodup

/-!
# Attribute names

A pool notes the index of an attribute name once it has answered it, and looks there first the next
time. Callers cannot tell: in any pool that calls have made a name is answered as its text is, and a
run of calls goes as it would if it asked for the texts. Only calls that succeed note anything.
-/

namespace JavaClass

open Constant

/-! ## Names and their texts -/

namespace AttributeName

theorem mem_all (name : AttributeName) : name ∈ all := by
  cases name <;> decide

theorem text_injective : Function.Injective text := by
  have hnodup : (all.map text).Nodup := by decide
  intro a b h
  exact List.inj_on_of_nodup_map hnodup (mem_all a) (mem_all b) h

theorem size_encode_text_lt (name : AttributeName) :
    (ModifiedUtf8.encode name.text).size < 65536 := by
  have hlength : name.text.utf8ByteSize ≤ 36 := by cases name <;> decide
  have hsize := ModifiedUtf8.size_encode_le name.text
  omega

end AttributeName

/-! ## Texts and their indexes -/

theorem ConstantTable.Distinct.eq_iff_of_hasText {t : ConstantTable} (h : t.Distinct)
    {i j : UInt16} {value other : String} (hi : t.HasText i value) (hj : t.HasText j other) :
    i = j ↔ value = other := by
  constructor
  · rintro rfl
    exact ModifiedUtf8.encode_injective (Except.ok.inj (hi.2.symm.trans hj.2))
  · rintro rfl
    exact h _ _ i j (ConstantTable.hasEntry_text.mpr hi) (ConstantTable.hasEntry_text.mpr hj)

namespace ConstantPool

variable {p q : ConstantPool} {cs : List Constant} {index : UInt16} {value : String}

theorem Extends.hasText (h : p.Extends q) (htext : p.table.HasText index value) :
    q.table.HasText index value :=
  ConstantTable.hasEntry_text.mp (h.hasEntry (ConstantTable.hasEntry_text.mpr htext))

theorem Represents.hasText_iff (h : p.Represents cs)
    (short : (ModifiedUtf8.encode value).size < 65536) : p.table.HasText index value ↔
      ∃ start, at? 0 cs index.toNat = some (start, ofText (ModifiedUtf8.encode value) short) := by
  rw [← ConstantTable.hasEntry_text]
  exact h.holds.hasEntry_constant (ofText _ short)

theorem Represents.hasText_indexOf (h : p.Represents cs)
    {short : (ModifiedUtf8.encode value).size < 65536}
    (hmem : ofText (ModifiedUtf8.encode value) short ∈ cs) :
    p.table.HasText (UInt16.ofNat (indexOf (ofText (ModifiedUtf8.encode value) short) cs))
      value := by
  obtain ⟨start, hc⟩ := at?_indexOf 0 hmem
  rw [← UInt16.toNat_ofNat_of_lt' (h.indexed _ hmem)] at hc
  exact (h.hasText_iff short).mpr ⟨start, hc⟩

theorem Represents.hasText_of_noted (h : p.Represents cs) {name : AttributeName}
    (hnoted : p.names.get? name = some index) : p.table.HasText index name.text := by
  obtain ⟨short, hmem, rfl⟩ := (h.texts _ _).mp (h.names name index hnoted)
  exact h.hasText_indexOf hmem

theorem Represents.ne_zero_of_hasText (h : p.Represents cs) (htext : p.table.HasText index value) :
    index ≠ 0 := by
  rintro rfl
  have htag : p.table.tag? 0 = none := h.holds.tag? 0
  rw [htext.1] at htag
  cases htag

end ConstantPool

/-! ## Calls for one text -/

namespace PoolCall

variable {call : PoolCall} {p : ConstantPool} {cs : List Constant} {index : UInt16}
  {value : String} {short : (ModifiedUtf8.encode value).size < 65536} {e : Error}

theorem hasText_of_answer (h : p.Represents cs)
    (htarget : call.target? = some (ofText (ModifiedUtf8.encode value) short))
    (hanswer : call.answer p = .ok index) : (call.after p).table.HasText index value := by
  obtain ⟨p', hrun⟩ := answer_eq_ok.mp hanswer
  obtain ⟨ds, hspec, h'⟩ := call.run_eq_ok h hrun
  rw [spec_of_target htarget] at hspec
  obtain ⟨-, hmem, rfl⟩ := intern_eq_ok hspec
  rw [after_of_run hrun]
  exact h'.hasText_indexOf hmem

theorem answer_of_hasText (h : p.Represents cs)
    (htarget : call.target? = some (ofText (ModifiedUtf8.encode value) short))
    (htext : p.table.HasText index value) :
    call.answer p = .ok index ∧ (call.after p).Same p := by
  obtain ⟨start, hc⟩ := (h.hasText_iff short).mp htext
  obtain ⟨found, p', hrun, ⟨start', hfound⟩, hsame⟩ := run_of_mem h htarget (mem_of_at? hc)
  obtain rfl : found = index :=
    UInt16.toNat_inj.mp ((eq_indexOf h.nodup hfound).trans (eq_indexOf h.nodup hc).symm)
  rw [after_of_run hrun]
  exact ⟨answer_eq_ok.mpr ⟨p', hrun⟩, hsame⟩

theorem notMem_iff (h : p.Represents cs) (short : (ModifiedUtf8.encode value).size < 65536) :
    ofText (ModifiedUtf8.encode value) short ∉ cs ↔ ∀ index, ¬ p.table.HasText index value := by
  constructor
  · intro hmissing index htext
    obtain ⟨start, hc⟩ := (h.hasText_iff short).mp htext
    exact hmissing (mem_of_at? hc)
  · exact fun hnone hmem => hnone _ (h.hasText_indexOf hmem)

theorem refused_iff (h : p.Represents cs)
    (htarget : call.target? = some (ofText (ModifiedUtf8.encode value) short)) :
    call.answer p = .error e ↔ (∀ index, ¬ p.table.HasText index value) ∧ 65536 ≤ p.count ∧
      e = .poolOverflow (p.count + 1) := by
  rw [answer_eq_error, run_error_iff _ h, spec_of_target htarget, ← notMem_iff h short, h.count]
  simp [intern_eq_error]

/-! ## The cache -/

/-- The call, with the text of an attribute name in place of the name. -/
def uncached : PoolCall → PoolCall
  | attributeName name => text name.text
  | call => call

theorem spec_uncached (call : PoolCall) : call.uncached.spec = call.spec := by
  cases call <;> rfl

theorem map_spec_uncached (calls : List PoolCall) :
    (calls.map uncached).map spec = calls.map spec := by
  rw [List.map_map]
  exact List.map_congr_left fun call _ => call.spec_uncached

theorem target?_text_of_name (name : AttributeName) : (text name.text).target? =
    some (ofText (ModifiedUtf8.encode name.text) name.size_encode_text_lt) :=
  dif_pos name.size_encode_text_lt

theorem target?_attributeName (name : AttributeName) : (attributeName name).target? =
    some (ofText (ModifiedUtf8.encode name.text) name.size_encode_text_lt) :=
  target?_text_of_name name

theorem answer_attributeName (h : p.Represents cs) (name : AttributeName) :
    (attributeName name).answer p = (text name.text).answer p ∧
      ((attributeName name).after p).Same ((text name.text).after p) :=
  ⟨answer_congr rfl h h,
    ((attributeName name).after_represents_left h).same ((text name.text).after_represents_left h)⟩

end PoolCall

namespace PoolM

variable {α β : Type}

/-- Whether the call succeeds or not, the cache is what it was. -/
def KeepsNames (call : PoolM α) : Prop := ∀ p : ConstantPool, (left call p).names = p.names

theorem KeepsNames.bind {call : PoolM α} {next : α → PoolM β} (h : KeepsNames call)
    (hnext : ∀ a, KeepsNames (next a)) : KeepsNames (call >>= next) :=
  left_bind (fun p q => q.names = p.names) (fun hfirst hrest => hrest.trans hfirst) h hnext

theorem keepsNames_internTextAt (start : Nat) : KeepsNames (internTextAt start) := by
  intro p
  unfold left internTextAt
  generalize p.entries.data.extract (start + 3) p.entries.size = text
  dsimp only
  by_cases hlong : text.size > 65535
  · rw [if_pos hlong]
    rfl
  rw [if_neg hlong]
  cases p.texts[text]? with
  | some index => rfl
  | none => cases p.nextIndex <;> rfl

theorem keepsNames_writtenText (write : ByteBuffer → ByteBuffer) :
    KeepsNames (writtenText write) :=
  fun p => keepsNames_internTextAt p.entries.size _

theorem keepsNames_constant (tag : Tag) (payload : Payload) :
    KeepsNames (constant tag payload) := by
  intro p
  unfold left constant
  cases p.newest? tag payload with
  | error e => rfl
  | ok found =>
    cases found with
    | some index => rfl
    | none => cases p.nextIndex <;> rfl

end PoolM

namespace PoolCall

open PoolM

variable {p : ConstantPool} {cs : List Constant} {index : UInt16} {name : AttributeName}

theorem keepsNames_run (call : PoolCall) (h : ∀ name, call ≠ .attributeName name) :
    KeepsNames call.run := by
  have htext (value : String) : KeepsNames (PoolM.text value) :=
    keepsNames_writtenText (·.putText value)
  have hreference (tag : Tag) (value : String) : KeepsNames (textReference tag value) :=
    (htext value).bind fun _ => keepsNames_constant tag _
  have hboth (name descriptor : String) : KeepsNames (PoolM.nameAndType name descriptor) :=
    (htext name).bind fun _ => (htext descriptor).bind fun _ => keepsNames_constant _ _
  have hmember (tag : Tag) (owner name descriptor : String) :
      KeepsNames (PoolM.memberRef tag owner name descriptor) :=
    (hreference _ owner).bind fun _ => (hboth name descriptor).bind fun _ =>
      keepsNames_constant tag _
  cases call with
  | attributeName name => exact absurd rfl (h name)
  | text value => exact htext value
  | encodedText bytes => exact keepsNames_writtenText (·.append bytes)
  | word | wide | reference | references | handle | int | float | long | double =>
    exact keepsNames_constant _ _
  | classInfo | string | methodType => exact hreference _ _
  | nameAndType name descriptor => exact hboth name descriptor
  | memberRef | fieldRef | methodRef | interfaceMethodRef => exact hmember _ _ _ _

theorem names_after_of_ne (call : PoolCall) (h : ∀ name, call ≠ .attributeName name)
    (p : ConstantPool) : (call.after p).names = p.names := by
  rw [← left_run]
  exact call.keepsNames_run h p

theorem run_attributeName (name : AttributeName) (p : ConstantPool) :
    (∃ index, p.names.get? name = some index ∧ (attributeName name).run p = .ok index p) ∨
    p.names.get? name = none ∧
      ((∃ index p', (text name.text).run p = .ok index p' ∧
        (attributeName name).run p =
          .ok index { p' with names := p.names.insert name index }) ∨
      ∃ e p', p'.names = p.names ∧ (attributeName name).run p = .error e p') := by
  have hkeeps := (text name.text).names_after_of_ne nofun p
  unfold after at hkeeps
  simp only [run, PoolM.attributeName] at hkeeps ⊢
  cases hname : p.names.get? name with
  | some index => exact .inl ⟨index, rfl, rfl⟩
  | none =>
    refine .inr ⟨rfl, ?_⟩
    cases htext : PoolM.text name.text p with
    | ok index p' =>
      rw [htext] at hkeeps
      exact .inl ⟨index, p', rfl, by rw [← hkeeps]⟩
    | error e p' =>
      rw [htext] at hkeeps
      exact .inr ⟨e, p', hkeeps, rfl⟩

theorem get?_after (call : PoolCall) (h : p.Represents cs) :
    (call.after p).names.get? name = some index ↔
      p.names.get? name = some index ∨
        call = .attributeName name ∧ call.answer p = .ok index := by
  by_cases hcall : ∃ other, call = .attributeName other
  swap
  · have hne : ∀ other, call ≠ .attributeName other := not_exists.mp hcall
    rw [call.names_after_of_ne hne]
    simp [hne]
  obtain ⟨other, rfl⟩ := hcall
  rw [PoolCall.attributeName.injEq]
  rcases run_attributeName other p with
    ⟨i, hnoted, hrun⟩ | ⟨hnone, ⟨i, p', htext, hrun⟩ | ⟨e, p', hnames, hrun⟩⟩
  · rw [after_of_run hrun, answer_eq_ok.mpr ⟨p, hrun⟩]
    refine ⟨.inl, ?_⟩
    rintro (hold | ⟨rfl, ⟨⟩⟩)
    · exact hold
    · exact hnoted
  -- an index 0 would stand in the cache for a name without one
  · have hzero : i ≠ 0 := by
      have hanswer :=
        hasText_of_answer h (target?_text_of_name other) (answer_eq_ok.mpr ⟨p', htext⟩)
      exact ((text other.text).after_represents_left h).ne_zero_of_hasText hanswer
    rw [after_of_run hrun, answer_eq_ok.mpr ⟨_, hrun⟩]
    show (p.names.insert other i).get? name = some index ↔ _
    rw [NameCache.get?_insert, if_neg hzero]
    by_cases heq : other = name
    · subst heq
      simp [hnone]
    · simp [heq]
  · rw [after_of_run_error hrun, hnames, answer_eq_error.mpr ⟨p', hrun⟩]
    simp

theorem get?_runAll (calls : List PoolCall) (h : p.Represents cs) :
    (runAll calls p).names.get? name = some index ↔ p.names.get? name = some index ∨
      ∃ before after, calls = before ++ .attributeName name :: after ∧
        (attributeName name).answer (runAll before p) = .ok index := by
  induction calls generalizing p cs with
  | nil => simp [runAll]
  | cons call calls ih =>
    have hrest := ih (call.after_represents_left h)
    show (runAll calls (call.after p)).names.get? name = some index ↔ _
    rw [hrest, call.get?_after h, or_assoc]
    apply or_congr_right
    constructor
    · rintro (⟨rfl, hanswer⟩ | ⟨before, after, rfl, hanswer⟩)
      · exact ⟨[], calls, rfl, hanswer⟩
      · exact ⟨call :: before, after, rfl, hanswer⟩
    · rintro ⟨before, after, hsplit, hanswer⟩
      cases before with
      | nil =>
        obtain ⟨rfl, rfl⟩ := List.cons.inj hsplit
        exact .inl ⟨rfl, hanswer⟩
      | cons first before =>
        obtain ⟨rfl, rfl⟩ := List.cons.inj hsplit
        exact .inr ⟨before, after, rfl, hanswer⟩

/-! ## Names among other calls -/

theorem index_eq_iff (h : p.Represents cs) {other : AttributeName} {i j : UInt16}
    {later : List PoolCall} (hi : (attributeName name).answer p = .ok i)
    (hj : (attributeName other).answer (runAll later ((attributeName name).after p)) = .ok j) :
    i = j ↔ name = other := by
  have hfirst := (attributeName name).after_represents_left h
  obtain ⟨ds, hds, hlater⟩ := runAll_represents later hfirst
  obtain ⟨es, hes, hlast⟩ := (attributeName other).after_represents hlater
  have hname := (hfirst.extends_of_prefix hlast (hds.trans hes)).hasText
    (hasText_of_answer h (target?_attributeName name) hi)
  have hother := hasText_of_answer hlater (target?_attributeName other) hj
  rw [(hlast.holds.distinct hlast.nodup).eq_iff_of_hasText hname hother,
    AttributeName.text_injective.eq_iff]

/-- If the text of the name has an index, the name is answered with it, and nothing is interned. -/
def FindsText (p : ConstantPool) (name : AttributeName) : Prop :=
  ∀ index, p.table.HasText index name.text →
    (attributeName name).answer p = .ok index ∧ ((attributeName name).after p).Same p

theorem findsText (h : p.Represents cs) (name : AttributeName) : FindsText p name :=
  fun _ htext => answer_of_hasText h (target?_attributeName name) htext

theorem names_after_error {e : Error} (hanswer : (attributeName name).answer p = .error e) :
    p.names.get? name = none ∧ ((attributeName name).after p).names = p.names := by
  obtain ⟨q, hq⟩ := answer_eq_error.mp hanswer
  rcases run_attributeName name p with
    ⟨i, -, hrun⟩ | ⟨hnone, ⟨i, p', -, hrun⟩ | ⟨e', p', hnames, hrun⟩⟩
  · rw [hq] at hrun
    cases hrun
  · rw [hq] at hrun
    cases hrun
  · rw [hq] at hrun
    obtain ⟨-, rfl⟩ := EStateM.Result.error.inj hrun
    exact ⟨hnone, after_of_run_error hq ▸ hnames⟩

/-- What callers can rely on although the pool notes the indexes of attribute names. -/
structure HidesCache (p : ConstantPool) : Prop where
  /-- a name is answered as its text is, with the same constants left -/
  asText : ∀ name, (attributeName name).answer p = (text name.text).answer p ∧
    ((attributeName name).after p).Same ((text name.text).after p)
  /-- calls for names go on like calls for their texts -/
  asUncached : ∀ later, answersFrom later p = answersFrom (later.map uncached) p ∧
    (runAll later p).Same (runAll (later.map uncached) p)
  /-- two names have two indexes, and a name has one -/
  distinct : ∀ name other i j later, (attributeName name).answer p = .ok i →
    (attributeName other).answer (runAll later ((attributeName name).after p)) = .ok j →
    (i = j ↔ name = other)
  noted : ∀ name index, p.names.get? name = some index → p.table.HasText index name.text
  /-- it does not matter which call has interned the text -/
  finds : ∀ name, FindsText p name
  refuses : ∀ name e, (attributeName name).answer p = .error e ↔
    (∀ index, ¬ p.table.HasText index name.text) ∧ 65536 ≤ p.count ∧
      e = .poolOverflow (p.count + 1)
  /-- a call that fails notes nothing, and later calls find what is there then -/
  refusal : ∀ name e, (attributeName name).answer p = .error e →
    p.names.get? name = none ∧ ((attributeName name).after p).names = p.names ∧
      ∀ later other, FindsText (runAll later ((attributeName name).after p)) other

/-- In any pool that calls have made, whichever of them failed, no later call tells that indexes of
attribute names are noted, and no two names have the same index. What is noted are the answers of
the calls for names that succeeded. -/
theorem cached_names_answered_as_texts (capacity : Nat) (growth : Growth) (calls : List PoolCall) :
    let start := ConstantPool.withPolicy capacity growth
    let p := runAll calls start
    HidesCache p ∧
    ∀ name index, p.names.get? name = some index ↔ ∃ before after,
      calls = before ++ .attributeName name :: after ∧
        (attributeName name).answer (runAll before start) = .ok index := by
  intro start p
  obtain ⟨cs, -, h⟩ := runAll_represents calls (.withPolicy capacity growth)
  refine ⟨?_, fun name index => ?_⟩
  · exact {
      asText name := answer_attributeName h name
      asUncached later := answersFrom_congr_spec (map_spec_uncached later).symm h h
      distinct _ _ _ _ _ := index_eq_iff h
      noted name index hnoted := h.hasText_of_noted hnoted
      finds := findsText h
      refuses name e := refused_iff h (target?_attributeName name)
      refusal name e hanswer := by
        obtain ⟨hnone, hnames⟩ := names_after_error hanswer
        refine ⟨hnone, hnames, fun later other => ?_⟩
        have hafter := (attributeName name).after_represents_left h
        obtain ⟨ds, -, hlater⟩ := runAll_represents later hafter
        exact findsText hlater other }
  · have hstart : start.names.get? name = none := NameCache.get?_empty name
    rw [get?_runAll calls (.withPolicy capacity growth), hstart]
    simp only [reduceCtorEq, false_or]
    rfl

/-! A pool that has the text of one name, and no index left. -/

/-- The constant of a number. -/
def number (n : Nat) : Constant :=
  ofPayload .integer (.word (UInt32.ofNat n)) (Payload.suits_word rfl (UInt32.ofNat n))

def numbers (n : Nat) : List PoolCall :=
  (List.range n).map fun i => .word .integer rfl (UInt32.ofNat i)

theorem number_inj {m n : Nat} (hm : m < 2 ^ 32) (hn : n < 2 ^ 32) (h : number m = number n) :
    m = n := by
  have hword : UInt32.ofNat m = UInt32.ofNat n := by
    rw [← ofNat_decode_bytes32 (UInt32.ofNat m), ← ofNat_decode_bytes32 (UInt32.ofNat n)]
    exact congrArg (fun c => UInt32.ofNat (BigEndian.decode c.payload)) h
  rw [← UInt32.toNat_ofNat_of_lt' hm, hword, UInt32.toNat_ofNat_of_lt' hn]

theorem slotCount_numbers (n : Nat) : slotCount ((List.range n).map number) = n := by
  induction n with
  | zero => rfl
  | succ n ih =>
    rw [List.range_succ, List.map_append, slotCount_append, ih]
    rfl

theorem runAll_numbers {n : Nat} (h : p.Represents cs) (hnew : ∀ c ∈ cs, c.tag ≠ .integer)
    (hroom : slotCount cs + n ≤ 65535) :
    (runAll (numbers n) p).Represents (cs ++ (List.range n).map number) := by
  induction n with
  | zero => simpa [numbers, runAll] using h
  | succ n ih =>
    have hmissing : number n ∉ cs ++ (List.range n).map number := by
      intro hmem
      rcases List.mem_append.mp hmem with hmem | hmem
      · exact hnew _ hmem rfl
      · obtain ⟨m, hm, heq⟩ := List.mem_map.mp hmem
        have hlt : m < n := List.mem_range.mp hm
        exact absurd (number_inj (by omega) (by omega) heq) (by omega)
    have hcount : 1 + slotCount (cs ++ (List.range n).map number) < 65536 := by
      rw [slotCount_append, slotCount_numbers]
      omega
    have hlast := (PoolCall.word .integer rfl (UInt32.ofNat n)).after_represents_left
      (ih (by omega))
    have hintern : Constant.left (PoolCall.word .integer rfl (UInt32.ofNat n)).spec
        (cs ++ (List.range n).map number) = cs ++ (List.range n).map number ++ [number n] := by
      show Constant.left (intern (number n)) _ = _
      rw [Constant.left, intern_of_notMem hmissing hcount]
    rw [hintern, List.append_assoc] at hlast
    have hcalls : runAll (numbers (n + 1)) p =
        (PoolCall.word .integer rfl (UInt32.ofNat n)).after (runAll (numbers n) p) := by
      simp [numbers, runAll, List.range_succ]
    rw [hcalls, List.range_succ, List.map_append]
    exact hlast

/-- The text of a name, with numbers behind it. -/
def codeAndNumbers (n : Nat) : List PoolCall := .text AttributeName.code.text :: numbers n

def codeText : Constant :=
  ofText (ModifiedUtf8.encode AttributeName.code.text) AttributeName.code.size_encode_text_lt

theorem runAll_codeAndNumbers {n : Nat} (hn : n ≤ 65534) (capacity : Nat) (growth : Growth) :
    (runAll (codeAndNumbers n) (.withPolicy capacity growth)).Represents
      (codeText :: (List.range n).map number) := by
  have hcode := (PoolCall.text AttributeName.code.text).after_represents_left
    (.withPolicy capacity growth)
  have hintern : Constant.left (PoolCall.text AttributeName.code.text).spec [] = [codeText] := by
    rw [spec_of_target (target?_text_of_name .code), Constant.left,
      intern_of_notMem (by simp) (by simp)]
    rfl
  have hslots : slotCount [codeText] = 1 := rfl
  rw [hintern] at hcode
  exact runAll_numbers hcode (by simp [codeText, ofText]) (by omega)

theorem HidesCache.refuses_signature (hides : HidesCache p)
    (hp : p.Represents (codeText :: (List.range 65534).map number)) :
    (attributeName .signature).answer p = .error (.poolOverflow 65537) ∧
      ((attributeName .signature).after p).names.get? .signature = none ∧
      (attributeName .code).answer ((attributeName .signature).after p) = .ok 1 := by
  have hcount : p.count = 65536 := by
    have hslots : codeText.slots = 1 := rfl
    rw [hp.count, slotCount_cons, slotCount_numbers, hslots]
  have hmissing : ∀ index, ¬ p.table.HasText index AttributeName.signature.text := by
    rw [← notMem_iff hp AttributeName.signature.size_encode_text_lt]
    intro hmem
    rcases List.mem_cons.mp hmem with heq | hmem
    · have hbytes := Array.toList_inj.mp (congrArg Constant.payload heq)
      exact absurd (ModifiedUtf8.encode_injective hbytes) (by decide)
    · obtain ⟨m, -, heq⟩ := List.mem_map.mp hmem
      cases congrArg Constant.tag heq
  have hcode : p.table.HasText 1 AttributeName.code.text :=
    (hp.hasText_iff AttributeName.code.size_encode_text_lt).mpr
      ⟨0, at?_eq_some.mpr ⟨[], _, rfl, rfl, rfl⟩⟩
  have hrefused : (attributeName .signature).answer p = .error (.poolOverflow 65537) :=
    (hides.refuses .signature _).mpr ⟨hmissing, hcount.ge, by rw [hcount]⟩
  obtain ⟨hnone, hnames, hfinds⟩ := hides.refusal .signature _ hrefused
  obtain ⟨ds, hds, hafter⟩ := (attributeName .signature).after_represents hp
  have hcode' := (hp.extends_of_prefix hafter hds).hasText hcode
  exact ⟨hrefused, hnames ▸ hnone, (hfinds [] .code 1 hcode').1⟩

def fullPool : ConstantPool := runAll (codeAndNumbers 65534) (.withPolicy 200 Growth.pool)

/-- The name that is not there is refused and not noted, and the other one is still found. -/
theorem fullPool_refuses_signature :
    (attributeName .signature).answer fullPool = .error (.poolOverflow 65537) ∧
      ((attributeName .signature).after fullPool).names.get? .signature = none ∧
      (attributeName .code).answer ((attributeName .signature).after fullPool) = .ok 1 := by
  have hides : HidesCache fullPool :=
    (cached_names_answered_as_texts 200 Growth.pool (codeAndNumbers 65534)).1
  exact hides.refuses_signature (runAll_codeAndNumbers (Nat.le_refl 65534) 200 Growth.pool)

end PoolCall
end JavaClass
