import JavaClass.Proofs.Agreement
import JavaClass.Proofs.Safety

/-!
# What a legal pool is

Every entry has a rule of its own, which speaks of its tag and of the tags that its references lead
to. The check accepts a pool exactly if every entry keeps its rule, and the first entry that breaks
it decides the error.
-/

namespace JavaClass.Validity

/-! ## The rules -/

/-- The major number of the first version whose files may hold constants with the tag. -/
def firstMajor : Tag → UInt16
  | .methodHandle | .methodType | .invokeDynamic => 51
  | .moduleInfo | .packageInfo => 53
  | .dynamic => 55
  | _ => 0

/-- The references of an entry with the tag, each with the tag that it has to lead to. The one of a
method handle is left out, because it depends on the kind of the handle. -/
def needs (t : ConstantTable) (index : UInt16) : Tag → Except Error (List (UInt16 × Tag))
  | .classInfo | .string | .methodType | .moduleInfo | .packageInfo => do
    return [(← t.reference index, .utf8)]
  | .nameAndType => do
    let (name, descriptor) ← t.references index
    return [(name, .utf8), (descriptor, .utf8)]
  | .fieldRef | .methodRef | .interfaceMethodRef => do
    let (owner, member) ← t.references index
    return [(owner, .classInfo), (member, .nameAndType)]
  | .dynamic | .invokeDynamic => do
    let (_, member) ← t.references index
    return [(member, .nameAndType)]
  | .utf8 | .integer | .float | .long | .double | .methodHandle => return []

/-- The tags that a method handle may lead to, by its kind; none for a byte that is no kind. -/
def handleTags (version : Version) : UInt8 → List Tag
  | 1 | 2 | 3 | 4 => [.fieldRef]
  | 5 | 8 => [.methodRef]
  | 6 | 7 => .methodRef :: if Version.v1_8 ≤ version then [.interfaceMethodRef] else []
  | 9 => [.interfaceMethodRef]
  | _ => []

/-- The rule of an entry with the tag. -/
structure LawfulEntry (t : ConstantTable) (version : Version) (inModule : Bool) (index : UInt16)
    (tag : Tag) : Prop where
  known : firstMajor tag ≤ version.major
  placed : tag = .moduleInfo ∨ tag = .packageInfo → inModule = true
  references : ∃ links, needs t index tag = .ok links ∧
    ∀ link ∈ links, t.tag? link.1 = some link.2
  handle : tag = .methodHandle → ∃ kind target, t.handle index = .ok (kind, target) ∧
    ∃ found ∈ handleTags version kind, t.tag? target = some found

/-- Every index that has an entry keeps the rule of its tag. -/
def Lawful (t : ConstantTable) (version : Version) (inModule : Bool) : Prop :=
  ∀ index tag, t.tag? index = some tag → LawfulEntry t version inModule index tag

/-- The error of an entry that breaks its rule, of which the first part that is broken decides. -/
inductive Fault (t : ConstantTable) (version : Version) (inModule : Bool) (index : UInt16) :
    Tag → Error → Prop
  | tooNew {tag : Tag} (new : version.major < firstMajor tag) :
    Fault t version inModule index tag
      (.versionGated (.constant tag) (firstMajor tag) version)
  | misplaced {tag : Tag} (known : firstMajor tag ≤ version.major)
    (moduleOnly : tag = .moduleInfo ∨ tag = .packageInfo) (outside : inModule = false) :
    Fault t version inModule index tag (.invalid (.outsideModule index tag))
  | reference {tag : Tag} {before after : List (UInt16 × Tag)} {target : UInt16} {wanted : Tag}
    (known : firstMajor tag ≤ version.major)
    (placed : tag = .moduleInfo ∨ tag = .packageInfo → inModule = true)
    (links : needs t index tag = .ok (before ++ (target, wanted) :: after))
    (met : ∀ link ∈ before, t.tag? link.1 = some link.2) (unmet : t.tag? target ≠ some wanted) :
    Fault t version inModule index tag (.unexpectedEntry wanted (t.tag? target))
  | handleKind {kind : UInt8} {target : UInt16} (known : firstMajor .methodHandle ≤ version.major)
    (handle : t.handle index = .ok (kind, target)) (noKind : handleTags version kind = []) :
    Fault t version inModule index .methodHandle (.invalid (.referenceKind kind))
  | handleTarget {kind : UInt8} {target : UInt16} {wanted : Tag} {others : List Tag}
    (known : firstMajor .methodHandle ≤ version.major)
    (handle : t.handle index = .ok (kind, target))
    (allowed : handleTags version kind = wanted :: others)
    (unmet : ∀ tag ∈ wanted :: others, t.tag? target ≠ some tag) :
    Fault t version inModule index .methodHandle (.unexpectedEntry wanted (t.tag? target))

variable {t : ConstantTable} {version later : Version} {inModule : Bool} {index : UInt16}
  {tag : Tag} {e : Error}

theorem Fault.not_lawfulEntry (h : Fault t version inModule index tag e) :
    ¬ LawfulEntry t version inModule index tag := by
  intro hlaw
  cases h with
  | tooNew new => exact absurd hlaw.known (UInt16.not_le.mpr new)
  | misplaced _ moduleOnly outside => exact absurd (hlaw.placed moduleOnly) (by simp [outside])
  | reference _ _ hlinks _ unmet =>
    obtain ⟨links, hlinks', hall⟩ := hlaw.references
    rw [hlinks] at hlinks'
    obtain rfl := Except.ok.inj hlinks'
    exact unmet (hall (_, _) (by simp))
  | handleKind _ handle noKind =>
    obtain ⟨_, _, handle', tag, htag, -⟩ := hlaw.handle rfl
    rw [handle] at handle'
    cases handle'
    simp [noKind] at htag
  | handleTarget _ handle allowed unmet =>
    obtain ⟨_, _, handle', tag, htag, hfound⟩ := hlaw.handle rfl
    rw [handle] at handle'
    cases handle'
    exact unmet tag (allowed ▸ htag) hfound

theorem major_le_of_le (h : version ≤ later) : version.major ≤ later.major := by
  have hrank : version.rank ≤ later.rank := h
  have := later.minor.toNat_lt
  rw [UInt16.le_iff_toNat_le]
  unfold Version.rank at hrank
  omega

theorem handleTags_eq (version : Version) (kind : UInt8) : handleTags version kind =
    if ReferenceKind.getField ≤ kind ∧ kind ≤ ReferenceKind.invokeInterface then
      handleTarget kind ::
        if allowsInterfaceMethod kind version then [.interfaceMethodRef] else []
    else [] := by
  fun_cases handleTags version kind
  case case10 =>
    rw [if_neg]
    simp only [ReferenceKind.getField, ReferenceKind.invokeInterface, UInt8.le_iff_toNat_le,
      ← UInt8.toNat_inj, imp_false, UInt8.reduceToNat] at *
    omega
  case case7 | case8 =>
    refine Eq.trans (congrArg (Tag.methodRef :: ·) ?_) (if_pos (by decide)).symm
    simp [allowsInterfaceMethod, ReferenceKind.invokeStatic, ReferenceKind.invokeSpecial]
  all_goals rfl

theorem handleTags_mono (h : version ≤ later) (kind : UInt8) :
    handleTags version kind ⊆ handleTags later kind := by
  have hallows : allowsInterfaceMethod kind version → allowsInterfaceMethod kind later := by
    simp only [allowsInterfaceMethod, Bool.and_eq_true, decide_eq_true_eq]
    exact fun ⟨hkind, hversion⟩ => ⟨hkind, Nat.le_trans hversion h⟩
  rw [handleTags_eq, handleTags_eq]
  split
  · by_cases hversion : allowsInterfaceMethod kind version = true
    · rw [if_pos hversion, if_pos (hallows hversion)]
      exact List.Subset.refl _
    · rw [if_neg hversion]
      simp
  · exact List.Subset.refl _

theorem LawfulEntry.mono (h : LawfulEntry t version inModule index tag)
    (hversion : version ≤ later) : LawfulEntry t later inModule index tag where
  known := UInt16.le_trans h.known (major_le_of_le hversion)
  placed := h.placed
  references := h.references
  handle := by
    intro htag
    obtain ⟨kind, target, handle, found, hmem, hfound⟩ := h.handle htag
    exact ⟨kind, target, handle, found, handleTags_mono hversion kind hmem, hfound⟩

theorem Lawful.mono (h : Lawful t version inModule) (hversion : version ≤ later) :
    Lawful t later inModule :=
  fun index tag htag => (h index tag htag).mono hversion

theorem Lawful.of_outside (h : Lawful t version false) : Lawful t version true :=
  fun index tag htag => { h index tag htag with placed := fun _ => rfl }

/-! ## The check of one entry -/

theorem checkTag_eq (tag : Tag) (version : Version) : checkTag tag version =
    if version.major < firstMajor tag then
      .error (.versionGated (.constant tag) (firstMajor tag) version)
    else .ok () := by
  cases tag <;> rfl

theorem checkHandle_eq (t : ConstantTable) (version : Version) (kind : UInt8) (target : UInt16) :
    checkHandle t version kind target =
      match handleTags version kind with
      | [] => .error (.invalid (.referenceKind kind))
      | wanted :: others =>
        if ∃ tag ∈ wanted :: others, t.tag? target = some tag then .ok ()
        else .error (.unexpectedEntry wanted (t.tag? target)) := by
  rw [handleTags_eq]
  unfold checkHandle checkReferenceKind
  split
  · dsimp only [except_ok_bind]
    congr 1
    unfold handleAccepts
    split <;> simp_all
  · rfl

theorem forM_cases {ε α : Type} (step : α → Except ε PUnit) (l : List α) :
    (l.forM step = .ok () ∧ ∀ a ∈ l, step a = .ok ()) ∨
    ∃ before a after e, l = before ++ a :: after ∧ (∀ b ∈ before, step b = .ok ()) ∧
      step a = .error e ∧ l.forM step = .error e := by
  induction l with
  | nil => exact .inl ⟨rfl, by simp⟩
  | cons a l ih =>
    have hcons : (a :: l).forM step = step a >>= fun _ => l.forM step := rfl
    cases ha : step a with
    | error e =>
      rw [ha, except_error_bind] at hcons
      exact .inr ⟨[], a, l, e, rfl, by simp, ha, hcons⟩
    | ok _ =>
      rw [ha, except_ok_bind] at hcons
      rw [hcons]
      rcases ih with ⟨hok, hall⟩ | ⟨before, b, after, e, rfl, hbefore, hb, herror⟩
      · exact .inl ⟨hok, List.forall_mem_cons.mpr ⟨ha, hall⟩⟩
      · exact .inr ⟨a :: before, b, after, e, rfl, List.forall_mem_cons.mpr ⟨ha, hbefore⟩, hb,
          herror⟩

theorem forM_of_split {ε α : Type} {step : α → Except ε PUnit} {before : List α} {a : α} {e : ε}
    (hbefore : ∀ b ∈ before, step b = .ok ()) (ha : step a = .error e) (after : List α) :
    (before ++ a :: after).forM step = .error e := by
  induction before with
  | nil =>
    show (step a >>= fun _ => after.forM step) = _
    rw [ha, except_error_bind]
  | cons b before ih =>
    obtain ⟨hb, hrest⟩ := List.forall_mem_cons.mp hbefore
    show (step b >>= fun _ => (before ++ a :: after).forM step) = _
    rw [hb, except_ok_bind, ih hrest]

section

variable {ε : Type} {x : Except ε PUnit} {accepted : Prop} {refused : ε → Prop} {e : ε}

theorem eq_ok_iff_of_cases (hcases : x = .ok () ∧ accepted ∨ ∃ e, x = .error e ∧ refused e)
    (hnot : ∀ e, refused e → ¬ accepted) : x = .ok () ↔ accepted := by
  rcases hcases with ⟨hok, haccepted⟩ | ⟨e, herror, hrefused⟩
  · exact iff_of_true hok haccepted
  · refine iff_of_false ?_ (hnot e hrefused)
    rw [herror]
    simp

theorem eq_error_iff_of_cases (hcases : x = .ok () ∧ accepted ∨ ∃ e, x = .error e ∧ refused e)
    (hfails : refused e → x = .error e) : x = .error e ↔ refused e := by
  refine ⟨fun herror => ?_, hfails⟩
  rcases hcases with ⟨hok, -⟩ | ⟨found, herror', hrefused⟩
  · rw [hok] at herror
    cases herror
  · rw [herror'] at herror
    exact Except.error.inj herror ▸ hrefused

end

section

variable {links : List (UInt16 × Tag)}

theorem checkReferences_eq (hneeds : needs t index tag = .ok links) (htag : tag ≠ .methodHandle) :
    checkReferences t version index tag = links.forM fun link => t.expect link.1 link.2 := by
  cases tag with
  | methodHandle => exact absurd rfl htag
  | utf8 | integer | float | long | double =>
    obtain rfl := Except.ok.inj hneeds
    rfl
  | classInfo | string | methodType | moduleInfo | packageInfo =>
    obtain ⟨target, htarget, hlinks⟩ := except_bind_eq_ok.mp hneeds
    obtain rfl := Except.ok.inj hlinks
    simp [checkReferences, htarget]
  | nameAndType | fieldRef | methodRef | interfaceMethodRef | dynamic | invokeDynamic =>
    obtain ⟨⟨first, second⟩, hboth, hlinks⟩ := except_bind_eq_ok.mp hneeds
    obtain rfl := Except.ok.inj hlinks
    simp [checkReferences, hboth]

theorem checkReferences_handle {kind : UInt8} {target : UInt16}
    (handle : t.handle index = .ok (kind, target)) :
    checkReferences t version index .methodHandle = checkHandle t version kind target := by
  unfold checkReferences
  rw [handle, except_ok_bind]

theorem forM_expect (t : ConstantTable) (links : List (UInt16 × Tag)) :
    ((links.forM fun link => t.expect link.1 link.2) = .ok () ∧
      ∀ link ∈ links, t.tag? link.1 = some link.2) ∨
    ∃ before target wanted after, links = before ++ (target, wanted) :: after ∧
      (∀ link ∈ before, t.tag? link.1 = some link.2) ∧ t.tag? target ≠ some wanted ∧
      (links.forM fun link => t.expect link.1 link.2) =
        .error (.unexpectedEntry wanted (t.tag? target)) := by
  rcases forM_cases (fun link : UInt16 × Tag => t.expect link.1 link.2) links with
    ⟨hok, hall⟩ | ⟨before, ⟨target, wanted⟩, after, e, rfl, hbefore, hlink, herror⟩
  · exact .inl ⟨hok, fun link hmem => ConstantTable.expect_eq_ok (hall link hmem)⟩
  · have hunmet : t.tag? target ≠ some wanted := by
      intro htag
      rw [ConstantTable.expect_of_tag htag] at hlink
      cases hlink
    rw [ConstantTable.expect_of_ne hunmet] at hlink
    obtain rfl := Except.error.inj hlink
    exact .inr ⟨before, target, wanted, after, rfl,
      fun link hmem => ConstantTable.expect_eq_ok (hbefore link hmem), hunmet, herror⟩

end

section

variable {offset : Nat} {cs : List Constant}

/-- The references of a constant, as `needs` reads them where the constant stands. -/
def links (c : Constant) : List (UInt16 × Tag) :=
  let index (bytes : List UInt8) : UInt16 := UInt16.ofNat (BigEndian.decode bytes)
  let first := index (c.payload.take 2)
  let second := index (c.payload.drop 2)
  match c.tag with
  | .classInfo | .string | .methodType | .moduleInfo | .packageInfo => [(index c.payload, .utf8)]
  | .nameAndType => [(first, .utf8), (second, .utf8)]
  | .fieldRef | .methodRef | .interfaceMethodRef => [(first, .classInfo), (second, .nameAndType)]
  | .dynamic | .invokeDynamic => [(second, .nameAndType)]
  | .utf8 | .integer | .float | .long | .double | .methodHandle => []

theorem needs_eq_ok {start : Nat} {c : Constant} (h : t.Holds offset cs)
    (hc : Constant.at? offset cs index.toNat = some (start, c)) :
    needs t index c.tag = .ok (links c) := by
  unfold links
  cases htag : c.tag with
  | utf8 | integer | float | long | double | methodHandle => rfl
  | classInfo | string | methodType | moduleInfo | packageInfo =>
    simp only [needs, (h.reference hc (by rw [htag]; rfl)).1]
    rfl
  | nameAndType | fieldRef | methodRef | interfaceMethodRef | dynamic | invokeDynamic =>
    simp only [needs, h.references hc (by rw [htag]; rfl)]
    rfl

theorem checkReferences_cases (h : t.Holds offset cs) (htag : t.tag? index = some tag)
    (known : firstMajor tag ≤ version.major)
    (placed : tag = .moduleInfo ∨ tag = .packageInfo → inModule = true) :
    (checkReferences t version index tag = .ok () ∧ LawfulEntry t version inModule index tag) ∨
    ∃ e, checkReferences t version index tag = .error e ∧
      Fault t version inModule index tag e := by
  by_cases hhandle : tag = .methodHandle
  · subst hhandle
    obtain ⟨kind, target, handle⟩ := h.exists_handle htag rfl
    rw [checkReferences_handle handle, checkHandle_eq]
    cases hallowed : handleTags version kind with
    | nil => exact .inr ⟨_, rfl, .handleKind known handle hallowed⟩
    | cons wanted others =>
      dsimp only
      split
      · rename_i hfound
        refine .inl ⟨rfl, known, placed, ⟨[], rfl, by simp⟩, fun _ => ⟨kind, target, handle, ?_⟩⟩
        rw [hallowed]
        exact hfound
      · rename_i hunmet
        exact .inr ⟨_, rfl, .handleTarget known handle hallowed
          fun tag hmem hfound => hunmet ⟨tag, hmem, hfound⟩⟩
  · obtain ⟨start, c, hc, rfl⟩ := h.exists_at? htag
    have hlinks := needs_eq_ok h hc
    rw [checkReferences_eq hlinks hhandle]
    rcases forM_expect t (links c) with
      ⟨hok, hall⟩ | ⟨before, target, wanted, after, hsplit, hmet, hunmet, herror⟩
    · exact .inl ⟨hok, known, placed, ⟨links c, hlinks, hall⟩, fun heq => absurd heq hhandle⟩
    · rw [hsplit] at hlinks
      exact .inr ⟨_, herror, .reference known placed hlinks hmet hunmet⟩

theorem isModuleOnly_iff : isModuleOnly tag = true ↔ tag = .moduleInfo ∨ tag = .packageInfo := by
  simp [isModuleOnly]

theorem checkEntry_cases (version : Version) (inModule : Bool) (index : UInt16)
    (h : t.Holds offset cs) :
    (checkEntry t version inModule index = .ok () ∧
      ∀ tag, t.tag? index = some tag → LawfulEntry t version inModule index tag) ∨
    ∃ e, checkEntry t version inModule index = .error e ∧
      ∃ tag, t.tag? index = some tag ∧ Fault t version inModule index tag e := by
  unfold checkEntry
  cases htag : t.tag? index with
  | none => exact .inl ⟨rfl, by simp⟩
  | some tag =>
    dsimp only
    rw [checkTag_eq]
    by_cases hnew : version.major < firstMajor tag
    · rw [if_pos hnew]
      exact .inr ⟨_, rfl, tag, rfl, .tooNew hnew⟩
    rw [if_neg hnew, except_ok_bind]
    have known := UInt16.not_lt.mp hnew
    by_cases hmodule : isModuleOnly tag = true ∧ inModule = false
    · obtain ⟨honly, rfl⟩ := hmodule
      rw [honly]
      exact .inr ⟨_, rfl, tag, rfl, .misplaced known (isModuleOnly_iff.mp honly) rfl⟩
    have placed : tag = .moduleInfo ∨ tag = .packageInfo → inModule = true := by
      intro honly
      simpa [isModuleOnly_iff.mpr honly] using hmodule
    rw [if_neg (by simpa using hmodule)]
    rcases checkReferences_cases h htag known placed with ⟨hok, hlaw⟩ | ⟨e, herror, hfault⟩
    · exact .inl ⟨hok, fun _ heq => Option.some.inj heq ▸ hlaw⟩
    · exact .inr ⟨e, herror, tag, rfl, hfault⟩

theorem checkEntry_of_fault (htag : t.tag? index = some tag)
    (h : Fault t version inModule index tag e) :
    checkEntry t version inModule index = .error e := by
  unfold checkEntry
  rw [htag]
  dsimp only
  rw [checkTag_eq]
  cases h with
  | tooNew new =>
    rw [if_pos new]
    rfl
  | misplaced known moduleOnly outside =>
    rw [if_neg (UInt16.not_lt.mpr known), except_ok_bind,
      if_pos (by simp [isModuleOnly_iff.mpr moduleOnly, outside])]
  | reference known placed links met unmet =>
    rw [if_neg (UInt16.not_lt.mpr known), except_ok_bind, if_neg ?_, checkReferences_eq links ?_]
    · exact forM_of_split (fun link hmem => ConstantTable.expect_of_tag (met link hmem))
        (ConstantTable.expect_of_ne unmet) _
    · rintro rfl
      simpa using congrArg List.length (Except.ok.inj links)
    · simpa [isModuleOnly_iff] using placed
  | handleKind known handle noKind =>
    rw [if_neg (UInt16.not_lt.mpr known), except_ok_bind, if_neg (by simp [isModuleOnly]),
      checkReferences_handle handle, checkHandle_eq, noKind]
  | handleTarget known handle allowed unmet =>
    rw [if_neg (UInt16.not_lt.mpr known), except_ok_bind, if_neg (by simp [isModuleOnly]),
      checkReferences_handle handle, checkHandle_eq, allowed]
    exact if_neg fun ⟨tag, hmem, hfound⟩ => unmet tag hmem hfound

theorem checkEntry_eq_ok (h : t.Holds offset cs) : checkEntry t version inModule index = .ok () ↔
    ∀ tag, t.tag? index = some tag → LawfulEntry t version inModule index tag :=
  eq_ok_iff_of_cases (checkEntry_cases version inModule index h)
    fun _ ⟨tag, htag, hfault⟩ hlaw => hfault.not_lawfulEntry (hlaw tag htag)

theorem checkEntry_eq_error (h : t.Holds offset cs) :
    checkEntry t version inModule index = .error e ↔
      ∃ tag, t.tag? index = some tag ∧ Fault t version inModule index tag e :=
  eq_error_iff_of_cases (checkEntry_cases version inModule index h)
    fun ⟨_, htag, hfault⟩ => checkEntry_of_fault htag hfault

/-! ## The check of a pool -/

/-- The index is the smallest that breaks its rule, and this is the error. -/
structure FirstFault (t : ConstantTable) (version : Version) (inModule : Bool) (index : UInt16)
    (e : Error) : Prop where
  fault : ∃ tag, t.tag? index = some tag ∧ Fault t version inModule index tag e
  first : ∀ i < index, ∀ tag, t.tag? i = some tag → LawfulEntry t version inModule i tag

theorem FirstFault.not_lawful (h : FirstFault t version inModule index e) :
    ¬ Lawful t version inModule := by
  intro hlaw
  obtain ⟨tag, htag, hfault⟩ := h.fault
  exact hfault.not_lawfulEntry (hlaw index tag htag)

theorem lt_count_of_tag? (htag : t.tag? index = some tag) : index.toNat < t.count := by
  obtain ⟨start, hstart, -⟩ := Option.bind_eq_some_iff.mp htag
  exact (Array.getElem?_eq_some_iff.mp (Option.join_eq_some_iff.mp hstart)).1

theorem pos_of_tag? (h : t.Holds offset cs) (htag : t.tag? index = some tag) :
    0 < index.toNat := by
  rw [Nat.pos_iff_ne_zero]
  intro hzero
  rw [h.tag?, hzero, Constant.at?_zero] at htag
  cases htag

theorem checkPool_of_firstFault (h : t.Holds offset cs) (hcount : t.count < 65536)
    (hfault : FirstFault t version inModule index e) :
    checkPool t version inModule = .error e := by
  obtain ⟨tag, htag, herror⟩ := hfault.fault
  have hpos := pos_of_tag? h htag
  have hlt := lt_count_of_tag? htag
  have hbefore {i : Nat} (hi : i < index.toNat) :
      checkEntry t version inModule (UInt16.ofNat i) = .ok () := by
    refine (checkEntry_eq_ok h).mpr (hfault.first _ ?_)
    rw [UInt16.lt_iff_toNat_lt, UInt16.toNat_ofNat_of_lt' (hi.trans index.toNat_lt)]
    exact hi
  have hsplit : List.range' 1 (t.count % 65536 - 1) = List.range' 1 (index.toNat - 1) ++
      index.toNat :: List.range' (index.toNat + 1) (t.count - 1 - index.toNat) := by
    have hlength : t.count % 65536 - 1 =
        (index.toNat - 1) + (t.count - 1 - index.toNat + 1) := by omega
    rw [hlength, ← List.range'_append_1, List.range'_succ]
    congr <;> omega
  unfold checkPool
  rw [hsplit]
  refine forM_of_split (fun i hi => hbefore ?_) ?_ _
  · rw [List.mem_range'_1] at hi
    omega
  · rw [UInt16.ofNat_toNat]
    exact checkEntry_of_fault htag herror

theorem checkPool_cases (version : Version) (inModule : Bool) (h : t.Holds offset cs)
    (hcount : t.count < 65536) :
    (checkPool t version inModule = .ok () ∧ Lawful t version inModule) ∨
    ∃ e, checkPool t version inModule = .error e ∧
      ∃ index, FirstFault t version inModule index e := by
  -- every index that has a tag is among those that the check walks over
  have hwalked {i : UInt16} {tag : Tag} (htag : t.tag? i = some tag) :
      1 ≤ i.toNat ∧ i.toNat < 1 + (t.count % 65536 - 1) := by
    have := pos_of_tag? h htag
    have := lt_count_of_tag? htag
    omega
  have hlawful {i : UInt16} {tag : Tag} (htag : t.tag? i = some tag)
      (hok : checkEntry t version inModule (UInt16.ofNat i.toNat) = .ok ()) :
      LawfulEntry t version inModule i tag := by
    rw [UInt16.ofNat_toNat] at hok
    exact (checkEntry_eq_ok h).mp hok tag htag
  rcases forM_cases (fun i => checkEntry t version inModule (UInt16.ofNat i))
      (List.range' 1 (t.count % 65536 - 1)) with
    ⟨hok, hall⟩ | ⟨before, i, after, e, hsplit, hbefore, hi, herror⟩
  · exact .inl ⟨hok, fun i tag htag => hlawful htag (hall _ (List.mem_range'_1.mpr (hwalked htag)))⟩
  · obtain ⟨k, -, rfl, hrest⟩ := List.range'_eq_append_iff.mp hsplit
    obtain ⟨rfl, -⟩ := List.range'_eq_cons_iff.mp hrest.symm
    refine .inr ⟨e, herror, _, (checkEntry_eq_error h).mp hi, fun j hj tag htag => ?_⟩
    refine hlawful htag (hbefore _ (List.mem_range'_1.mpr ⟨(hwalked htag).1, ?_⟩))
    have hle : (UInt16.ofNat (1 + k * 1)).toNat ≤ 1 + k * 1 := Nat.mod_le _ _
    rw [UInt16.lt_iff_toNat_lt] at hj
    omega

/-- A pool may be too large for the check to walk over all of it. -/
theorem checkPool_of_lawful (h : t.Holds offset cs) (hlaw : Lawful t version inModule) :
    checkPool t version inModule = .ok () := by
  rcases forM_cases (fun i => checkEntry t version inModule (UInt16.ofNat i))
      (List.range' 1 (t.count % 65536 - 1)) with
    ⟨hok, -⟩ | ⟨before, i, after, e, -, -, hi, -⟩
  · exact hok
  · obtain ⟨tag, htag, hfault⟩ := (checkEntry_eq_error h).mp hi
    exact absurd (hlaw _ tag htag) hfault.not_lawfulEntry

theorem checkPool_eq_ok (h : t.Holds offset cs) (hcount : t.count < 65536) :
    checkPool t version inModule = .ok () ↔ Lawful t version inModule :=
  eq_ok_iff_of_cases (checkPool_cases version inModule h hcount)
    fun _ ⟨_, hfirst⟩ => hfirst.not_lawful

theorem checkPool_eq_error (h : t.Holds offset cs) (hcount : t.count < 65536) :
    checkPool t version inModule = .error e ↔ ∃ index, FirstFault t version inModule index e :=
  eq_error_iff_of_cases (checkPool_cases version inModule h hcount)
    fun ⟨_, hfirst⟩ => checkPool_of_firstFault h hcount hfirst

/-! ## What a legal pool answers -/

theorem exists_expectText (h : t.Holds offset cs) (htag : t.tag? index = some .utf8) :
    ∃ text, t.expectText index = .ok text := by
  obtain ⟨text, htext⟩ := h.exists_textBytes htag
  unfold ConstantTable.expectText ConstantTable.text
  rw [ConstantTable.expect_of_tag htag, except_ok_bind, htext]
  exact ⟨_, rfl⟩

theorem Lawful.exists_className (hlaw : Lawful t version inModule) (h : t.Holds offset cs)
    (htag : t.tag? index = some .classInfo) : ∃ name, t.className index = .ok name := by
  obtain ⟨links, hlinks, hall⟩ := (hlaw index _ htag).references
  obtain ⟨target, htarget, hlinks⟩ := except_bind_eq_ok.mp hlinks
  obtain rfl := Except.ok.inj hlinks
  unfold ConstantTable.className
  rw [ConstantTable.expect_of_tag htag, except_ok_bind, htarget, except_ok_bind]
  exact exists_expectText h (hall (target, .utf8) (by simp))

/-- The class, the name and the descriptor of a reference to a field or method are there. -/
def Resolves (t : ConstantTable) (index : UInt16) : Prop :=
  ∃ owner member name descriptor, t.references index = .ok (owner, member) ∧
    t.references member = .ok (name, descriptor) ∧ (∃ text, t.className owner = .ok text) ∧
    (∃ text, t.expectText name = .ok text) ∧ ∃ text, t.expectText descriptor = .ok text

theorem Lawful.resolves (hlaw : Lawful t version inModule) (h : t.Holds offset cs)
    (hmember : tag = .fieldRef ∨ tag = .methodRef ∨ tag = .interfaceMethodRef)
    (htag : t.tag? index = some tag) : Resolves t index := by
  obtain ⟨links, hlinks, hall⟩ := (hlaw index tag htag).references
  obtain ⟨owner, member, hboth, rfl⟩ : ∃ owner member, t.references index = .ok (owner, member) ∧
      links = [(owner, .classInfo), (member, .nameAndType)] := by
    rcases hmember with rfl | rfl | rfl <;>
    · obtain ⟨⟨owner, member⟩, hboth, hlinks⟩ := except_bind_eq_ok.mp hlinks
      exact ⟨owner, member, hboth, (Except.ok.inj hlinks).symm⟩
  have howner : t.tag? owner = some .classInfo := hall (owner, .classInfo) (by simp)
  have hnameAndType : t.tag? member = some .nameAndType := hall (member, .nameAndType) (by simp)
  obtain ⟨texts, htexts, hutf8⟩ := (hlaw member _ hnameAndType).references
  obtain ⟨⟨name, descriptor⟩, hnames, htexts⟩ := except_bind_eq_ok.mp htexts
  obtain rfl := Except.ok.inj htexts
  exact ⟨owner, member, name, descriptor, hboth, hnames, hlaw.exists_className h howner,
    exists_expectText h (hutf8 (name, .utf8) (by simp)),
    exists_expectText h (hutf8 (descriptor, .utf8) (by simp))⟩

end

/-- The pool of an accepted file, or a pool under construction that can be written. -/
inductive IsPool : ConstantTable → Prop
  | read (bytes : Bytes) (c : ClassFile) (h : ClassFile.parse bytes = .ok c) : IsPool c.pool
  | built (capacity : Nat) (growth : Growth) (calls : List PoolCall) (count : UInt16)
    (h : (PoolCall.runAll calls (.withPolicy capacity growth)).encodedCount = .ok count) :
    IsPool (PoolCall.runAll calls (.withPolicy capacity growth)).table

theorem IsPool.holds (h : IsPool t) : ∃ offset cs, t.Holds offset cs ∧ t.count < 65536 := by
  cases h with
  | read bytes c hparse =>
    obtain ⟨s, trailing, hs, hsplit, rfl⟩ := ClassFile.parse_eq_ok.mp hparse
    have := s.count.toNat_lt
    refine ⟨10, s.constants, ClassFile.holds_classFile hs hsplit, ?_⟩
    rw [ClassFile.count_classFile hs]
    omega
  | built capacity growth calls count hcount =>
    obtain ⟨cs, -, hp⟩ := PoolCall.runAll_represents calls (.withPolicy capacity growth)
    refine ⟨0, cs, hp.holds, ?_⟩
    show (PoolCall.runAll calls (.withPolicy capacity growth)).count < 65536
    rw [ConstantPool.encodedCount_eq_ok hcount]
    exact count.toNat_lt

/-- The check accepts a pool exactly if every entry keeps its rule, and else fails with the error of
the smallest index that does not. What it accepts can be resolved, and is legal in later versions
and in `module-info` as well. -/
theorem checkPool_decides_lawful (ht : IsPool t) (version : Version) (inModule : Bool) :
    (checkPool t version inModule = .ok () ↔ Lawful t version inModule) ∧
    (∀ e, checkPool t version inModule = .error e ↔
      ∃ index, FirstFault t version inModule index e) ∧
    (checkPool t version inModule = .ok () →
      (∀ index, t.tag? index = some .classInfo → ∃ name, t.className index = .ok name) ∧
      ∀ index tag, tag = .fieldRef ∨ tag = .methodRef ∨ tag = .interfaceMethodRef →
        t.tag? index = some tag → Resolves t index) ∧
    (checkPool t version inModule = .ok () →
      ∀ later, version ≤ later → checkPool t later inModule = .ok ()) ∧
    (checkPool t version false = .ok () → checkPool t version true = .ok ()) := by
  obtain ⟨offset, cs, h, hcount⟩ := ht.holds
  refine ⟨checkPool_eq_ok h hcount, fun e => checkPool_eq_error h hcount, fun hok => ?_,
    fun hok later hlater => ?_, fun hok => ?_⟩
  · have hlaw := (checkPool_eq_ok h hcount).mp hok
    exact ⟨fun index => hlaw.exists_className h, fun index tag => hlaw.resolves h⟩
  · exact (checkPool_eq_ok h hcount).mpr (((checkPool_eq_ok h hcount).mp hok).mono hlater)
  · exact (checkPool_eq_ok h hcount).mpr ((checkPool_eq_ok h hcount).mp hok).of_outside

/-- A method handle that leads to a number, and behind it one whose kind is none. -/
def strayCalls : List PoolCall := [.int 7, .handle 6 1, .handle 10 1]

theorem strayCalls_firstFault : ∃ index,
    FirstFault (PoolCall.runAll strayCalls .empty).table .v1_8 false index
      (.unexpectedEntry .methodRef (some .integer)) :=
  ((checkPool_decides_lawful (.built 200 Growth.pool strayCalls 4 rfl) .v1_8 false).2.1 _).mp rfl

end JavaClass.Validity
