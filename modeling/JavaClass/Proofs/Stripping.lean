import JavaClass.Proofs.RepeatedRenames
import Mathlib.Data.List.DropRight

/-!
# Stripping a marker

The marker cuts the name where it stands first, so what is left of the name has it no more. A part
of a text that passes the check is never written in more bytes than the whole text had.
-/

namespace JavaClass

theorem ModifiedUtf8.size_encode_le_of_isPrefix {front text : String}
    (h : front.toList <+: text.toList) : (encode front).size ≤ (encode text).size := by
  obtain ⟨rest, hrest⟩ := h
  unfold encode Utf16.encode
  rw [← hrest, List.flatMap_append, List.flatMap_append]
  simp

namespace Rename

variable {marker text front : List Char}

/-! ## Where a marker stands first -/

/-- The text in front of the first place where the marker stands. -/
structure CutsAt (text marker front : List Char) : Prop where
  stands : front ++ marker <+: text
  first : ∀ other, other ++ marker <+: text → front.length ≤ other.length

namespace CutsAt

theorem nil (h : marker <+: text) : CutsAt text marker [] where
  stands := h
  first _ _ := Nat.zero_le _

theorem cons {c : Char} (h : CutsAt text marker front) (hnot : ¬marker <+: c :: text) :
    CutsAt (c :: text) marker (c :: front) where
  stands := List.cons_prefix_cons.mpr ⟨rfl, h.stands⟩
  first := by
    rintro (_ | ⟨d, other⟩) hother
    · exact absurd hother hnot
    · exact Nat.succ_le_succ (h.first other (List.cons_prefix_cons.mp hother).2)

/-- Another copy of the marker, however it overlaps with this one, does not start further in front. -/
theorem front_free (h : CutsAt text marker front) (hne : marker ≠ []) : ¬marker <:+: front := by
  rintro ⟨before, after, rfl⟩
  have hearlier : before ++ marker <+: text := by
    apply List.IsPrefix.trans _ h.stands
    rw [List.append_assoc]
    exact List.prefix_append _ _
  have hle := h.first before hearlier
  have hpos := List.length_pos_iff.mpr hne
  simp only [List.length_append] at hle
  omega

end CutsAt

theorem beforeMarker?_eq_none {seen : List Char} :
    beforeMarker? marker seen text = none ↔ ¬marker <:+: text := by
  induction text generalizing seen with
  | nil =>
    rw [beforeMarker?, List.infix_nil, ← List.isEmpty_iff]
    split <;> simp [*]
  | cons c text ih =>
    rw [beforeMarker?, List.infix_cons_iff, ← List.isPrefixOf_iff_prefix]
    split
    · simp [*]
    · rw [ih]
      simp [*]

theorem cutsAt_of_beforeMarker? {seen kept : List Char}
    (h : beforeMarker? marker seen text = some kept) :
    ∃ front, kept = seen.reverse ++ front ∧ CutsAt text marker front := by
  induction text generalizing seen with
  | nil =>
    rw [beforeMarker?] at h
    split at h
    · rename_i hempty
      refine ⟨[], by simpa using h.symm, CutsAt.nil ?_⟩
      rw [List.isEmpty_iff.mp hempty]
    · cases h
  | cons c text ih =>
    rw [beforeMarker?] at h
    split at h
    · rename_i hstands
      exact ⟨[], by simpa using h.symm, CutsAt.nil (List.isPrefixOf_iff_prefix.mp hstands)⟩
    · rename_i hnot
      obtain ⟨front, rfl, hcut⟩ := ih h
      refine ⟨c :: front, by simp, hcut.cons ?_⟩
      rwa [← List.isPrefixOf_iff_prefix]

example : beforeMarker? "$$".toList [] "a$$$b".toList = some ['a'] := by decide

/-! ## File names -/

/-- The text behind the last slash, or all of it where there is none. -/
def BehindSlash (text last : List Char) : Prop :=
  '/' ∉ last ∧ (last = text ∨ '/' :: last <:+ text)

theorem behindSlash_rtakeWhile (text : List Char) :
    BehindSlash text (text.rtakeWhile (· ≠ '/')) := by
  induction text using List.reverseRecOn with
  | nil => simp [BehindSlash]
  | append_singleton text c ih =>
    obtain ⟨hslash, hwhole⟩ := ih
    rw [List.rtakeWhile_concat]
    by_cases hc : c = '/'
    · subst hc
      simp [BehindSlash]
    · rw [if_pos (by simpa using hc)]
      refine ⟨by simpa [Ne.symm hc] using hslash, hwhole.imp ?_ ?_⟩
      · intro h
        rw [h]
      · rintro ⟨dir, hdir⟩
        refine ⟨dir, ?_⟩
        rw [← List.cons_append, ← List.append_assoc, hdir]

theorem fileName_behindSlash (r : Renamed) : ∃ last, BehindSlash r.name.toList last ∧
    r.fileName = String.ofList last ++ ".class" ∧ '/' ∉ r.fileName.toList := by
  have hlast := behindSlash_rtakeWhile r.name.toList
  refine ⟨_, hlast, rfl, ?_⟩
  show '/' ∉ (String.ofList (r.name.toList.rtakeWhile (· ≠ '/')) ++ ".class").toList
  rw [String.toList_append, String.toList_ofList, List.mem_append, not_or]
  exact ⟨hlast.1, by decide⟩

/-! ## Stripping -/

variable {bytes : Bytes} {index : UInt16} {origin p : String}

theorem map_mk_eq_ok {x : Except RenameError Bytes} {r : Renamed} :
    x.map (Renamed.mk p) = .ok r ↔ r.name = p ∧ x = .ok r.bytes := by
  obtain ⟨name, out⟩ := r
  cases x with
  | error e => simp [Except.map]
  | ok a => simp [Except.map, eq_comm]

theorem map_mk_eq_error {x : Except RenameError Bytes} {e : RenameError} :
    x.map (Renamed.mk p) = .error e ↔ x = .error e := by
  cases x with
  | error e => simp [Except.map]
  | ok a => simp [Except.map]

theorem stripMarker_of_error {e : Error} (h : className bytes = .error e) (marker : String) :
    stripMarker bytes marker = .error (.classFile e) := by
  unfold stripMarker
  rw [h, lift_error, except_error_bind]

theorem stripMarker_of_missing {marker : String} (h : className bytes = .ok origin)
    (hnot : ¬marker.toList <:+: origin.toList) :
    stripMarker bytes marker = .error (.markerNotFound origin marker) := by
  unfold stripMarker
  rw [h, lift_ok, except_ok_bind, beforeMarker?_eq_none.mpr hnot]
  rfl

theorem stripMarker_of_contained {marker : String} (h : className bytes = .ok origin)
    (hstands : marker.toList <:+: origin.toList) :
    ∃ p : String, CutsAt origin.toList marker.toList p.toList ∧
      stripMarker bytes marker = (renameClass bytes p).map (Renamed.mk p) := by
  obtain ⟨kept, hkept⟩ : ∃ kept, beforeMarker? marker.toList [] origin.toList = some kept := by
    rw [← Option.ne_none_iff_exists']
    intro hnone
    exact beforeMarker?_eq_none.mp hnone hstands
  obtain ⟨_, rfl, hcut⟩ := cutsAt_of_beforeMarker? hkept
  refine ⟨String.ofList kept, by rw [String.toList_ofList]; exact hcut, ?_⟩
  unfold stripMarker
  rw [h, lift_ok, except_ok_bind, hkept]
  exact bind_pure_comp _ _

theorem className_of_renameClass {out : Bytes} (h : renameClass bytes p = .ok out) :
    className out = .ok p := by
  obtain ⟨c, index, hparse, hnamed, hshort⟩ := named_of_renameClass_eq_ok h
  obtain ⟨other, hother, hrenamed⟩ := renameClass_eq_ok hparse hnamed hshort
  obtain rfl := Except.ok.inj (h.symm.trans hother)
  exact hrenamed.name

theorem renameClass_ne_markerNotFound (h : className bytes = .ok origin) (p name marker : String) :
    renameClass bytes p ≠ .error (.markerNotFound name marker) := by
  obtain ⟨index, site, -⟩ := NameSite.exists_of_className h
  rw [renameClass_of_namedBy site.parse_eq site.named site.entryRange_eq]
  split
  · nofun
  · nofun

theorem NameSite.exists_renameClass_of_checked (site : NameSite bytes index)
    (h : className bytes = .ok origin) {checked : String}
    (hchecked : (site.parts.classFile bytes).pool.checkedText index = .ok checked)
    (hp : p.toList <+: origin.toList) : ∃ out, renameClass bytes p = .ok out := by
  rw [site.checkedText_eq] at hchecked
  obtain ⟨seqs, hseqs, hunits⟩ := ModifiedUtf8.exists_splits_of_decode? hchecked
  obtain ⟨htrusted, hlength, -⟩ := ModifiedUtf8.agrees_of_splits hseqs hunits
  have horigin : ModifiedUtf8.decode site.name.payload.toArray = origin :=
    Except.ok.inj (site.className_eq.symm.trans h)
  obtain rfl : origin = checked := horigin.symm.trans (htrusted #[])
  have hsize := ModifiedUtf8.size_encode_le_of_isPrefix hp
  rw [← ModifiedUtf8.size_encode] at hlength
  have hshort : site.name.payload.toArray.size < 65536 := site.length_name_lt
  exact ⟨_, site.renameClass_eq_ok (by omega)⟩

/-- Stripping fails where the name cannot be read, and reports a missing marker exactly where the
name that is read does not contain it. Otherwise it renames the class to what stands in front of the
first marker, a name that has no marker left; where the text of the old name passes the check, that
never fails. -/
theorem stripMarker_cuts_name (bytes : Bytes) (marker : String) :
    (∀ e, className bytes = .error e → stripMarker bytes marker = .error (.classFile e)) ∧
    ∀ origin, className bytes = .ok origin →
      (∀ name other, stripMarker bytes marker = .error (.markerNotFound name other) ↔
        name = origin ∧ other = marker ∧ ¬marker.toList <:+: origin.toList) ∧
      (marker.toList <:+: origin.toList → ∃ p : String,
        CutsAt origin.toList marker.toList p.toList ∧
        stripMarker bytes marker = (renameClass bytes p).map (Renamed.mk p) ∧
        (∀ r, stripMarker bytes marker = .ok r →
          r.name = p ∧ className r.bytes = .ok p ∧
          (marker ≠ "" → stripMarker r.bytes marker = .error (.markerNotFound p marker)) ∧
          ∃ last, BehindSlash p.toList last ∧ r.fileName = String.ofList last ++ ".class" ∧
            '/' ∉ r.fileName.toList) ∧
        ∀ c index checked, ClassFile.parse bytes = .ok c → c.NamedBy index →
          c.pool.checkedText index = .ok checked →
            ∃ out, stripMarker bytes marker = .ok ⟨p, out⟩) := by
  refine ⟨fun e h => stripMarker_of_error h marker, fun origin h => ⟨?_, ?_⟩⟩
  · intro name other
    constructor
    · intro herror
      by_cases hstands : marker.toList <:+: origin.toList
      · obtain ⟨p, -, hstrip⟩ := stripMarker_of_contained h hstands
        have hrename := map_mk_eq_error.mp (hstrip.symm.trans herror)
        exact absurd hrename (renameClass_ne_markerNotFound h p name other)
      · rw [stripMarker_of_missing h hstands] at herror
        cases herror
        exact ⟨rfl, rfl, hstands⟩
    · rintro ⟨rfl, rfl, hnot⟩
      exact stripMarker_of_missing h hnot
  · intro hstands
    obtain ⟨p, hcut, hstrip⟩ := stripMarker_of_contained h hstands
    refine ⟨p, hcut, hstrip, ?_, ?_⟩
    · intro r hr
      obtain ⟨rfl, hrename⟩ := map_mk_eq_ok.mp (hstrip.symm.trans hr)
      have hname := className_of_renameClass hrename
      refine ⟨rfl, hname, fun hne => ?_, fileName_behindSlash r⟩
      apply stripMarker_of_missing hname
      exact hcut.front_free (by simpa using hne)
    · intro c index checked hparse hnamed hchecked
      obtain ⟨site, rfl⟩ := NameSite.exists_of_namedBy hparse hnamed
      have hfront : p.toList <+: origin.toList := (List.prefix_append _ _).trans hcut.stands
      obtain ⟨out, hrename⟩ := site.exists_renameClass_of_checked h hchecked hfront
      exact ⟨out, by rw [hstrip, hrename]; rfl⟩

end Rename

end JavaClass
