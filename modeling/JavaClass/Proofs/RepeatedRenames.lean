import JavaClass.Proofs.CheckedTexts
import JavaClass.Proofs.Renaming

/-!
# Renaming again

A new name takes the place of the one before it, so of several renames only the last one shows. The
name that a class already has is written back as it is, unless its text is not in the form that is
written.
-/

namespace JavaClass

theorem ModifiedUtf8.exists_splits_of_decode? {bytes : Bytes} {text : String}
    (h : decode? bytes = .ok text) :
    ∃ seqs, Splits bytes.toList seqs ∧ Utf16.encode text.toList = seqs.map Sequence.unit := by
  unfold decode? at h
  split at h
  · rename_i units hread
    obtain rfl := Except.ok.inj h
    exact decodeReusing?_eq_ok.mp ⟨units, hread⟩
  · cases h

namespace Rename

open Constant

variable {bytes : Bytes} {index : UInt16} {c : ClassFile} {name : String}

theorem exists_namedBy_of_thisName (h : c.thisName = .ok name) : ∃ index, c.NamedBy index := by
  unfold ClassFile.thisName ConstantTable.className ConstantTable.expectText at h
  obtain ⟨_, hclass, h⟩ := except_bind_eq_ok.mp h
  obtain ⟨index, hrefers, h⟩ := except_bind_eq_ok.mp h
  obtain ⟨_, htext, -⟩ := except_bind_eq_ok.mp h
  exact ⟨index, ConstantTable.expect_eq_ok hclass, hrefers, ConstantTable.expect_eq_ok htext⟩

namespace NameSite

theorem exists_of_className (h : className bytes = .ok name) :
    ∃ index, ∃ site : NameSite bytes index,
      ModifiedUtf8.decode site.name.payload.toArray = name := by
  have hread := h
  unfold className at hread
  obtain ⟨c, hparse, hname⟩ := except_bind_eq_ok.mp hread
  obtain ⟨index, hnamed⟩ := exists_namedBy_of_thisName hname
  obtain ⟨site, rfl⟩ := exists_of_namedBy hparse hnamed
  exact ⟨index, site, Except.ok.inj (site.className_eq.symm.trans h)⟩

variable (site : NameSite bytes index)

theorem length_name_lt : site.name.payload.length < 65536 :=
  Tag.fits_utf8.mp (site.isText ▸ site.name.fits)

theorem checkedText_eq : (site.parts.classFile bytes).pool.checkedText index =
    ModifiedUtf8.decode? site.name.payload.toArray := by
  unfold ConstantTable.checkedText
  rw [ConstantTable.expect_of_tag site.named.isText, except_ok_bind, site.textBytes_eq,
    except_ok_bind]

theorem spell_name : site.spell site.name = bytes.toList := by
  unfold spell replaced
  rw [← site.constants, site.content]
  rfl

theorem spell_injective : Function.Injective site.spell := by
  intro c d h
  rw [spell_eq, spell_eq] at h
  exact (encode_append_inj (List.append_cancel_left h)).1

theorem spell_renamed {out : Bytes} {new : Constant} (hnew : new.tag = .utf8)
    (hout : out.toList = site.spell new) : (site.renamed hnew hout).spell = site.spell := rfl

theorem renameClass_eq_self : renameClass bytes name = .ok bytes ↔
    ModifiedUtf8.encode name = site.name.payload.toArray := by
  have hlength := site.length_name_lt
  by_cases hshort : (ModifiedUtf8.encode name).size ≤ 65535
  · have hlt : (ModifiedUtf8.encode name).size < 65536 := by omega
    rw [site.renameClass_eq_ok hshort, Except.ok.injEq, ← Array.toList_inj, site.toList_splice _ hlt,
      ← site.spell_name, site.spell_injective.eq_iff, Constant.ext_iff, ← Array.toList_inj]
    exact and_iff_right site.isText.symm
  · constructor
    · rw [renameClass_of_long site.parse_eq site.named (by omega)]
      intro h
      cases h
    · intro h
      rw [h, List.size_toArray] at hshort
      omega

end NameSite

theorem renameClass_of_renamed {mid : Bytes} {x : String} (h : renameClass bytes x = .ok mid)
    (y : String) : renameClass mid y = renameClass bytes y := by
  obtain ⟨c, index, hparse, hnamed, hx⟩ := named_of_renameClass_eq_ok h
  obtain ⟨site, rfl⟩ := NameSite.exists_of_namedBy hparse hnamed
  rw [site.renameClass_eq_ok hx] at h
  obtain rfl := Except.ok.inj h
  have hmid := site.toList_splice (ModifiedUtf8.encode x) (by omega)
  -- the first rename leaves a file with the same place for the name
  let next := site.renamed rfl hmid
  by_cases hy : (ModifiedUtf8.encode y).size ≤ 65535
  · rw [site.renameClass_eq_ok hy, next.renameClass_eq_ok hy, Except.ok.injEq, ← Array.toList_inj,
      site.toList_splice _ (by omega), next.toList_splice _ (by omega), site.spell_renamed rfl hmid]
  · rw [renameClass_of_long hparse hnamed (by omega),
      renameClass_of_long next.parse_eq next.named (by omega)]

/-- The second of two renames gives what it would have given without the first, its error included.
The name of the class leaves the bytes as they are exactly when these spell the name the way it is
written; of the texts that pass the check, when they have no overlong sequence. -/
theorem renames_compose (bytes : Bytes) :
    (∀ x mid, renameClass bytes x = .ok mid →
      ∀ y, renameClass mid y = renameClass bytes y) ∧
    ∀ name, className bytes = .ok name →
      ∃ c index text, ClassFile.parse bytes = .ok c ∧ c.NamedBy index ∧
        c.pool.textBytes index = .ok text ∧ ModifiedUtf8.decode text = name ∧
        (renameClass bytes name = .ok bytes ↔ ModifiedUtf8.encode name = text) ∧
        ∀ checked, c.pool.checkedText index = .ok checked →
          checked = name ∧ (∃ seqs, ModifiedUtf8.Splits text.toList seqs) ∧
            ∀ seqs, ModifiedUtf8.Splits text.toList seqs →
              (renameClass bytes name = .ok bytes ↔ ∀ q ∈ seqs, ¬q.Overlong) := by
  refine ⟨fun x mid => renameClass_of_renamed, ?_⟩
  intro name hname
  obtain ⟨index, site, rfl⟩ := NameSite.exists_of_className hname
  refine ⟨_, index, _, site.parse_eq, site.named, site.textBytes_eq, rfl,
    site.renameClass_eq_self, ?_⟩
  intro checked hchecked
  rw [site.checkedText_eq] at hchecked
  obtain ⟨seqs, hseqs, hunits⟩ := ModifiedUtf8.exists_splits_of_decode? hchecked
  obtain rfl : ModifiedUtf8.decode site.name.payload.toArray = checked :=
    (ModifiedUtf8.agrees_of_splits hseqs hunits).1 #[]
  refine ⟨rfl, ⟨seqs, hseqs⟩, fun others hothers => ?_⟩
  rw [site.renameClass_eq_self]
  rw [hseqs.unit_unique hothers] at hunits
  exact (ModifiedUtf8.agrees_of_splits hothers hunits).2.2

end Rename

end JavaClass
