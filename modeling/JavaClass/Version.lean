/-!
# Class file versions

A version is a major and a minor number, ordered by the major one first.
-/

namespace JavaClass

structure Version where
  major : UInt16
  minor : UInt16
  deriving DecidableEq, Repr

namespace Version

def v1_1 : Version := ⟨45, 3⟩
def v1_2 : Version := ⟨46, 0⟩
def v1_3 : Version := ⟨47, 0⟩
def v1_4 : Version := ⟨48, 0⟩
def v1_5 : Version := ⟨49, 0⟩
def v1_6 : Version := ⟨50, 0⟩
def v1_7 : Version := ⟨51, 0⟩
def v1_8 : Version := ⟨52, 0⟩
def v9 : Version := ⟨53, 0⟩
def v10 : Version := ⟨54, 0⟩
def v11 : Version := ⟨55, 0⟩
def v17 : Version := ⟨61, 0⟩
def v21 : Version := ⟨65, 0⟩
def v25 : Version := ⟨69, 0⟩

/-- The named versions, oldest first. -/
def released : List Version :=
  [v1_1, v1_2, v1_3, v1_4, v1_5, v1_6, v1_7, v1_8, v9, v10, v11, v17, v21, v25]

/-- Place in the order of versions: the major number decides, then the minor one. -/
def rank (v : Version) : Nat := v.major.toNat * 65536 + v.minor.toNat

instance : LE Version := ⟨fun a b => a.rank ≤ b.rank⟩
instance : LT Version := ⟨fun a b => a.rank < b.rank⟩
instance : Ord Version := ⟨fun a b => compare a.rank b.rank⟩
instance (a b : Version) : Decidable (a ≤ b) := inferInstanceAs (Decidable (a.rank ≤ b.rank))
instance (a b : Version) : Decidable (a < b) := inferInstanceAs (Decidable (a.rank < b.rank))

/-- The four version bytes of a class file as one number: minor above, major below. -/
def packed (v : Version) : UInt32 := v.minor.toUInt32 <<< 16 ||| v.major.toUInt32

def ofPacked (n : UInt32) : Version := ⟨n.toUInt16, (n >>> 16).toUInt16⟩

instance : ToString Version := ⟨fun v => s!"{v.major.toNat}.{v.minor.toNat}"⟩

end Version
end JavaClass
