import JavaClass.Text.ModifiedUtf8
import Mathlib.Data.List.Basic

/-!
# Sequences of bytes

The byte syntax of encoded text, beside the readers that walk over it: a unit is one byte, or a lead
byte with one or two trailing ones. Both readers take a sequence as a whole and give its unit. The
checked reader stops where no sequence goes on.
-/

namespace JavaClass.ModifiedUtf8

theorem toNat_byte {n : Nat} (h : n < 256) : (UInt8.ofNat n).toNat = n :=
  UInt8.toNat_ofNat_of_lt' h

/-! ## The syntax -/

def Plain (b : UInt8) : Prop := 0x01 ≤ b.toNat ∧ b.toNat ≤ 0x7F

def LeadsTwo (b : UInt8) : Prop := 0xC0 ≤ b.toNat ∧ b.toNat ≤ 0xDF

def LeadsThree (b : UInt8) : Prop := 0xE0 ≤ b.toNat ∧ b.toNat ≤ 0xEF

def Trails (b : UInt8) : Prop := 0x80 ≤ b.toNat ∧ b.toNat ≤ 0xBF

instance (b : UInt8) : Decidable (Plain b) := inferInstanceAs (Decidable (_ ∧ _))
instance (b : UInt8) : Decidable (LeadsTwo b) := inferInstanceAs (Decidable (_ ∧ _))
instance (b : UInt8) : Decidable (LeadsThree b) := inferInstanceAs (Decidable (_ ∧ _))
instance (b : UInt8) : Decidable (Trails b) := inferInstanceAs (Decidable (_ ∧ _))

inductive Sequence
  | one (b : UInt8) (plain : Plain b)
  | two (lead next : UInt8) (leads : LeadsTwo lead) (trails : Trails next)
  | three (lead next last : UInt8) (leads : LeadsThree lead) (trails : Trails next)
      (ends : Trails last)

namespace Sequence

def bytes : Sequence → List UInt8
  | one b _ => [b]
  | two lead next _ _ => [lead, next]
  | three lead next last _ _ _ => [lead, next, last]

/-- The bits behind the marks, put together. -/
def value : Sequence → Nat
  | one b _ => b.toNat
  | two lead next _ _ => (lead.toNat - 0xC0) * 64 + (next.toNat - 0x80)
  | three lead next last _ _ _ =>
    (lead.toNat - 0xE0) * 4096 + (next.toNat - 0x80) * 64 + (last.toNat - 0x80)

def unit (q : Sequence) : UInt16 := UInt16.ofNat q.value

@[simp]
theorem value_one {b : UInt8} (plain : Plain b) : (one b plain).value = b.toNat := rfl

@[simp]
theorem value_two {lead next : UInt8} (leads : LeadsTwo lead) (trails : Trails next) :
    (two lead next leads trails).value = (lead.toNat - 0xC0) * 64 + (next.toNat - 0x80) := rfl

@[simp]
theorem value_three {lead next last : UInt8} (leads : LeadsThree lead) (trails : Trails next)
    (ends : Trails last) : (three lead next last leads trails ends).value =
      (lead.toNat - 0xE0) * 4096 + (next.toNat - 0x80) * 64 + (last.toNat - 0x80) := rfl

theorem value_lt (q : Sequence) : q.value < 0x10000 := by
  cases q with
  | one b plain =>
    rw [value_one]
    unfold Plain at plain
    omega
  | two lead next leads trails =>
    rw [value_two]
    unfold LeadsTwo at leads
    unfold Trails at trails
    omega
  | three lead next last leads trails ends =>
    rw [value_three]
    unfold LeadsThree at leads
    unfold Trails at trails ends
    omega

theorem toNat_unit (q : Sequence) : q.unit.toNat = q.value :=
  UInt16.toNat_ofNat_of_lt' q.value_lt

theorem unit_eq {q : Sequence} {u : UInt16} (h : q.value = u.toNat) : q.unit = u := by
  rw [unit, h, UInt16.ofNat_toNat]

theorem length_bytes_pos (q : Sequence) : 0 < q.bytes.length := by
  cases q <;> simp [bytes]

end Sequence

/-- Bytes that are one sequence after another. -/
def Splits (bytes : List UInt8) (seqs : List Sequence) : Prop :=
  seqs.flatMap Sequence.bytes = bytes

/-- The bytes do not start with a sequence: after so many of them a byte is due that does not
follow. -/
inductive Stuck : List UInt8 → Nat → Prop
  | lead {b : UInt8} {rest : List UInt8} (plain : ¬Plain b) (two : ¬LeadsTwo b)
      (three : ¬LeadsThree b) : Stuck (b :: rest) 0
  | next {b : UInt8} {rest : List UInt8} (leads : LeadsTwo b ∨ LeadsThree b)
      (due : ∀ next ∈ rest.head?, ¬Trails next) : Stuck (b :: rest) 1
  | last {b next : UInt8} {rest : List UInt8} (leads : LeadsThree b) (trails : Trails next)
      (due : ∀ last ∈ rest.head?, ¬Trails last) : Stuck (b :: next :: rest) 2

theorem Stuck.le_length {bytes : List UInt8} {k : Nat} (h : Stuck bytes k) : k ≤ bytes.length := by
  cases h <;> simp

theorem Stuck.take_append {bytes : List UInt8} {k : Nat} (h : Stuck bytes k) {n : Nat} (hn : k < n)
    (hle : n ≤ bytes.length) (more : List UInt8) : Stuck (bytes.take n ++ more) k := by
  cases h with
  | lead plain two three =>
    obtain ⟨m, rfl⟩ : ∃ m, n = m + 1 := ⟨n - 1, by omega⟩
    exact .lead plain two three
  | @next b rest leads due =>
    obtain ⟨m, rfl⟩ : ∃ m, n = m + 2 := ⟨n - 2, by omega⟩
    cases rest with
    | nil => simp at hle
    | cons next rest => exact .next leads due
  | @last b next rest leads trails due =>
    obtain ⟨m, rfl⟩ : ∃ m, n = m + 3 := ⟨n - 3, by omega⟩
    cases rest with
    | nil => simp at hle
    | cons last rest => exact .last leads trails due

theorem Stuck.completes {bytes : List UInt8} {k : Nat} (h : Stuck bytes k) :
    ∃ more seqs, Splits (bytes.take k ++ more) seqs := by
  have htrails : Trails 0x80 := by decide
  cases h with
  | lead plain two three => exact ⟨[], [], rfl⟩
  | @next b rest leads due =>
    rcases leads with two | three
    · exact ⟨[0x80], [.two b 0x80 two htrails], rfl⟩
    · exact ⟨[0x80, 0x80], [.three b 0x80 0x80 three htrails htrails], rfl⟩
  | @last b next rest leads trails due =>
    exact ⟨[0x80], [.three b next 0x80 leads trails htrails], rfl⟩

theorem sequence_or_stuck (b : UInt8) (rest : List UInt8) :
    (∃ (q : Sequence) (more : List UInt8), b :: rest = q.bytes ++ more) ∨
      ∃ k, Stuck (b :: rest) k := by
  by_cases hplain : Plain b
  · exact .inl ⟨.one b hplain, rest, rfl⟩
  by_cases hlead : LeadsTwo b ∨ LeadsThree b
  · by_cases hdue : ∀ next ∈ rest.head?, ¬Trails next
    · exact .inr ⟨1, .next hlead hdue⟩
    obtain _ | ⟨next, rest⟩ := rest
    · simp at hdue
    have hnext : Trails next := by simpa using hdue
    rcases hlead with htwo | hthree
    · exact .inl ⟨.two b next htwo hnext, rest, rfl⟩
    by_cases hdue : ∀ last ∈ rest.head?, ¬Trails last
    · exact .inr ⟨2, .last hthree hnext hdue⟩
    obtain _ | ⟨last, rest⟩ := rest
    · simp at hdue
    have hlast : Trails last := by simpa using hdue
    exact .inl ⟨.three b next last hthree hnext hlast, rest, rfl⟩
  · rw [not_or] at hlead
    exact .inr ⟨0, .lead hplain hlead.1 hlead.2⟩

theorem exists_sequences (bytes : List UInt8) :
    ∃ (seqs : List Sequence) (rest : List UInt8), bytes = seqs.flatMap Sequence.bytes ++ rest ∧
      (rest = [] ∨ ∃ k, Stuck rest k) := by
  induction hn : bytes.length using Nat.strongRecOn generalizing bytes with
  | ind n ih =>
    obtain _ | ⟨b, rest⟩ := bytes
    · exact ⟨[], [], rfl, .inl rfl⟩
    rcases sequence_or_stuck b rest with ⟨q, more, hq⟩ | hstuck
    · have hlength := congrArg List.length hq
      have hpos := q.length_bytes_pos
      rw [List.length_append] at hlength
      obtain ⟨seqs, last, rfl, hlast⟩ := ih more.length (by omega) more rfl
      exact ⟨q :: seqs, last, by rw [hq, List.flatMap_cons, List.append_assoc], hlast⟩
    · exact ⟨[], b :: rest, rfl, .inr hstuck⟩

/-! ## Reading a sequence -/

theorem isContinuation_iff (b : UInt8) : isContinuation b = true ↔ Trails b := by
  simp only [isContinuation, Bool.and_eq_true, decide_eq_true_eq, Trails]
  omega

theorem isContinuation_eq_false {b : UInt8} (h : ¬Trails b) : isContinuation b = false := by
  rw [← Bool.not_eq_true, isContinuation_iff]
  exact h

theorem twoByteUnit_eq {lead next : UInt8} (leads : LeadsTwo lead) (trails : Trails next) :
    twoByteUnit lead (some next) = (Sequence.two lead next leads trails).unit := by
  unfold twoByteUnit Sequence.unit
  rw [Sequence.value_two, Option.getD_some]
  unfold LeadsTwo at leads
  unfold Trails at trails
  rw [show lead.toNat % 32 * 64 + next.toNat % 64 =
    (lead.toNat - 0xC0) * 64 + (next.toNat - 0x80) by omega]

theorem threeByteUnit_eq {lead next last : UInt8} (leads : LeadsThree lead) (trails : Trails next)
    (ends : Trails last) : threeByteUnit lead (some next) (some last) =
      (Sequence.three lead next last leads trails ends).unit := by
  unfold threeByteUnit Sequence.unit
  rw [Sequence.value_three, Option.getD_some, Option.getD_some]
  unfold LeadsThree at leads
  unfold Trails at trails ends
  rw [show lead.toNat % 16 * 4096 + next.toNat % 64 * 64 + last.toNat % 64 =
    (lead.toNat - 0xE0) * 4096 + (next.toNat - 0x80) * 64 + (last.toNat - 0x80) by omega]

theorem toUInt16_eq {b : UInt8} (plain : Plain b) : b.toUInt16 = (Sequence.one b plain).unit :=
  (Sequence.unit_eq (by simp)).symm

theorem unitsInto_sequence (read : Array UInt16) (q : Sequence) (rest : List UInt8) :
    unitsInto read (q.bytes ++ rest) = unitsInto (read.push q.unit) rest := by
  cases q with
  | one b plain =>
    have hb := plain
    unfold Plain at hb
    show unitsInto read (b :: rest) = _
    rw [unitsInto, if_pos (by omega), toUInt16_eq plain]
  | two lead next leads trails =>
    have hlead := leads
    unfold LeadsTwo at hlead
    show unitsInto read (lead :: next :: rest) = _
    rw [unitsInto, if_neg (by omega), if_neg (by omega)]
    show unitsInto (read.push (twoByteUnit lead (some next))) rest = _
    rw [twoByteUnit_eq leads trails]
  | three lead next last leads trails ends =>
    have hlead := leads
    unfold LeadsThree at hlead
    show unitsInto read (lead :: next :: last :: rest) = _
    rw [unitsInto, if_neg (by omega), if_pos (by omega)]
    show unitsInto (read.push (threeByteUnit lead (some next) (some last))) rest = _
    rw [threeByteUnit_eq leads trails ends]

theorem checkedUnitsInto_sequence (read : Array UInt16) (offset : Nat) (q : Sequence)
    (rest : List UInt8) : checkedUnitsInto read offset (q.bytes ++ rest) =
      checkedUnitsInto (read.push q.unit) (offset + q.bytes.length) rest := by
  cases q with
  | one b plain =>
    have hb := plain
    unfold Plain at hb
    show checkedUnitsInto read offset (b :: rest) = _
    rw [checkedUnitsInto.eq_def]
    dsimp only
    rw [if_pos (by omega), toUInt16_eq plain]
    rfl
  | two lead next leads trails =>
    have hlead := leads
    unfold LeadsTwo at hlead
    show checkedUnitsInto read offset (lead :: next :: rest) = _
    rw [checkedUnitsInto, if_neg (by omega), if_pos (by omega),
      if_pos ((isContinuation_iff next).mpr trails), twoByteUnit_eq leads trails]
    rfl
  | three lead next last leads trails ends =>
    have hlead := leads
    unfold LeadsThree at hlead
    show checkedUnitsInto read offset (lead :: next :: last :: rest) = _
    rw [checkedUnitsInto]
    dsimp only
    rw [if_neg (by omega), if_neg (by omega), if_pos (by omega)]
    simp only [(isContinuation_iff _).mpr trails, (isContinuation_iff _).mpr ends, Bool.not_true,
      Bool.false_eq_true, if_false]
    rw [threeByteUnit_eq leads trails ends]
    rfl

theorem unitsInto_sequences (read : Array UInt16) (seqs : List Sequence) :
    unitsInto read (seqs.flatMap Sequence.bytes) = read ++ (seqs.map Sequence.unit).toArray := by
  induction seqs generalizing read with
  | nil => simp [unitsInto]
  | cons q seqs ih =>
    rw [List.flatMap_cons, unitsInto_sequence, ih]
    simp

theorem checkedUnitsInto_sequences (read : Array UInt16) (offset : Nat) (seqs : List Sequence)
    (rest : List UInt8) : checkedUnitsInto read offset (seqs.flatMap Sequence.bytes ++ rest) =
      checkedUnitsInto (read ++ (seqs.map Sequence.unit).toArray)
        (offset + (seqs.flatMap Sequence.bytes).length) rest := by
  induction seqs generalizing read offset with
  | nil => simp
  | cons q seqs ih =>
    rw [List.flatMap_cons, List.append_assoc, checkedUnitsInto_sequence, ih, List.length_append,
      Nat.add_assoc]
    simp

theorem checkedUnitsInto_stuck (read : Array UInt16) (offset : Nat) {bytes : List UInt8} {k : Nat}
    (h : Stuck bytes k) :
    checkedUnitsInto read offset bytes = .error (.malformedText (offset + k)) read := by
  cases h with
  | @lead b rest plain two three =>
    unfold Plain at plain
    unfold LeadsTwo at two
    unfold LeadsThree at three
    rw [checkedUnitsInto.eq_def]
    dsimp only
    rw [if_neg (by omega), if_neg (by omega), if_neg (by omega)]
    rfl
  | @next b rest leads due =>
    unfold LeadsTwo LeadsThree at leads
    rw [checkedUnitsInto.eq_def]
    dsimp only
    rw [if_neg (by omega)]
    rcases leads with two | three
    · rw [if_pos (by omega)]
      cases rest with
      | nil => rfl
      | cons next rest => simp [isContinuation_eq_false (due next rfl)]
    · rw [if_neg (by omega), if_pos (by omega)]
      obtain _ | ⟨next, _ | ⟨last, rest⟩⟩ := rest
      · rfl
      · simp [isContinuation_eq_false (due next rfl)]
      · simp [isContinuation_eq_false (due next rfl)]
  | @last b next rest leads trails due =>
    have hnext := (isContinuation_iff next).mpr trails
    unfold LeadsThree at leads
    rw [checkedUnitsInto.eq_def]
    dsimp only
    rw [if_neg (by omega), if_neg (by omega), if_pos (by omega)]
    cases rest with
    | nil => simp [hnext]
    | cons last rest => simp [hnext, isContinuation_eq_false (due last rfl)]

/-! ## The sequence of a unit -/

theorem exists_sequence_ofUnit (u : UInt16) :
    ∃ q : Sequence, q.bytes = ofUnit u ∧ q.unit = u := by
  have hu : u.toNat < 0x10000 := u.toNat_lt
  have hlast := toNat_byte (n := 0x80 + u.toNat % 64) (by omega)
  have htrails : Trails (UInt8.ofNat (0x80 + u.toNat % 64)) := by
    unfold Trails
    omega
  unfold ofUnit
  dsimp only
  split
  · rename_i hthree
    have hlead := toNat_byte (n := 0xE0 + u.toNat / 4096) (by omega)
    have hnext := toNat_byte (n := 0x80 + u.toNat / 64 % 64) (by omega)
    have hleads : LeadsThree (UInt8.ofNat (0xE0 + u.toNat / 4096)) := by
      unfold LeadsThree
      omega
    have hmiddle : Trails (UInt8.ofNat (0x80 + u.toNat / 64 % 64)) := by
      unfold Trails
      omega
    refine ⟨.three _ _ _ hleads hmiddle htrails, rfl, Sequence.unit_eq ?_⟩
    rw [Sequence.value_three, hlead, hnext, hlast]
    omega
  · split
    · rename_i hthree htwo
      have hlead := toNat_byte (n := 0xC0 + u.toNat / 64) (by omega)
      have hleads : LeadsTwo (UInt8.ofNat (0xC0 + u.toNat / 64)) := by
        unfold LeadsTwo
        omega
      refine ⟨.two _ _ hleads htrails, rfl, Sequence.unit_eq ?_⟩
      rw [Sequence.value_two, hlead, hlast]
      omega
    · rename_i hthree htwo
      have hbyte := toNat_byte (n := u.toNat) (by omega)
      have hplain : Plain (UInt8.ofNat u.toNat) := by
        unfold Plain
        omega
      exact ⟨.one _ hplain, rfl, Sequence.unit_eq hbyte⟩

theorem exists_sequences_ofUnit (units : List UInt16) :
    ∃ seqs, Splits (units.flatMap ofUnit) seqs ∧ seqs.map Sequence.unit = units := by
  induction units with
  | nil => exact ⟨[], rfl, rfl⟩
  | cons u units ih =>
    obtain ⟨q, hbytes, hunit⟩ := exists_sequence_ofUnit u
    obtain ⟨seqs, hsplits, hunits⟩ := ih
    refine ⟨q :: seqs, ?_, by rw [List.map_cons, hunit, hunits]⟩
    unfold Splits at hsplits ⊢
    rw [List.flatMap_cons, List.flatMap_cons, hbytes, hsplits]

end JavaClass.ModifiedUtf8
