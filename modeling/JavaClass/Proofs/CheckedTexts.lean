import JavaClass.Proofs.WrittenTexts

/-!
# Text that passes the check

Which bytes the checked reading accepts, said without it: they are sequences one after another, and
their units spell characters. Where they are not sequences, the reported offset is as far as some
accepted bytes agree with them.
-/

namespace JavaClass

namespace Utf16

/-- Every surrogate stands in a pair, the high one first. -/
inductive Paired : List UInt16 → Prop
  | nil : Paired []
  | single {u : UInt16} {rest : List UInt16} (high : isHigh u = false) (low : isLow u = false)
      (tail : Paired rest) : Paired (u :: rest)
  | pair {u v : UInt16} {rest : List UInt16} (high : isHigh u = true) (low : isLow v = true)
      (tail : Paired rest) : Paired (u :: v :: rest)

theorem paired_of_scalarsInto (read : Array (Option Char)) (units : List UInt16)
    (h : (scalarsInto read units).all (·.isSome) = true) :
    read.all (·.isSome) = true ∧ Paired units := by
  fun_induction scalarsInto read units with
  | case1 => exact ⟨h, .nil⟩
  | case2 read u =>
    simp only [Array.all_push, Bool.and_eq_true] at h
    split at h
    · simp at h
    · rename_i hsurrogate
      simp only [Bool.or_eq_true, not_or, Bool.not_eq_true] at hsurrogate
      exact ⟨h.1, .single hsurrogate.1 hsurrogate.2 .nil⟩
  | case3 read u v rest hpair ih =>
    rw [Bool.and_eq_true] at hpair
    have htail := ih h
    simp only [Array.all_push, Bool.and_eq_true] at htail
    exact ⟨htail.1.1, .pair hpair.1 hpair.2 htail.2⟩
  | case4 read u v rest hpair hsurrogate ih =>
    have htail := ih h
    simp at htail
  | case5 read u v rest hpair hsurrogate ih =>
    simp only [Bool.or_eq_true, not_or, Bool.not_eq_true] at hsurrogate
    have htail := ih h
    simp only [Array.all_push, Bool.and_eq_true] at htail
    exact ⟨htail.1.1, .single hsurrogate.1 hsurrogate.2 htail.2⟩

theorem char_toNat_ofNat {n : Nat} (h : n < 0xD800 ∨ 0xDFFF < n ∧ n < 0x110000) :
    (Char.ofNat n).toNat = n := by
  rw [Char.ofNat, dif_pos h]
  rfl

theorem exists_ofChar_single {u : UInt16} (hhigh : isHigh u = false) (hlow : isLow u = false) :
    ∃ c, ofChar c = [u] := by
  have hu : u.toNat < 0x10000 := u.toNat_lt
  simp only [isHigh, isLow, Bool.and_eq_false_iff, decide_eq_false_iff_not] at hhigh hlow
  have hc : (Char.ofNat u.toNat).toNat = u.toNat := by
    exact char_toNat_ofNat (by omega)
  refine ⟨Char.ofNat u.toNat, ?_⟩
  unfold ofChar
  simp [hc, hu]

theorem exists_ofChar_pair {u v : UInt16} (hhigh : isHigh u = true) (hlow : isLow v = true) :
    ∃ c, ofChar c = [u, v] := by
  simp only [isHigh, isLow, Bool.and_eq_true, decide_eq_true_eq] at hhigh hlow
  have hc : (pair u v).toNat =
      0x10000 + (u.toNat - 0xD800) * 0x400 + (v.toNat - 0xDC00) := by
    exact char_toNat_ofNat (by omega)
  have hfirst : 0xD800 + ((pair u v).toNat - 0x10000) / 0x400 = u.toNat := by omega
  have hsecond : 0xDC00 + ((pair u v).toNat - 0x10000) % 0x400 = v.toNat := by omega
  refine ⟨pair u v, ?_⟩
  unfold ofChar
  simp only [hfirst, hsecond, UInt16.ofNat_toNat]
  rw [if_neg (by omega)]

theorem Paired.exists_encode {units : List UInt16} (h : Paired units) :
    ∃ text, encode text = units := by
  induction h with
  | nil => exact ⟨[], rfl⟩
  | single high low _ ih =>
    obtain ⟨c, hc⟩ := exists_ofChar_single high low
    obtain ⟨text, rfl⟩ := ih
    exact ⟨c :: text, by simp [encode, hc]⟩
  | pair high low _ ih =>
    obtain ⟨c, hc⟩ := exists_ofChar_pair high low
    obtain ⟨text, rfl⟩ := ih
    exact ⟨c :: text, by simp [encode, hc]⟩

theorem paired_of_decode? {units : List UInt16} {text : String} (h : decode? units = some text) :
    Paired units := by
  unfold decode? at h
  split at h
  · rename_i hall
    refine (paired_of_scalarsInto #[] units ?_).2
    rw [← Array.all_toList]
    exact hall
  · simp at h

theorem decode?_eq_some {units : List UInt16} {text : String} :
    decode? units = some text ↔ encode text.toList = units := by
  constructor
  · intro h
    obtain ⟨chars, rfl⟩ := (paired_of_decode? h).exists_encode
    rw [ModifiedUtf8.utf16_decode?_encode] at h
    rw [← Option.some.inj h, String.toList_ofList]
  · rintro rfl
    rw [ModifiedUtf8.utf16_decode?_encode, String.ofList_toList]

theorem paired_iff {units : List UInt16} : Paired units ↔ ∃ text, decode? units = some text := by
  constructor
  · intro h
    obtain ⟨chars, rfl⟩ := h.exists_encode
    exact ⟨_, ModifiedUtf8.utf16_decode?_encode chars⟩
  · rintro ⟨text, h⟩
    exact paired_of_decode? h

end Utf16

namespace ModifiedUtf8

/-! ## Where bytes break off -/

/-- Sequences can start with these bytes. -/
def CanGoOn (bytes : List UInt8) : Prop := ∃ more seqs, Splits (bytes ++ more) seqs

/-- Sequences agree with the bytes up to the offset and no further. -/
structure BreaksAt (bytes : List UInt8) (offset : Nat) : Prop where
  broken : ∀ seqs, ¬Splits bytes seqs
  le : offset ≤ bytes.length
  before : CanGoOn (bytes.take offset)
  after : ∀ n, offset < n → n ≤ bytes.length → ¬CanGoOn (bytes.take n)

theorem BreaksAt.unique {bytes : List UInt8} {m n : Nat} (hm : BreaksAt bytes m)
    (hn : BreaksAt bytes n) : m = n := by
  rcases Nat.lt_trichotomy m n with hlt | heq | hlt
  · exact absurd hn.before (hm.after n hlt hn.le)
  · exact heq
  · exact absurd hm.before (hn.after m hlt hm.le)

theorem not_splits_of_stuck (seqs : List Sequence) {rest : List UInt8} {k : Nat}
    (h : Stuck rest k) (others : List Sequence) :
    ¬Splits (seqs.flatMap Sequence.bytes ++ rest) others := by
  intro hsplits
  -- the check would read the same bytes to their end and break off in them
  have hstuck := checkedUnitsInto_sequences #[] 0 seqs rest
  have hread := checkedUnitsInto_sequences #[] 0 others []
  rw [checkedUnitsInto_stuck _ _ h] at hstuck
  rw [List.append_nil, hsplits, hstuck, checkedUnitsInto] at hread
  simp at hread

theorem breaksAt_of_stuck (seqs : List Sequence) {rest : List UInt8} {k : Nat} (h : Stuck rest k) :
    BreaksAt (seqs.flatMap Sequence.bytes ++ rest)
      ((seqs.flatMap Sequence.bytes).length + k) where
  broken := not_splits_of_stuck seqs h
  le := by
    have hk := h.le_length
    rw [List.length_append]
    omega
  before := by
    obtain ⟨more, others, hothers⟩ := h.completes
    refine ⟨more, seqs ++ others, ?_⟩
    unfold Splits at hothers ⊢
    rw [List.take_length_add_append, List.flatMap_append, hothers, List.append_assoc]
  after := by
    rintro n hlt hle ⟨more, others, hothers⟩
    obtain ⟨m, rfl⟩ : ∃ m, n = (seqs.flatMap Sequence.bytes).length + m :=
      ⟨n - (seqs.flatMap Sequence.bytes).length, by omega⟩
    rw [List.length_append] at hle
    rw [List.take_length_add_append, List.append_assoc] at hothers
    exact not_splits_of_stuck seqs (h.take_append (by omega) (by omega) more) others hothers

/-! ## Longer forms -/

/-- Fewer bytes denote the same unit. -/
def Sequence.Overlong (q : Sequence) : Prop :=
  ∃ shorter : Sequence, shorter.unit = q.unit ∧ shorter.bytes.length < q.bytes.length

theorem Sequence.length_ofUnit_le (q : Sequence) : (ofUnit q.unit).length ≤ q.bytes.length := by
  rw [length_ofUnit]
  unfold unitLength
  rw [Sequence.toNat_unit]
  cases q with
  | one b plain =>
    have hvalue := value_one plain
    show _ ≤ 1
    unfold Plain at plain
    grind
  | two lead next leads trails =>
    have hlt : (two lead next leads trails).value < 0x800 := by
      rw [value_two]
      unfold LeadsTwo at leads
      unfold Trails at trails
      omega
    show _ ≤ 2
    grind
  | three lead next last leads trails ends =>
    show _ ≤ 3
    grind

theorem Sequence.bytes_of_value {p q : Sequence} (hvalue : p.value = q.value)
    (hlength : p.bytes.length = q.bytes.length) : p.bytes = q.bytes := by
  cases p with
  | one b plain =>
    cases q with
    | one c other => exact congrArg (fun b => [b]) (UInt8.toNat_inj.mp hvalue)
    | two => simp [bytes] at hlength
    | three => simp [bytes] at hlength
  | two lead next leads trails =>
    cases q with
    | one => simp [bytes] at hlength
    | two lead' next' leads' trails' =>
      rw [value_two, value_two] at hvalue
      clear hlength
      simp only [bytes, List.cons.injEq, and_true, ← UInt8.toNat_inj]
      unfold LeadsTwo at leads leads'
      unfold Trails at trails trails'
      omega
    | three => simp [bytes] at hlength
  | three lead next last leads trails ends =>
    cases q with
    | one => simp [bytes] at hlength
    | two => simp [bytes] at hlength
    | three lead' next' last' leads' trails' ends' =>
      rw [value_three, value_three] at hvalue
      clear hlength
      simp only [bytes, List.cons.injEq, and_true, ← UInt8.toNat_inj]
      unfold LeadsThree at leads leads'
      unfold Trails at trails trails' ends ends'
      omega

theorem Sequence.ofUnit_eq_iff (q : Sequence) : ofUnit q.unit = q.bytes ↔ ¬q.Overlong := by
  obtain ⟨p, hbytes, hunit⟩ := exists_sequence_ofUnit q.unit
  constructor
  · rintro h ⟨shorter, hshorter, hlt⟩
    have hle := shorter.length_ofUnit_le
    rw [hshorter, h] at hle
    omega
  · intro h
    have hle := q.length_ofUnit_le
    rw [← hbytes] at hle ⊢
    have hvalue := p.toNat_unit
    rw [hunit, toNat_unit] at hvalue
    apply bytes_of_value hvalue.symm
    by_contra hne
    exact h ⟨p, hunit, by omega⟩

theorem length_ofUnits_le (seqs : List Sequence) :
    ((seqs.map Sequence.unit).flatMap ofUnit).length ≤
      (seqs.flatMap Sequence.bytes).length := by
  induction seqs with
  | nil => simp
  | cons q seqs ih =>
    have hle := q.length_ofUnit_le
    simp only [List.map_cons, List.flatMap_cons, List.length_append]
    omega

theorem Splits.ofUnits_eq_iff {bytes : List UInt8} {seqs : List Sequence} (h : Splits bytes seqs) :
    (seqs.map Sequence.unit).flatMap ofUnit = bytes ↔ ∀ q ∈ seqs, ¬q.Overlong := by
  unfold Splits at h
  subst h
  induction seqs with
  | nil => simp
  | cons q seqs ih =>
    rw [List.map_cons, List.flatMap_cons, List.flatMap_cons, List.forall_mem_cons,
      ← q.ofUnit_eq_iff, ← ih]
    constructor
    · intro h
      -- nothing is written in more bytes than it had, so each part is written in as many
      have hlength := congrArg List.length h
      have hhead := q.length_ofUnit_le
      have htail := length_ofUnits_le seqs
      simp only [List.length_append] at hlength
      exact List.append_inj h (by omega)
    · rintro ⟨hhead, htail⟩
      rw [hhead, htail]

/-! ## The check -/

theorem checkedUnitsInto_of_splits {bytes : List UInt8} {seqs : List Sequence}
    (h : Splits bytes seqs) (scratch : Array UInt16) :
    checkedUnitsInto (scratch.shrink 0) 0 bytes =
      .ok () (seqs.map Sequence.unit).toArray := by
  have hread := checkedUnitsInto_sequences (scratch.shrink 0) 0 seqs []
  have hempty : scratch.shrink 0 = #[] := Array.toList_inj.mp (by simp)
  unfold Splits at h
  rw [List.append_nil, h] at hread
  rw [hread, hempty, checkedUnitsInto]
  simp

theorem decodeReusing?_of_splits {bytes : Bytes} {seqs : List Sequence}
    (h : Splits bytes.toList seqs) (scratch : Array UInt16) :
    decodeReusing? bytes scratch =
      match Utf16.decode? (seqs.map Sequence.unit) with
      | some text => .ok text (seqs.map Sequence.unit).toArray
      | none => .error .unpairedSurrogate (seqs.map Sequence.unit).toArray := by
  have hread := checkedUnitsInto_of_splits h scratch
  unfold decodeReusing?
  generalize checkedUnitsInto (scratch.shrink 0) 0 bytes.toList = result at hread ⊢
  subst hread
  rfl

theorem decodeReusing?_of_stuck {bytes : Bytes} {seqs : List Sequence} {rest : List UInt8} {k : Nat}
    (hbytes : bytes.toList = seqs.flatMap Sequence.bytes ++ rest) (h : Stuck rest k)
    (scratch : Array UInt16) : ∃ units, decodeReusing? bytes scratch =
      .error (.malformedText ((seqs.flatMap Sequence.bytes).length + k)) units := by
  unfold decodeReusing?
  rw [hbytes, checkedUnitsInto_sequences, checkedUnitsInto_stuck _ _ h, Nat.zero_add]
  exact ⟨_, rfl⟩

theorem splits_or_stuck (bytes : List UInt8) : (∃ seqs, Splits bytes seqs) ∨
    ∃ (seqs : List Sequence) (rest : List UInt8) (k : Nat),
      bytes = seqs.flatMap Sequence.bytes ++ rest ∧ Stuck rest k := by
  obtain ⟨seqs, rest, rfl, rfl | ⟨k, hstuck⟩⟩ := exists_sequences bytes
  · exact .inl ⟨seqs, by simp [Splits]⟩
  · exact .inr ⟨seqs, rest, k, rfl, hstuck⟩

theorem decodeReusing_of_splits {bytes : Bytes} {seqs : List Sequence}
    (h : Splits bytes.toList seqs) (scratch : Array UInt16) :
    (decodeReusing scratch bytes).1 = Utf16.decodeLossy (seqs.map Sequence.unit) := by
  unfold Splits at h
  rw [fst_decodeReusing, ← h, unitsInto_sequences]
  simp

theorem Splits.unit_unique {bytes : List UInt8} {seqs others : List Sequence}
    (h : Splits bytes seqs) (hothers : Splits bytes others) :
    seqs.map Sequence.unit = others.map Sequence.unit := by
  have hread := checkedUnitsInto_of_splits h #[]
  rw [checkedUnitsInto_of_splits hothers] at hread
  simpa using hread.symm

theorem agrees_of_splits {bytes : Bytes} {seqs : List Sequence} (h : Splits bytes.toList seqs)
    {text : String} (htext : Utf16.encode text.toList = seqs.map Sequence.unit) :
    (∀ scratch, (decodeReusing scratch bytes).1 = text) ∧ encodedLength text ≤ bytes.size ∧
      (encode text = bytes ↔ ∀ q ∈ seqs, ¬q.Overlong) := by
  refine ⟨fun scratch => ?_, ?_, ?_⟩
  · rw [decodeReusing_of_splits h, ← htext, Utf16.decodeLossy_encode, String.ofList_toList]
  · have hle := length_ofUnits_le seqs
    unfold Splits at h
    rw [h, Array.length_toList] at hle
    rw [← size_encode, encode, List.size_toArray, htext]
    exact hle
  · rw [← h.ofUnits_eq_iff, ← htext, ← Array.toList_inj]
    rfl

theorem decodeReusing?_eq_ok {bytes : Bytes} {scratch : Array UInt16} {text : String} :
    (∃ units, decodeReusing? bytes scratch = .ok text units) ↔
      ∃ seqs, Splits bytes.toList seqs ∧
        Utf16.encode text.toList = seqs.map Sequence.unit := by
  simp only [← Utf16.decode?_eq_some]
  constructor
  · rintro ⟨units, h⟩
    rcases splits_or_stuck bytes.toList with ⟨seqs, hseqs⟩ | ⟨seqs, rest, k, hbytes, hstuck⟩
    · refine ⟨seqs, hseqs, ?_⟩
      rw [decodeReusing?_of_splits hseqs] at h
      split at h
      · rename_i hdecoded
        rw [hdecoded, (EStateM.Result.ok.inj h).1]
      · simp at h
    · obtain ⟨_, hread⟩ := decodeReusing?_of_stuck hbytes hstuck scratch
      rw [hread] at h
      simp at h
  · rintro ⟨seqs, hseqs, hdecoded⟩
    rw [decodeReusing?_of_splits hseqs, hdecoded]
    exact ⟨_, rfl⟩

theorem decodeReusing?_eq_error {bytes : Bytes} {scratch : Array UInt16} {e : Error} :
    (∃ units, decodeReusing? bytes scratch = .error e units) ↔
      (e = .unpairedSurrogate ∧
        ∃ seqs, Splits bytes.toList seqs ∧ ¬Utf16.Paired (seqs.map Sequence.unit)) ∨
      ∃ offset, e = .malformedText offset ∧ BreaksAt bytes.toList offset := by
  simp only [Utf16.paired_iff, not_exists]
  rcases splits_or_stuck bytes.toList with ⟨seqs, hseqs⟩ | ⟨seqs, rest, k, hbytes, hstuck⟩
  · constructor
    · rintro ⟨units, h⟩
      rw [decodeReusing?_of_splits hseqs] at h
      split at h
      · simp at h
      · rename_i hnone
        refine .inl ⟨(EStateM.Result.error.inj h).1.symm, seqs, hseqs, ?_⟩
        simp [hnone]
    · rintro (⟨rfl, others, hothers, hunpaired⟩ | ⟨offset, -, hbreaks⟩)
      · rw [decodeReusing?_of_splits hothers,
          Option.eq_none_iff_forall_ne_some.mpr hunpaired]
        exact ⟨_, rfl⟩
      · exact absurd hseqs (hbreaks.broken seqs)
  · obtain ⟨units, hread⟩ := decodeReusing?_of_stuck hbytes hstuck scratch
    have hbreaks := breaksAt_of_stuck seqs hstuck
    rw [← hbytes] at hbreaks
    rw [hread]
    constructor
    · rintro ⟨_, h⟩
      exact .inr ⟨_, (EStateM.Result.error.inj h).1.symm, hbreaks⟩
    · rintro (⟨-, others, hothers, -⟩ | ⟨offset, rfl, hoffset⟩)
      · exact absurd hothers (hbreaks.broken others)
      · rw [hoffset.unique hbreaks]
        exact ⟨_, rfl⟩

/-- The checked reading accepts exactly the bytes that split into sequences whose surrogates are all
paired, and gives the text of their units. It reports where bytes that do not split break off,
whatever their surrogates: at a byte that leads no sequence, or where a trailing byte is due.
Unpaired surrogates are reported only where the bytes split. The trusted reading agrees on all that
is accepted, and what is written again is the same unless a sequence is overlong. -/
theorem decodeReusing?_decides_sequences (bytes : Bytes) (scratch : Array UInt16) :
    (∀ text, (∃ units, decodeReusing? bytes scratch = .ok text units) ↔
      ∃ seqs, Splits bytes.toList seqs ∧ Utf16.Paired (seqs.map Sequence.unit) ∧
        Utf16.encode text.toList = seqs.map Sequence.unit) ∧
    (∀ e, (∃ units, decodeReusing? bytes scratch = .error e units) ↔
      (e = .unpairedSurrogate ∧
        ∃ seqs, Splits bytes.toList seqs ∧ ¬Utf16.Paired (seqs.map Sequence.unit)) ∨
      ∃ offset, e = .malformedText offset ∧ BreaksAt bytes.toList offset) ∧
    ((∃ seqs, Splits bytes.toList seqs) ∨ ∃ offset, BreaksAt bytes.toList offset) ∧
    (∀ offset, BreaksAt bytes.toList offset ↔
      ∃ (seqs : List Sequence) (rest : List UInt8) (k : Nat),
        bytes.toList = seqs.flatMap Sequence.bytes ++ rest ∧ Stuck rest k ∧
          offset = (seqs.flatMap Sequence.bytes).length + k) ∧
    ∀ text units, decodeReusing? bytes scratch = .ok text units →
      (∀ other, (decodeReusing other bytes).1 = text) ∧ encodedLength text ≤ bytes.size ∧
        ∀ seqs, Splits bytes.toList seqs → (encode text = bytes ↔ ∀ q ∈ seqs, ¬q.Overlong) := by
  refine ⟨fun text => ?_, fun e => decodeReusing?_eq_error, ?_, fun offset => ?_, ?_⟩
  · rw [decodeReusing?_eq_ok]
    constructor
    · rintro ⟨seqs, hseqs, htext⟩
      exact ⟨seqs, hseqs, Utf16.paired_iff.mpr ⟨text, Utf16.decode?_eq_some.mpr htext⟩, htext⟩
    · rintro ⟨seqs, hseqs, -, htext⟩
      exact ⟨seqs, hseqs, htext⟩
  · rcases splits_or_stuck bytes.toList with hseqs | ⟨seqs, rest, k, hbytes, hstuck⟩
    · exact .inl hseqs
    · rw [hbytes]
      exact .inr ⟨_, breaksAt_of_stuck seqs hstuck⟩
  · constructor
    · intro h
      rcases splits_or_stuck bytes.toList with ⟨seqs, hseqs⟩ | ⟨seqs, rest, k, hbytes, hstuck⟩
      · exact absurd hseqs (h.broken seqs)
      · rw [hbytes] at h
        exact ⟨seqs, rest, k, hbytes, hstuck, h.unique (breaksAt_of_stuck seqs hstuck)⟩
    · rintro ⟨seqs, rest, k, hbytes, hstuck, rfl⟩
      rw [hbytes]
      exact breaksAt_of_stuck seqs hstuck
  · intro text units h
    obtain ⟨seqs, hseqs, htext⟩ := decodeReusing?_eq_ok.mp ⟨units, h⟩
    obtain ⟨htrusted, hlength, -⟩ := agrees_of_splits hseqs htext
    refine ⟨htrusted, hlength, fun others hothers => ?_⟩
    rw [hseqs.unit_unique hothers] at htext
    exact (agrees_of_splits hothers htext).2.2

end ModifiedUtf8
end JavaClass
