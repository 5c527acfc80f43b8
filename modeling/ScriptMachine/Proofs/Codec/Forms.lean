import Mathlib.Algebra.BigOperators.Fin
import ScriptMachine.Proofs.Codec.Varint

/-!
# The forms of a number

A number has many forms: its groups may be followed by groups that hold nothing, as long as there are
no more than ten bytes.  `Varint.IsForm` says which byte strings are forms of a number in a range.

Reading takes a form from the front of a stream and refuses everything else, in one of two ways
(`read_exact`): the stream ends where more bytes would have to follow, or what it holds is too large.
The shortest form is the one that is written, and no other is as short (`writeGroups_shortest`).

A padded form may be made in any width, but only up to ten bytes it is a form that readers take
(`writePadded_exact`).
-/

namespace ScriptMachine.Varint

/-- The bytes are a form of the number `n` in a range: every byte but the last says that another
follows, and `n` is the sum of the groups, each seven bits above the one before. -/
structure IsForm (range : IntRange) (code : Bytes) (n : Nat) : Prop where
  terminated : Terminated code
  length : code.length ≤ maxBytes
  sum : ∑ i : Fin code.length, code[i].toNat % 128 * 128 ^ i.val = n
  bound : n < 2 ^ range.bits

/-- The stream ends before a number in it does. -/
def CutShort (s : Bytes) : Prop := s.length < maxBytes ∧ ∀ b ∈ s, more b = true

/-! ## Reading one group -/

/-- The payload of a byte is a group of seven bits. -/
theorem payload_lt (b : UInt8) : payload b < 128 := Nat.mod_lt _ (by decide)

/-- The sum of the groups, summand by summand. -/
theorem value_eq_sum (code : Bytes) :
    value code = ∑ i : Fin code.length, code[i].toNat % 128 * 128 ^ i.val := by
  induction code with
  | nil => rfl
  | cons b code ih =>
    have hhead : (b :: code)[(0 : Fin (code.length + 1))].toNat % 128 * 128 ^ 0 = payload b := by
      simp [payload]
    have htail : ∀ i : Fin code.length,
        (b :: code)[i.succ].toNat % 128 * 128 ^ i.succ.val =
          128 * (code[i].toNat % 128 * 128 ^ i.val) := by
      intro i
      simp only [Fin.getElem_fin, Fin.val_succ, List.getElem_cons_succ, Nat.pow_succ]
      ac_rfl
    rw [value, ih, Finset.mul_sum]
    change _ = ∑ i : Fin (code.length + 1), _
    rw [Fin.sum_univ_succ]
    congr 1
    · exact hhead.symm
    · exact Finset.sum_congr rfl fun i _ => (htail i).symm

/-- Forms have at least one byte. -/
theorem Terminated.pos {code : Bytes} (h : Terminated code) : 0 < code.length := by
  cases code with
  | nil => exact h.elim
  | cons b code => exact Nat.succ_pos _

/-! ## What is refused -/

/-- What is read is a terminated byte string at the front of the stream. -/
theorem of_readGroups {range : IntRange} {left shift v n : Nat} {s rest : Bytes}
    (h : readGroups range left shift v s = .ok (n, rest)) :
    ∃ code, s = code ++ rest ∧ Terminated code ∧ code.length ≤ left ∧
      v + value code * 2 ^ shift = n ∧ n < 2 ^ range.bits := by
  induction left generalizing shift v s with
  | zero => cases h
  | succ left ih =>
    cases s with
    | nil => cases h
    | cons b s =>
      rw [readGroups_cons] at h
      by_cases hsize : UInt64.size ≤ payload b * 2 ^ shift
      · rw [if_pos hsize] at h
        cases h
      rw [if_neg hsize] at h
      by_cases hmore : more b = true
      · rw [if_pos hmore] at h
        obtain ⟨code, rfl, hcode, hlength, hn, hbound⟩ := ih h
        refine ⟨b :: code, rfl, terminated_cons hmore hcode, ?_, ?_, hbound⟩
        · simp only [List.length_cons]
          omega
        · rw [value_cons_mul]
          omega
      · rw [if_neg hmore] at h
        by_cases hlarge : 2 ^ range.bits ≤ v + payload b * 2 ^ shift
        · rw [if_pos hlarge] at h
          cases h
        · rw [if_neg hlarge] at h
          cases h
          refine ⟨[b], rfl, by simpa [Terminated] using hmore, by simp, ?_, by omega⟩
          simp [value]

/-- Reading fails in no other way than that the stream ends or the number is too large. -/
theorem readGroups_error {range : IntRange} {left shift v : Nat} {s : Bytes} {e : ReadError}
    (h : readGroups range left shift v s = .error e) : e = .endOfStream ∨ e = .overflow range := by
  induction left generalizing shift v s with
  | zero =>
    cases h
    exact .inr rfl
  | succ left ih =>
    cases s with
    | nil =>
      cases h
      exact .inl rfl
    | cons b s =>
      rw [readGroups_cons] at h
      by_cases hsize : UInt64.size ≤ payload b * 2 ^ shift
      · rw [if_pos hsize] at h
        cases h
        exact .inr rfl
      rw [if_neg hsize] at h
      by_cases hmore : more b = true
      · rw [if_pos hmore] at h
        exact ih h
      · rw [if_neg hmore] at h
        by_cases hlarge : 2 ^ range.bits ≤ v + payload b * 2 ^ shift
        · rw [if_pos hlarge] at h
          cases h
          exact .inr rfl
        · rw [if_neg hlarge] at h
          cases h

/-- The stream ends too early exactly if it is short and every byte asks for another.  Only the tenth
group can be too large by itself, and it is the last one that is read. -/
theorem readGroups_eq_endOfStream {range : IntRange} {left shift v : Nat} {s : Bytes}
    (hshift : shift + 7 * left ≤ 70) :
    readGroups range left shift v s = .error .endOfStream ↔
      s.length < left ∧ ∀ b ∈ s, more b = true := by
  induction left generalizing shift v s with
  | zero =>
    refine ⟨fun h => ?_, fun h => absurd h.1 (Nat.not_lt_zero _)⟩
    cases h
  | succ left ih =>
    cases s with
    | nil =>
      refine ⟨fun _ => ⟨Nat.succ_pos _, ?_⟩, fun _ => rfl⟩
      intro b hb
      cases hb
    | cons b s =>
      rw [readGroups_cons, List.length_cons, List.forall_mem_cons, Nat.add_lt_add_iff_right]
      by_cases hsize : UInt64.size ≤ payload b * 2 ^ shift
      · rw [if_pos hsize]
        have hlast : left = 0 := by
          apply Nat.eq_zero_of_not_pos
          intro hpos
          have hpow : 2 ^ shift ≤ 2 ^ 56 := Nat.pow_le_pow_right (by decide) (by omega)
          have hgroup : payload b * 2 ^ shift < 128 * 2 ^ 56 :=
            Nat.mul_lt_mul_of_lt_of_le (payload_lt b) hpow (by decide)
          have hword : UInt64.size = 2 * (128 * 2 ^ 56) := by decide
          omega
        refine ⟨fun h => ?_, fun h => absurd h.1 (by omega)⟩
        cases h
      rw [if_neg hsize]
      by_cases hmore : more b = true
      · rw [if_pos hmore, ih (by omega)]
        simp only [hmore, true_and]
      · rw [if_neg hmore]
        refine ⟨fun h => ?_, fun h => absurd h.2.1 hmore⟩
        split at h <;> cases h

/-- Where every byte says that another follows, as many as can be read, the number is too large. -/
theorem readGroups_marked {range : IntRange} {left shift v : Nat} {marks : Bytes} (rest : Bytes)
    (hlength : marks.length = left) (hmarks : ∀ b ∈ marks, more b = true) :
    readGroups range left shift v (marks ++ rest) = .error (.overflow range) := by
  induction marks generalizing left shift v with
  | nil =>
    subst hlength
    rfl
  | cons b marks ih =>
    subst hlength
    rw [List.cons_append, List.length_cons, readGroups_cons, if_pos (hmarks b List.mem_cons_self),
      ih rfl fun c hc => hmarks c (List.mem_cons_of_mem _ hc), ite_self]

/-! ## The shortest form -/

/-- A byte that says that another follows is told by its payload. -/
theorem eq_marked {b : UInt8} (h : more b = true) : b = UInt8.ofNat (payload b + 128) := by
  apply UInt8.toNat_inj.1
  have hb := b.toNat_lt
  simp only [more, decide_eq_true_eq] at h
  simp only [payload, UInt8.toNat_ofNat']
  omega

/-- A last byte is its payload. -/
theorem eq_plain {b : UInt8} (h : more b = false) : b = UInt8.ofNat (payload b) := by
  apply UInt8.toNat_inj.1
  simp only [more, decide_eq_false_iff_not] at h
  simp only [payload, UInt8.toNat_ofNat']
  omega

/-- A terminated byte string of the same value as what is written is longer, or is what is written. -/
theorem writeGroups_shortest {left : Nat} {code : Bytes} (hcode : Terminated code)
    (hvalue : value code < 128 ^ left) :
    code = writeGroups left (value code) ∨ (writeGroups left (value code)).length < code.length := by
  induction left generalizing code with
  | zero => exact .inr hcode.pos
  | succ left ih =>
    match code, hcode with
    | [b], hlast =>
      left
      have hb : value [b] = payload b := by simp [value]
      rw [writeGroups, hb, if_pos (payload_lt b), ← eq_plain hlast]
    | b :: c :: code, ⟨hmore, hcode⟩ =>
      have hb := payload_lt b
      have hsplit : value (b :: c :: code) = payload b + 128 * value (c :: code) := rfl
      rw [writeGroups]
      by_cases hsmall : value (b :: c :: code) < 128
      · right
        rw [if_pos hsmall]
        simp only [List.length_cons, List.length_nil]
        omega
      · have hdiv : value (b :: c :: code) / 128 = value (c :: code) := by omega
        have hmod : value (b :: c :: code) % 128 = payload b := by omega
        have hbound : value (c :: code) < 128 ^ left := by
          rw [Nat.pow_succ] at hvalue
          omega
        rw [if_neg hsmall, hdiv, hmod, ← eq_marked hmore]
        rcases ih hcode hbound with heq | hlonger
        · left
          rw [← heq]
        · right
          simpa using hlonger

/-! ## Reading a number -/

/-- A number of the range fits the bytes it may take. -/
theorem lt_groups {range : IntRange} {n : Nat} (h : n < 2 ^ range.bits) : n < 128 ^ maxBytes := by
  have hbits := Nat.pow_le_pow_right (show 0 < 2 by decide) (bits_le range)
  have hten : (2 : Nat) ^ 64 < 128 ^ maxBytes := by decide
  omega

/-- What a form is, from its bytes: it ends where it should, is not too long, and its value is in range.
-/
theorem isForm_iff {range : IntRange} {code : Bytes} {n : Nat} :
    IsForm range code n ↔
      Terminated code ∧ code.length ≤ maxBytes ∧ value code = n ∧ n < 2 ^ range.bits := by
  rw [value_eq_sum]
  exact ⟨fun h => ⟨h.terminated, h.length, h.sum, h.bound⟩, fun h => ⟨h.1, h.2.1, h.2.2.1, h.2.2.2⟩⟩

/-- Reading succeeds just on a form, and leaves what is behind it. -/
theorem read_eq_ok_iff {range : IntRange} {s rest : Bytes} {n : Nat} :
    read range s = .ok (n, rest) ↔ ∃ code, s = code ++ rest ∧ IsForm range code n := by
  constructor
  · intro h
    obtain ⟨code, hs, hcode, hlength, hn, hbound⟩ := of_readGroups h
    rw [Nat.pow_zero, Nat.mul_one, Nat.zero_add] at hn
    exact ⟨code, hs, isForm_iff.2 ⟨hcode, hlength, hn, hbound⟩⟩
  · rintro ⟨code, rfl, hform⟩
    obtain ⟨hcode, hlength, rfl, hbound⟩ := isForm_iff.1 hform
    have hread := readGroups_terminated 0 0 rest hcode hlength (by simpa using hbound)
    simpa [read] using hread

/-- Reading meets the end of the stream just where all bytes that are left say that more follow. -/
theorem read_eq_endOfStream_iff {range : IntRange} {s : Bytes} :
    read range s = .error .endOfStream ↔ CutShort s :=
  readGroups_eq_endOfStream (by decide)

/-- What is written is a form of the number. -/
theorem isForm_write {range : IntRange} {n : Nat} (h : n < 2 ^ range.bits) :
    IsForm range (write n) n := by
  obtain ⟨hterminated, hvalue, hlength⟩ := terminated_writeGroups (lt_groups h) (by decide)
  exact isForm_iff.2 ⟨hterminated, hlength, hvalue, h⟩

/-- No form is shorter than the one that is written. -/
theorem IsForm.shortest {range : IntRange} {code : Bytes} {n : Nat} (h : IsForm range code n) :
    code = write n ∨ (write n).length < code.length := by
  obtain ⟨hcode, -, rfl, hbound⟩ := isForm_iff.1 h
  exact writeGroups_shortest hcode (lt_groups hbound)

/-- **Reading is exactly the grammar.**  A number is read if and only if the stream begins with a form
of it, and that form is what is taken.  The stream is too short if and only if it has fewer than ten
bytes and each asks for another.  Everything else is too large.  Writing makes the one shortest form,
which is read back whatever follows. -/
theorem read_exact (range : IntRange) :
    (∀ s n rest, read range s = .ok (n, rest) ↔ ∃ code, s = code ++ rest ∧ IsForm range code n) ∧
    (∀ s, read range s = .error .endOfStream ↔ CutShort s) ∧
    (∀ s, read range s = .error (.overflow range) ↔
      (¬ ∃ code n rest, s = code ++ rest ∧ IsForm range code n) ∧ ¬ CutShort s) ∧
    ∀ n, n < 2 ^ range.bits → (∀ rest, read range (write n ++ rest) = .ok (n, rest)) ∧
      IsForm range (write n) n ∧
      ∀ code, IsForm range code n → code ≠ write n → (write n).length < code.length := by
  refine ⟨fun s n rest => read_eq_ok_iff, fun s => read_eq_endOfStream_iff, fun s => ?_,
    fun n hn => ⟨reads_write range hn, isForm_write hn, fun code hcode hne => ?_⟩⟩
  · constructor
    · intro h
      constructor
      · rintro ⟨code, n, rest, hs, hform⟩
        cases h.symm.trans (read_eq_ok_iff.2 ⟨code, hs, hform⟩)
      · intro hcut
        cases h.symm.trans (read_eq_endOfStream_iff.2 hcut)
    · rintro ⟨hform, hcut⟩
      cases h : read range s with
      | ok p =>
        obtain ⟨code, hs, hcode⟩ := read_eq_ok_iff.1 h
        exact absurd ⟨code, p.1, p.2, hs, hcode⟩ hform
      | error e =>
        rcases readGroups_error h with rfl | rfl
        · exact absurd (read_eq_endOfStream_iff.1 h) hcut
        · rfl
  · exact hcode.shortest.resolve_left hne

/-- The largest byte takes two groups, and is read back from three. -/
theorem read_exact_largestByte :
    255 < 2 ^ IntRange.bits8.bits ∧ read .bits8 (write 255 ++ [7]) = .ok (255, [7]) ∧
      read .bits8 [255, 129, 0, 7] = .ok (255, [7]) := by
  obtain ⟨hok, -, -, hwrite⟩ := read_exact .bits8
  refine ⟨by decide, (hwrite 255 (by decide)).1 [7], ?_⟩
  exact (hok _ _ _).2 ⟨[255, 129, 0], rfl, ⟨⟨rfl, rfl, rfl⟩, by decide, by decide, by decide⟩⟩

/-! ## Padded forms -/

/-- A number fits a width if it has no more groups than that. -/
theorem writePadded_eq {n : Nat} (hn : n < 2 ^ 64) (width : Nat) :
    writePadded n width =
      if width = 0 ∨ 2 ^ (7 * width) ≤ n then .error ⟨n, width⟩ else .ok (padGroups width n) := by
  have hfits : width < maxBytes ∧ n >>> (7 * width) ≠ 0 ↔ 2 ^ (7 * width) ≤ n := by
    rw [Nat.shiftRight_eq_div_pow, Nat.ne_zero_iff_zero_lt, Nat.div_pos_iff]
    constructor
    · rintro ⟨-, -, hle⟩
      exact hle
    · intro hle
      refine ⟨?_, Nat.two_pow_pos _, hle⟩
      apply Nat.lt_of_not_le
      intro hwide
      have hpow : 2 ^ (7 * maxBytes) ≤ 2 ^ (7 * width) :=
        Nat.pow_le_pow_right (by decide) (Nat.mul_le_mul_left 7 hwide)
      have hten : (2 : Nat) ^ 64 < 2 ^ (7 * maxBytes) := by decide
      omega
  simp only [writePadded, hfits]

/-- The groups before the last one are marked. -/
theorem padGroups_add (count width n : Nat) (hwidth : 0 < width) :
    ∃ marks, padGroups (count + width) n = marks ++ padGroups width (n / 128 ^ count) ∧
      marks.length = count ∧ ∀ b ∈ marks, more b = true := by
  induction count generalizing n with
  | zero => exact ⟨[], by simp, rfl, by simp⟩
  | succ count ih =>
    obtain ⟨marks, hpad, hlength, hmarks⟩ := ih (n / 128)
    obtain ⟨k, hk⟩ : ∃ k, count + width = k + 1 := ⟨count + width - 1, by omega⟩
    have hstep : padGroups (count + 1 + width) n =
        UInt8.ofNat (n % 128 + 128) :: padGroups (count + width) (n / 128) := by
      rw [show count + 1 + width = k + 1 + 1 by omega, hk]
      rfl
    refine ⟨UInt8.ofNat (n % 128 + 128) :: marks, ?_, by simp [hlength], ?_⟩
    · rw [hstep, hpad, Nat.div_div_eq_div_mul, Nat.pow_succ, Nat.mul_comm (128 ^ count)]
      rfl
    · intro b hb
      rcases List.mem_cons.1 hb with rfl | hb
      · exact more_marked n
      · exact hmarks b hb

/-- **Padded forms.**  A number below `2 ^ 64` is padded to every width that has room for its groups.
The padded form has that width.  It is read back, whatever follows, if it has at most ten bytes; a
longer one is refused by every reader. -/
theorem writePadded_exact {n : Nat} (hn : n < 2 ^ 64) (width : Nat) :
    (∀ e, writePadded n width = .error e ↔ (width = 0 ∨ 2 ^ (7 * width) ≤ n) ∧ e = ⟨n, width⟩) ∧
      ∀ bytes, writePadded n width = .ok bytes → bytes.length = width ∧
        ∀ rest, read .bits64 (bytes ++ rest) =
          if width ≤ maxBytes then .ok (n, rest) else .error (.overflow .bits64) := by
  have heq := writePadded_eq hn width
  by_cases hunfit : width = 0 ∨ 2 ^ (7 * width) ≤ n
  · rw [if_pos hunfit] at heq
    rw [heq]
    constructor
    · intro e
      simp only [Except.error.injEq, hunfit, true_and, eq_comm]
    · intro bytes h
      cases h
  · rw [if_neg hunfit] at heq
    constructor
    · intro e
      rw [heq]
      simp [hunfit]
    · intro bytes hbytes
      have hpos : 0 < width := by omega
      have hgroups : n < 128 ^ width := by
        rw [show (128 : Nat) = 2 ^ 7 by decide, ← Nat.pow_mul]
        omega
      have hpad : padGroups width n = bytes := Except.ok.inj (heq.symm.trans hbytes)
      refine ⟨hpad ▸ (terminated_padGroups hgroups hpos).2.2, fun rest => ?_⟩
      by_cases hwidth : width ≤ maxBytes
      · rw [if_pos hwidth]
        exact reads_padded .bits64 hbytes hwidth hn rest
      · -- ten marked groups come first, and no reader goes on after them
        rw [if_neg hwidth]
        obtain ⟨marks, hmarks, hlength, hmore⟩ := padGroups_add maxBytes (width - maxBytes) n (by omega)
        rw [Nat.add_sub_cancel' (by omega), hpad] at hmarks
        rw [hmarks, List.append_assoc]
        exact readGroups_marked _ hlength hmore

/-- A small number in five bytes is read back, and in eleven it is not. -/
theorem writePadded_exact_five :
    5 < 2 ^ 64 ∧ writePadded 5 5 = .ok [133, 128, 128, 128, 0] ∧
      read .bits64 ([133, 128, 128, 128, 0] ++ [7]) = .ok (5, [7]) ∧
      writePadded 5 11 = .ok [133, 128, 128, 128, 128, 128, 128, 128, 128, 128, 0] ∧
      read .bits64 ([133, 128, 128, 128, 128, 128, 128, 128, 128, 128, 0] ++ [7]) =
        .error (.overflow .bits64) := by
  have hfive := (writePadded_exact (n := 5) (by decide) 5).2 _ rfl
  have heleven := (writePadded_exact (n := 5) (by decide) 11).2 _ rfl
  exact ⟨by decide, rfl, hfive.2 [7], rfl, heleven.2 [7]⟩

end ScriptMachine.Varint
