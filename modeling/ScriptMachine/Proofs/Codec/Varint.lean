import Mathlib.Algebra.Ring.Nat
import ScriptMachine.Proofs.Codec.Reads

/-!
# Numbers come back

A byte string stands for a number when every byte but the last says that another follows
(`Varint.Terminated`); the number is the positional sum of the payloads (`Varint.value`).  Reading
takes any such byte string of at most ten bytes whose number lies in the range
(`readGroups_terminated`).  Both writers produce terminated byte strings of the right value, so
both are read back: `reads_write` for the shortest form and `reads_padded` for the padded one.
-/

namespace ScriptMachine

namespace Varint

/-- The number that groups stand for, the lowest group first. -/
def value : Bytes → Nat
  | [] => 0
  | b :: bs => payload b + 128 * value bs

/-- Every byte but the last says that another follows. -/
def Terminated : Bytes → Prop
  | [] => False
  | [b] => more b = false
  | b :: c :: bs => more b = true ∧ Terminated (c :: bs)

/-- A byte that holds seven bits and the mark. -/
theorem payload_marked (n : Nat) : payload (UInt8.ofNat (n % 128 + 128)) = n % 128 := by
  simp only [payload, UInt8.toNat_ofNat']
  omega

/-- A group that is marked says that more follow. -/
theorem more_marked (n : Nat) : more (UInt8.ofNat (n % 128 + 128)) = true := by
  simp only [more, UInt8.toNat_ofNat', decide_eq_true_eq]
  omega

/-- A byte that holds seven bits without the mark. -/
theorem payload_plain {n : Nat} (h : n < 128) : payload (UInt8.ofNat n) = n := by
  simp only [payload, UInt8.toNat_ofNat']
  omega

/-- A group that is not marked is the last one. -/
theorem more_plain {n : Nat} (h : n < 128) : more (UInt8.ofNat n) = false := by
  simp only [more, UInt8.toNat_ofNat', decide_eq_false_iff_not]
  omega

/-- A group that says that more follow may be put in front. -/
theorem terminated_cons {b : UInt8} {bs : Bytes} (hb : more b = true) (h : Terminated bs) :
    Terminated (b :: bs) := by
  cases bs with
  | nil => exact h.elim
  | cons c bs => exact ⟨hb, h⟩

/-- No range is wider than 64 bits. -/
theorem bits_le (range : IntRange) : range.bits ≤ 64 := by
  cases range <;> decide

/-- The value of one more group, at its place. -/
theorem value_cons_mul (b : UInt8) (bs : Bytes) (shift : Nat) :
    value (b :: bs) * 2 ^ shift = payload b * 2 ^ shift + value bs * 2 ^ (shift + 7) := by
  simp only [value, Nat.pow_add, Nat.add_mul]
  rw [show (2 : Nat) ^ 7 = 128 by decide]
  ac_rfl

/-- What reading does with the next byte. -/
theorem readGroups_cons (range : IntRange) (left shift v : Nat) (b : UInt8) (s : Bytes) :
    readGroups range (left + 1) shift v (b :: s) =
      if UInt64.size ≤ payload b * 2 ^ shift then .error (.overflow range)
      else if more b then readGroups range left (shift + 7) (v + payload b * 2 ^ shift) s
      else if 2 ^ range.bits ≤ v + payload b * 2 ^ shift then .error (.overflow range)
      else .ok (v + payload b * 2 ^ shift, s) := by
  rw [readGroups, Reader.bind_apply]
  simp only [Reader.byte, Nat.shiftLeft_eq, Nat.one_mul]
  split
  · rfl
  · split
    · rfl
    · split <;> rfl

/-- **Reading groups.**  A terminated byte string that is not too long, and whose number stays in
the range, is taken to the last byte. -/
theorem readGroups_terminated {range : IntRange} {left : Nat} (shift v : Nat) {bs : Bytes}
    (rest : Bytes) (hbs : Terminated bs) (hleft : bs.length ≤ left)
    (hv : v + value bs * 2 ^ shift < 2 ^ range.bits) :
    readGroups range left shift v (bs ++ rest) = .ok (v + value bs * 2 ^ shift, rest) := by
  induction bs generalizing left shift v with
  | nil => exact hbs.elim
  | cons b bs ih =>
    obtain ⟨left, rfl⟩ : ∃ k, left = k + 1 := ⟨left - 1, by simp at hleft; omega⟩
    have hsize : 2 ^ range.bits ≤ UInt64.size := by
      have := Nat.pow_le_pow_right (show 0 < 2 by decide) (bits_le range)
      simpa [UInt64.size] using this
    -- the group read now is part of the sum, so it is below the range's bound
    have hsplit := value_cons_mul b bs shift
    have hsmall : ¬ UInt64.size ≤ payload b * 2 ^ shift := by omega
    rw [List.cons_append, readGroups_cons, if_neg hsmall]
    cases bs with
    | nil =>
      have hlast : ¬ 2 ^ range.bits ≤ v + payload b * 2 ^ shift := by
        simp [value] at hv
        omega
      rw [if_neg (by simpa [Terminated] using hbs), if_neg hlast]
      simp [value]
    | cons c bs =>
      rw [if_pos hbs.1, ih _ _ hbs.2 (by simp at hleft ⊢; omega) (by omega), hsplit]
      simp [Nat.add_assoc]

/-- The groups of a number end where they should, stand for it, and are not too many. -/
theorem terminated_writeGroups {left n : Nat} (h : n < 128 ^ left) (hleft : 0 < left) :
    Terminated (writeGroups left n) ∧ value (writeGroups left n) = n ∧
      (writeGroups left n).length ≤ left := by
  induction left generalizing n with
  | zero => omega
  | succ left ih =>
    rw [writeGroups]
    split
    · rename_i hn
      simp [Terminated, value, more_plain hn, payload_plain hn]
    · rename_i hn
      have hdiv : n / 128 < 128 ^ left := by
        rw [Nat.pow_succ] at h
        exact Nat.div_lt_of_lt_mul (by omega)
      have hpos : 0 < left := by
        cases left with
        | zero => simp at h; omega
        | succ _ => omega
      obtain ⟨ht, hv, hl⟩ := ih hdiv hpos
      refine ⟨terminated_cons (more_marked n) ht, ?_, by simpa using hl⟩
      rw [value, payload_marked, hv]
      omega

/-- Padded groups end where they should, stand for the number, and are as many as asked for. -/
theorem terminated_padGroups {width n : Nat} (h : n < 128 ^ width) (hwidth : 0 < width) :
    Terminated (padGroups width n) ∧ value (padGroups width n) = n ∧
      (padGroups width n).length = width := by
  induction width generalizing n with
  | zero => omega
  | succ width ih =>
    cases width with
    | zero =>
      have hn : n < 128 := by simpa using h
      have hmod : n % 128 = n := Nat.mod_eq_of_lt hn
      simp [padGroups, Terminated, value, hmod, more_plain hn, payload_plain hn]
    | succ width =>
      have hdiv : n / 128 < 128 ^ (width + 1) := by
        rw [Nat.pow_succ] at h
        exact Nat.div_lt_of_lt_mul (by omega)
      obtain ⟨ht, hv, hl⟩ := ih hdiv (by omega)
      refine ⟨terminated_cons (more_marked n) ht, ?_, by simp [padGroups, hl]⟩
      rw [padGroups, value, payload_marked, hv]
      · omega
      · omega

/-- The shortest form is read back in every range the number lies in. -/
theorem reads_write (range : IntRange) {n : Nat} (h : n < 2 ^ range.bits) :
    Reader.Reads (read range) (write n) n := by
  have hten : n < 128 ^ maxBytes := by
    have h64 := Nat.pow_le_pow_right (show 0 < 2 by decide) (bits_le range)
    have : (2 : Nat) ^ 64 < 128 ^ maxBytes := by decide
    omega
  obtain ⟨ht, hv, hl⟩ := terminated_writeGroups hten (by decide)
  intro rest
  have hread := readGroups_terminated 0 0 rest ht hl (by simpa [hv] using h)
  simpa [hv, read, write] using hread

/-- A padded form is read back in every range the number lies in. -/
theorem reads_padded (range : IntRange) {n width : Nat} {b : Bytes}
    (hb : writePadded n width = .ok b) (hwidth : width ≤ maxBytes) (h : n < 2 ^ range.bits) :
    Reader.Reads (read range) b n := by
  unfold writePadded at hb
  split at hb
  · cases hb
  · rename_i hfit
    cases hb
    simp only [not_or, not_and, Decidable.not_not] at hfit
    have hpos : 0 < width := Nat.pos_of_ne_zero hfit.1
    have hn : n < 128 ^ width := by
      by_cases hw : width < maxBytes
      · have hzero := hfit.2 hw
        rw [Nat.shiftRight_eq_div_pow, Nat.div_eq_zero_iff] at hzero
        rw [show (128 : Nat) = 2 ^ 7 by decide, ← Nat.pow_mul]
        rcases hzero with hzero | hzero
        · exact absurd hzero (Nat.ne_of_gt (Nat.two_pow_pos _))
        · exact hzero
      · have : width = maxBytes := by omega
        subst this
        have h64 := Nat.pow_le_pow_right (show 0 < 2 by decide) (bits_le range)
        have : (2 : Nat) ^ 64 < 128 ^ maxBytes := by decide
        omega
    obtain ⟨ht, hv, hl⟩ := terminated_padGroups hn hpos
    intro rest
    have hleft : (padGroups width n).length ≤ maxBytes := by omega
    have hread := readGroups_terminated 0 0 rest ht hleft (by simpa [hv] using h)
    simpa [hv, read] using hread

theorem reads_writeWord (w : Word) : Reader.Reads readWord (writeWord w) w := by
  have h := (reads_write .bits32 w.toNat_lt).map UInt32.ofNat
  simpa [readWord, writeWord] using h

theorem reads_writeSigned (i : Int32) : Reader.Reads readSigned (writeSigned i) i := by
  have h := (reads_writeWord (.ofSigned i)).map Word.signed
  simpa [readSigned, writeSigned] using h

theorem reads_size {n : Nat} (h : n < 2 ^ 64) : Reader.Reads readSize (write n) n :=
  reads_write .size h

end Varint

namespace Reader

variable {α β : Type}

theorem reads_string {b : Bytes} (h : b.length < 2 ^ 64) : Reads string (Writer.string b) b :=
  (Varint.reads_size h).bind (reads_block b)

/-- Values after their number are read back, each through `g`. -/
theorem Reads.list {r : Reader β} {w : α → Bytes} {g : α → β} {xs : List α}
    (hlen : xs.length < 2 ^ 64) (h : ∀ x ∈ xs, Reads r (w x) (g x)) :
    Reads (list r) (Writer.list w xs) (xs.map g) :=
  (Varint.reads_size hlen).bind (Reads.times h)

/-- Values after their number are read back as they are. -/
theorem Reads.listSelf {r : Reader α} {w : α → Bytes} {xs : List α}
    (hlen : xs.length < 2 ^ 64) (h : ∀ x ∈ xs, Reads r (w x) x) :
    Reads (Reader.list r) (Writer.list w xs) xs := by
  simpa using Reads.list (g := id) hlen h

/-- Values after their number are read back, each with its position. -/
theorem Reads.listFrom {r : Nat → Reader β} {w : α → Bytes} {g : α → β} {xs : List α}
    (hlen : xs.length < 2 ^ 64) (h : ∀ j x, xs[j]? = some x → Reads (r j) (w x) (g x)) :
    Reads (listFrom r) (Writer.list w xs) (xs.map g) :=
  (Varint.reads_size hlen).bind (Reads.timesFrom (by simpa using h))

/-- Values after their number are read back as they are, each with its position. -/
theorem Reads.listFromSelf {r : Nat → Reader α} {w : α → Bytes} {xs : List α}
    (hlen : xs.length < 2 ^ 64) (h : ∀ j x, xs[j]? = some x → Reads (r j) (w x) x) :
    Reads (Reader.listFrom r) (Writer.list w xs) xs := by
  simpa using Reads.listFrom (g := id) hlen h

theorem reads_words {ws : List Word} (h : ws.length < 2 ^ 64) :
    Reads words (Writer.words ws) ws :=
  Reads.listSelf h fun w _ => Varint.reads_writeWord w

/-- What each reading yields, all elements of a list are. -/
theorem Yields.list {r : Reader α} {P : α → Prop} (hr : Yields r P) :
    Yields (Reader.list r) fun xs => ∀ x ∈ xs, P x :=
  (Yields.trivial _).bind fun n _ => hr.times n

/-- What the reading at each position yields, the element there is. -/
theorem Yields.listFrom {r : Nat → Reader α} {P : Nat → α → Prop} (hr : ∀ i, Yields (r i) (P i)) :
    Yields (Reader.listFrom r) fun xs => ∀ j x, xs[j]? = some x → P j x := by
  refine (Yields.trivial _).bind fun n _ => ?_
  simpa using Yields.timesFrom hr 0 n

/-- A 32-bit number in four bytes is read back. -/
theorem reads_word32 (w : Word) : Reads word32 (Writer.word32 w) w := by
  intro rest
  have hb : block 4 (Writer.word32 w ++ rest) = .ok (Writer.word32 w, rest) :=
    reads_block (Writer.word32 w) rest
  have hw : (Writer.word32 w).foldr (fun b n => n * 256 + b.toUInt32) (0 : Word) = w := by
    apply UInt32.toNat_inj.1
    simp only [Writer.word32, List.foldr]
    simp [Nat.shiftRight_eq_div_pow]
    have := w.toNat_lt
    omega
  simp only [word32, bind_apply, hb, hw]
  rfl

end Reader

end ScriptMachine
