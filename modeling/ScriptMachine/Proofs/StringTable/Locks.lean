import ScriptMachine.Proofs.StringTable.Keeping

/-!
# Lock counts

`lockCount` is the number of locks on the string at an index.  It follows each operation of the table: a
lock on a live string adds one up to the largest count, giving locks back takes away as many as are given
back, and a collection changes no count and removes no locked string.

A module interns its constants and locks each of them (`TakesIn`): strings that lived stay where they
were, nothing but constants is new, and each count grows by the number of times its index occurs among the
constants.  So giving the indices back is enough to undo the locks.
-/

namespace ScriptMachine

namespace StringTable

variable {t : StringTable} {i j : Word}

/-- The lock count of the string at an index, 0 where none lives. -/
def lockCount (t : StringTable) (i : Word) : Nat := ((t.get? i).map (·.locks.toNat)).getD 0

/-- No lock count is the largest. -/
def Unsaturated (t : StringTable) : Prop := ∀ i e, t.get? i = some e → e.locks ≠ 0xFFFFFFFF

/-- An entry that is found is one of the entries. -/
theorem mem_entries_of_get? {e : StringEntry} (he : t.get? i = some e) : e ∈ t.entries :=
  List.mem_filterMap.2 ⟨some e, Array.mem_toList_iff.2 (Array.mem_of_getElem? (get?_eq_some_iff.1 he)), rfl⟩

theorem contains_iff : t.contains i = true ↔ ∃ e, t.get? i = some e := Option.isSome_iff_exists

/-- The same strings are there. -/
theorem SameStrings.contains {u : StringTable} (h : SameStrings t u) (i : Word) :
    u.contains i = t.contains i := by
  have hkey := congrArg Option.isSome (h.get? i)
  rwa [Option.isSome_map, Option.isSome_map] at hkey

/-- What becomes of the locks of an entry that changes. -/
theorem lockCount_update (t : StringTable) (j : Word) {f : StringEntry → StringEntry} {g : Nat → Nat}
    (hf : ∀ e, t.get? j = some e → (f e).locks.toNat = g e.locks.toNat) (i : Word) :
    (t.update j f).lockCount i = if j = i ∧ t.contains i then g (t.lockCount i) else t.lockCount i := by
  rw [lockCount, get?_update, lockCount, contains]
  by_cases hj : j = i
  · subst hj
    cases he : t.get? j with
    | none => simp
    | some e => simp [hf e he]
  · simp [hj]

/-- A lock on one string leaves the others alone. -/
theorem lockCount_lock_of_ne (t : StringTable) (hj : j ≠ i) : (t.lock j).lockCount i = t.lockCount i := by
  rw [lockCount, lock, get?_update, if_neg hj]
  rfl

/-- A lock on a live string counts, and no other, unless the count is the largest there is. -/
theorem lockCount_lock (hfits : t.lockCount i + 1 < UInt32.size) (j : Word) :
    (t.lock j).lockCount i = t.lockCount i + if j = i ∧ t.contains i then 1 else 0 := by
  by_cases hj : j = i
  · subst hj
    rw [lock, lockCount_update (g := (· + 1))]
    · split <;> rfl
    · intro e he
      have hcount : t.lockCount j = e.locks.toNat := by rw [lockCount, he]; rfl
      have hlt : e.locks.toNat + 1 < UInt32.size := hcount ▸ hfits
      have hne : e.locks ≠ 0xFFFFFFFF := by
        rintro heq
        rw [heq] at hlt
        exact absurd hlt (by decide)
      rw [if_neg hne, UInt32.toNat_add, UInt32.toNat_one]
      exact Nat.mod_eq_of_lt hlt
  · rw [if_neg fun h => hj h.1, lockCount_lock_of_ne t hj, Nat.add_zero]

/-- A lock adds one, to a string that is there. -/
theorem Unsaturated.lockCount_lock (h : t.Unsaturated) (j i : Word) :
    (t.lock j).lockCount i = t.lockCount i + if j = i ∧ t.contains i then 1 else 0 := by
  refine StringTable.lockCount_lock ?_ j
  rw [lockCount]
  cases he : t.get? i with
  | none => exact by decide
  | some e =>
    have hlt := e.locks.toNat_lt
    have hmax : e.locks.toNat ≠ 0xFFFFFFFF := fun heq => h i e he (UInt32.toNat_inj.1 heq)
    simp only [Option.map_some, Option.getD_some, UInt32.size]
    omega

/-- A lock that is given back takes one away. -/
theorem lockCount_unlock (t : StringTable) (j i : Word) :
    (t.unlock j).lockCount i = t.lockCount i - if j = i then 1 else 0 := by
  rw [unlock, lockCount_update (g := (· - 1))]
  · by_cases hj : j = i
    · by_cases hi : t.contains i
      · simp [hj, hi]
      · have hnone : t.get? i = none := by simpa [contains] using hi
        simp [hi, lockCount, hnone]
    · simp [hj]
  · intro e _
    split
    · simp_all
    · rename_i hne
      have hpos : (1 : Word).toNat ≤ e.locks.toNat :=
        Nat.pos_of_ne_zero fun h => hne (UInt32.toNat_inj.1 h)
      rw [UInt32.toNat_sub_of_le _ _ (UInt32.le_iff_toNat_le.2 hpos), UInt32.toNat_one]

/-- Locks that are given back take as many away. -/
theorem lockCount_unlockAll (t : StringTable) (is : List Word) (i : Word) :
    (t.unlockAll is).lockCount i = t.lockCount i - is.count i := by
  induction is generalizing t with
  | nil => simp [unlockAll]
  | cons j is ih =>
    rw [unlockAll, List.foldl_cons, ← unlockAll, ih, lockCount_unlock, Nat.sub_sub, List.count_cons,
      Nat.add_comm]
    simp only [beq_iff_eq]

/-- Marks leave locks alone. -/
theorem lockCount_mark (t : StringTable) (j i : Word) : (t.mark j).lockCount i = t.lockCount i := by
  rw [mark, lockCount_update (g := id)]
  · split <;> rfl
  · exact fun e _ => rfl

/-- Many marks leave locks alone. -/
theorem lockCount_markAll (t : StringTable) (is : List Word) (i : Word) :
    (t.markAll is).lockCount i = t.lockCount i := by
  induction is generalizing t with
  | nil => rfl
  | cons j is ih => exact (ih (t.mark j)).trans (lockCount_mark t j i)

/-- Beginning a collection leaves locks alone. -/
theorem lockCount_beginCollection (t : StringTable) (i : Word) :
    t.beginCollection.lockCount i = t.lockCount i := by
  simp only [lockCount, get?, beginCollection, Array.getElem?_map]
  rcases t.slots[i.toNat]? with _ | _ | e <;> rfl

/-- The end of a collection changes no lock count, and a locked string stays. -/
theorem lockCount_endCollection (t : StringTable) (i : Word) :
    t.endCollection.2.lockCount i = t.lockCount i ∧
      (t.endCollection.2.contains i = true → t.contains i = true) ∧
      (0 < t.lockCount i → t.endCollection.2.contains i = true) := by
  rw [lockCount, contains, get?_endCollection, lockCount, contains]
  cases t.get? i with
  | none => simp
  | some e =>
    by_cases hdead : dead e = true
    · have hlocks : e.locks = 0 := by
        simp only [dead, Bool.and_eq_true, beq_iff_eq] at hdead
        exact hdead.1
      simp [Option.filter_some, hdead, hlocks]
    · simp [Option.filter_some, hdead]

/-- An index where no string lives counts no locks. -/
theorem lockCount_of_not_contains (h : t.contains i = false) : t.lockCount i = 0 := by
  rw [contains, Option.isSome_eq_false_iff, Option.isNone_iff_eq_none] at h
  rw [lockCount, h]
  rfl

/-! ## Interning -/

/-- A string that is there has its bytes. -/
theorem contains_iff_bytes? : t.contains i = true ↔ ∃ b, t.bytes? i = some b := by
  rw [← Option.isSome_iff_exists, bytes?, Option.isSome_map, contains]

/-- Interning adds the index it answers to the live ones, and no other. -/
theorem Aligned.contains_intern (h : t.Aligned) (hroom : t.slots.size < UInt32.size) (b : Bytes) :
    (t.intern b).2.contains i = true ↔ t.contains i = true ∨ i = (t.intern b).1 := by
  constructor
  · intro hi
    cases hf : t.find? b (hash b) with
    | some k =>
      rw [intern_old hf] at hi
      exact .inl hi
    | none =>
      have hfst : (t.intern b).1 = t.nextIndex := by rw [intern_new hf]
      rw [contains, h.get?_intern_new hroom hf] at hi
      split at hi
      · exact .inr (by rw [hfst]; assumption)
      · exact .inl hi
  · rintro (hi | rfl)
    · obtain ⟨e, he⟩ := contains_iff.1 hi
      exact contains_iff.2 ⟨e, h.get?_intern_of_some hroom b he⟩
    · exact contains_iff_bytes?.2 ⟨b, h.bytes?_intern hroom b⟩

/-- Interning locks nothing. -/
theorem Aligned.lockCount_intern (h : t.Aligned) (hroom : t.slots.size < UInt32.size) (b : Bytes)
    (i : Word) : (t.intern b).2.lockCount i = t.lockCount i := by
  cases hf : t.find? b (hash b) with
  | some k => rw [intern_old hf]
  | none =>
    rw [lockCount, h.get?_intern_new hroom hf, lockCount]
    split
    · rename_i hi
      rw [hi, h.get?_nextIndex hroom]
      rfl
    · rfl

/-- The table `t'` is `t` with the constants `bs` interned at the indices `is` and locked there. -/
structure TakesIn (t : StringTable) (bs : List Bytes) (is : List Word) (t' : StringTable) : Prop where
  /-- The table stays in order. -/
  aligned : t'.Aligned
  /-- Each index leads to its constant. -/
  constants : is.map t'.bytes? = bs.map some
  /-- A live string keeps its index and its bytes. -/
  old : ∀ i b, t.bytes? i = some b → t'.bytes? i = some b
  /-- A new string is a constant. -/
  new : ∀ i, t.contains i = false → t'.contains i = true → i ∈ is
  /-- A lock count that fits grows by one for each constant at the index. -/
  locks : ∀ i, t.lockCount i + is.count i < UInt32.size → t'.lockCount i = t.lockCount i + is.count i

/-- **Constants.**  A table that is in order takes constants in, if there are indices for them. -/
theorem Aligned.takesIn_internLocked (h : t.Aligned) {bs : List Bytes}
    (hroom : (t.internLocked bs).2.slots.size < UInt32.size) :
    TakesIn t bs (t.internLocked bs).1 (t.internLocked bs).2 := by
  induction bs generalizing t with
  | nil =>
    refine ⟨h, rfl, fun _ _ hb => hb, fun i hno hi => ?_, fun _ _ => rfl⟩
    exact absurd (hno.symm.trans hi) (by decide)
  | cons b bs ih =>
    have hsame := sameStrings_lock (t.intern b).2 (t.intern b).1
    have hfit : t.slots.size < UInt32.size :=
      Nat.lt_of_le_of_lt (size_le_internLocked t (b :: bs)) hroom
    rw [internLocked_cons] at hroom ⊢
    have hrest := ih (hsame.aligned (h.intern hfit b)) hroom
    have hone : (t.intern b).2.contains (t.intern b).1 = true := (h.contains_intern hfit b).2 (.inr rfl)
    refine ⟨hrest.aligned, ?_, fun i c hc => hrest.old i c ?_, fun i hno hi => ?_, fun i hfits => ?_⟩
    · rw [List.map_cons, List.map_cons, hrest.constants, hrest.old _ b]
      rw [hsame.bytes?]
      exact h.bytes?_intern hfit b
    · rw [hsame.bytes?]
      exact h.bytes?_intern_of_some hfit b hc
    · cases hlives : (t.intern b).2.contains i with
      | false => exact List.mem_cons_of_mem _ (hrest.new i ((hsame.contains i).trans hlives) hi)
      | true =>
        rcases (h.contains_intern hfit b).1 hlives with hold | rfl
        · exact absurd (hno.symm.trans hold) (by decide)
        · exact List.mem_cons_self
    · -- the lock on the first constant counts for its index, which is live by now
      have hlock : ((t.intern b).2.lock (t.intern b).1).lockCount i =
          t.lockCount i + if (t.intern b).1 = i then 1 else 0 := by
        by_cases hi : (t.intern b).1 = i
        · subst hi
          rw [List.count_cons_self] at hfits
          rw [lockCount_lock (by rw [h.lockCount_intern hfit]; omega), h.lockCount_intern hfit, if_pos rfl,
            if_pos ⟨rfl, hone⟩]
        · rw [lockCount_lock_of_ne _ hi, h.lockCount_intern hfit, if_neg hi, Nat.add_zero]
      have hcount : ((t.intern b).1 :: (((t.intern b).2.lock (t.intern b).1).internLocked bs).1).count i =
          (((t.intern b).2.lock (t.intern b).1).internLocked bs).1.count i +
            if (t.intern b).1 = i then 1 else 0 := by
        rw [List.count_cons]
        simp only [beq_iff_eq]
      rw [hcount] at hfits ⊢
      rw [hrest.locks i (by rw [hlock]; omega), hlock]
      omega

/-- Giving back what was taken for the constants leaves the counts that were there before. -/
theorem TakesIn.lockCount_unlockAll {t' : StringTable} {bs : List Bytes} {is : List Word}
    (h : TakesIn t bs is t') (hfits : t.lockCount i + is.count i < UInt32.size) :
    (t'.unlockAll is).lockCount i = t.lockCount i := by
  rw [StringTable.lockCount_unlockAll, h.locks i hfits, Nat.add_sub_cancel]

end StringTable

end ScriptMachine
