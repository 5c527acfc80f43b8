import Mathlib.Data.List.Basic
import Mathlib.Data.List.Induction
import ScriptMachine.Proofs.StringTable.Locks
import ScriptMachine.Scope.Vars

/-!
# The locks of arrays of strings

Each cell of an array of strings stands for one lock on the string it names.  A `Ledger` puts the
variables of a scope beside the string table and the locks that others hold, and its `Deed`s are what
may happen to the three: stores of scripts, releases, new strings, locks taken and given back by
others, and collections.

The books balance (`Ledger.Balanced`) when the lock count of every live string is the number of locks
of others plus the number of cells that name it.  A script may store any word.  A word that names no
string takes no lock, so the balance is lost as soon as a new string is given such a word for its
index (`Ledger.Claimed`), and at no other moment: `Ledger.balanced_iff`.
-/

namespace ScriptMachine

/-! ## The cells of arrays of strings -/

namespace Vars

variable {v : Vars} {i : Word}

/-- The words in the cells of the arrays of strings. -/
def stringWords (v : Vars) : List Word :=
  (OrdSet.members v.stringArrays).flatMap fun i => ((v.arr? i).map Sparse.references).getD []

/-- One array changes and the others stay. -/
theorem arr?_modifyArr (v : Vars) (i : Word) (f : Sparse → Sparse) (j : Word) :
    (v.modifyArr i f).arr? j = if i = j then (v.arr? j).map f else v.arr? j := by
  simp only [arr?, modifyArr, Array.getElem?_modify, UInt32.toNat_inj]

/-- What a change of one array of strings does to the words. -/
theorem exists_otherWords (hi : v.isStringArray i = true) {a : Sparse} (ha : v.arr? i = some a) :
    ∃ rest, v.stringWords.Perm (a.references ++ rest) ∧
      ∀ f, (v.modifyArr i f).stringWords.Perm ((f a).references ++ rest) := by
  have hmem : i ∈ OrdSet.members v.stringArrays := OrdSet.mem_members.2 hi
  have hsplit : ∀ u : Vars, u.stringArrays = v.stringArrays →
      u.stringWords.Perm (((u.arr? i).map Sparse.references).getD [] ++
        ((OrdSet.members v.stringArrays).erase i).flatMap fun j =>
          ((u.arr? j).map Sparse.references).getD []) := by
    intro u hu
    rw [stringWords, hu]
    exact (List.perm_cons_erase hmem).flatMap_right _
  refine ⟨((OrdSet.members v.stringArrays).erase i).flatMap fun j =>
    ((v.arr? j).map Sparse.references).getD [], ?_, fun f => ?_⟩
  · have hperm := hsplit v rfl
    rwa [ha] at hperm
  · have hperm := hsplit (v.modifyArr i f) rfl
    have hrest : ∀ j ∈ (OrdSet.members v.stringArrays).erase i, (v.modifyArr i f).arr? j = v.arr? j := by
      intro j hj
      rw [arr?_modifyArr, if_neg]
      rintro rfl
      exact List.Nodup.not_mem_erase (OrdMap.nodup_keys _) hj
    rwa [arr?_modifyArr, if_pos rfl, ha, List.flatMap_congr fun j hj => by rw [hrest j hj]] at hperm

/-- A change of any other array leaves the words alone. -/
theorem stringWords_modifyArr (hi : v.isStringArray i = false) (f : Sparse → Sparse) :
    (v.modifyArr i f).stringWords = v.stringWords := by
  refine List.flatMap_congr fun j hj => ?_
  rw [arr?_modifyArr, if_neg]
  rintro rfl
  have hj' := OrdSet.mem_members.1 hj
  exact absurd (hi.symm.trans hj') (by decide)

end Vars

/-- A string that is stored changes locks only. -/
theorem Sparse.sameStrings_setString (a : Sparse) (k w : Word) (t : StringTable) :
    t.SameStrings (a.setString k w t).2 := by
  unfold Sparse.setString
  cases a.cells.find? k with
  | none => exact StringTable.sameStrings_lock ..
  | some old => exact (StringTable.sameStrings_lock ..).trans (StringTable.sameStrings_unlock ..)

/-- A store into an array of strings moves a lock: one more on the new word, if a string lives there,
and one less on the word that was in the cell. -/
theorem Sparse.lockCount_setString (a : Sparse) (k w : Word) {t : StringTable} (h : t.Unsaturated)
    (i : Word) : (a.setString k w t).2.lockCount i =
      t.lockCount i + (if w = i ∧ t.contains i then 1 else 0) - (a.cells.find? k).toList.count i := by
  unfold Sparse.setString
  cases a.cells.find? k with
  | none => simp [h.lockCount_lock]
  | some old => simp [StringTable.lockCount_unlock, h.lockCount_lock, List.count_cons]

namespace Vars

variable {v : Vars} {t : StringTable} {i : Word}

/-- A store leaves table and words alone, or it moves one lock of an array of strings. -/
theorem store_cases (v : Vars) (i k w : Word) (t : StringTable) :
    ((v.store i k w t).2 = t ∧ (v.store i k w t).1.stringWords = v.stringWords) ∨
      ∃ (a : Sparse) (rest : List Word), (v.store i k w t).2 = (a.setString k w t).2 ∧
        v.stringWords.Perm ((a.cells.find? k).toList ++ rest) ∧
        (v.store i k w t).1.stringWords.Perm (w :: rest) := by
  unfold store
  cases ha : v.arr? i with
  | none => exact .inl ⟨rfl, rfl⟩
  | some a =>
    cases hi : v.isStringArray i with
    | false => exact .inl ⟨rfl, stringWords_modifyArr hi _⟩
    | true =>
      obtain ⟨rest, hbefore, hafter⟩ := exists_otherWords hi ha
      refine .inr ⟨a, (a.cells.erase k).values ++ rest, rfl, ?_, ?_⟩
      · rw [← List.append_assoc]
        exact hbefore.trans ((a.cells.values_perm k).append_right rest)
      · exact (hafter _).trans ((a.cells.values_insert_perm k w).append_right rest)

/-- An array that is emptied is still one of strings. -/
theorem stringArrays_releaseArray (v : Vars) (t : StringTable) (i : Word) :
    (releaseArray (v, t) i).1.stringArrays = v.stringArrays := by
  unfold releaseArray
  split <;> rfl

/-- Emptying an array changes locks only. -/
theorem sameStrings_releaseArray (v : Vars) (t : StringTable) (i : Word) :
    t.SameStrings (releaseArray (v, t) i).2 := by
  unfold releaseArray
  split
  · exact .refl t
  · exact StringTable.sameStrings_unlockAll ..

/-- Releasing one array takes from each lock count what the words lose. -/
theorem lockCount_releaseArray (hi : v.isStringArray i = true) (t : StringTable) (j : Word) :
    (releaseArray (v, t) i).2.lockCount j - (releaseArray (v, t) i).1.stringWords.count j =
      t.lockCount j - v.stringWords.count j := by
  unfold releaseArray
  split
  · rfl
  · rename_i a ha
    obtain ⟨rest, hbefore, hafter⟩ := exists_otherWords hi ha
    have hempty : (Sparse.references {}) = [] := rfl
    simp only [Sparse.clearStrings, StringTable.lockCount_unlockAll, (hafter _).count_eq,
      hbefore.count_eq, List.count_append, Nat.sub_sub, hempty, List.count_nil, Nat.zero_add]
    rfl

/-- One array is emptied and the others stay. -/
theorem arr?_releaseArray (v : Vars) (t : StringTable) (i j : Word) :
    (releaseArray (v, t) i).1.arr? j = if i = j then (v.arr? j).map fun _ => {} else v.arr? j := by
  unfold releaseArray
  split
  · rename_i hnone
    split
    · simp_all
    · rfl
  · exact arr?_modifyArr ..

/-- What is left after some arrays of strings were released. -/
theorem foldl_releaseArray (is : List Word) (v : Vars) (t : StringTable)
    (his : ∀ i ∈ is, v.isStringArray i = true) :
    t.SameStrings (is.foldl releaseArray (v, t)).2 ∧
      (is.foldl releaseArray (v, t)).1.stringArrays = v.stringArrays ∧
      (∀ j, (is.foldl releaseArray (v, t)).1.arr? j =
        if j ∈ is then (v.arr? j).map fun _ => {} else v.arr? j) ∧
      ∀ j, (is.foldl releaseArray (v, t)).2.lockCount j -
          (is.foldl releaseArray (v, t)).1.stringWords.count j =
        t.lockCount j - v.stringWords.count j := by
  induction is generalizing v t with
  | nil => exact ⟨.refl t, rfl, fun j => by simp, fun j => rfl⟩
  | cons i is ih =>
    have harrays := stringArrays_releaseArray v t i
    obtain ⟨hsame, hflags, harr, hcount⟩ := ih (releaseArray (v, t) i).1 (releaseArray (v, t) i).2
      fun j hj => by
        rw [isStringArray, harrays]
        exact his j (List.mem_cons_of_mem _ hj)
    refine ⟨(sameStrings_releaseArray v t i).trans hsame, hflags.trans harrays, fun j => ?_, fun j =>
      (hcount j).trans (lockCount_releaseArray (his i List.mem_cons_self) t j)⟩
    rw [List.foldl_cons, harr, arr?_releaseArray]
    by_cases hj : j = i
    · subst hj
      simp [Function.comp_def]
    · simp [hj, Ne.symm hj]

/-- **Release.**  The arrays of strings are empty afterwards, and every lock count is less by the
number of cells that named the string. -/
theorem release_spec (v : Vars) (t : StringTable) :
    t.SameStrings (v.release t).2 ∧ (v.release t).1.stringWords = [] ∧
      ∀ i, (v.release t).2.lockCount i = t.lockCount i - v.stringWords.count i := by
  obtain ⟨hsame, hflags, harr, hcount⟩ := foldl_releaseArray (OrdSet.members v.stringArrays) v t
    fun i hi => OrdSet.mem_members.1 hi
  have hempty : (v.release t).1.stringWords = [] := by
    refine List.flatMap_eq_nil_iff.2 fun i hi => ?_
    rw [release, hflags] at hi
    rw [release, harr, if_pos hi]
    cases v.arr? i <;> rfl
  refine ⟨hsame, hempty, fun i => ?_⟩
  have hi := hcount i
  rwa [← release, hempty, List.count_nil, Nat.sub_zero] at hi

end Vars

/-! ## The books -/

/-- Variables of a scope with the string table and the locks of others. -/
structure Ledger where
  vars : Vars
  table : StringTable
  /-- The locks that others took and did not give back, each with the index of its string. -/
  held : List Word

/-- What may happen to a ledger. -/
inductive Deed where
  /-- A script stores a word into an array. -/
  | store (i k w : Word)
  /-- The scope gives back the locks of its arrays. -/
  | release
  | intern (b : Bytes)
  /-- Somebody else takes a lock. -/
  | lock (i : Word)
  /-- Somebody else gives a lock back. -/
  | unlock (i : Word)
  | beginCollection
  /-- A holder marks the string at an index. -/
  | mark (i : Word)
  | endCollection

namespace Ledger

variable {s : Ledger}

/-- The ledger after a deed.  Others hold a lock only if a string was there to take it. -/
def act (s : Ledger) : Deed → Ledger
  | .store i k w =>
    { s with vars := (s.vars.store i k w s.table).1, table := (s.vars.store i k w s.table).2 }
  | .release => { s with vars := (s.vars.release s.table).1, table := (s.vars.release s.table).2 }
  | .intern b => { s with table := (s.table.intern b).2 }
  | .lock i =>
    { s with
      table := s.table.lock i
      held := if s.table.contains i then i :: s.held else s.held }
  | .unlock i => { s with table := s.table.unlock i, held := s.held.erase i }
  | .beginCollection => { s with table := s.table.beginCollection }
  | .mark i => { s with table := s.table.mark i }
  | .endCollection => { s with table := s.table.endCollection.2 }

/-- The ledger after some deeds. -/
def after (s : Ledger) (ds : List Deed) : Ledger := ds.foldl act s

/-- A deed by the rules: no count is the largest, others give back only locks that they took, and a new
string finds an index. -/
def Permits (s : Ledger) (d : Deed) : Prop :=
  s.table.Unsaturated ∧ (∀ i, d = .unlock i → i ∈ s.held) ∧
    ∀ b, d = .intern b → (s.table.intern b).2.capacity < UInt32.size

/-- The lock count of every live string is what others hold and what the cells of arrays of strings
name. -/
def Balanced (s : Ledger) : Prop :=
  ∀ i, s.table.contains i = true → s.table.lockCount i = s.held.count i + s.vars.stringWords.count i

/-- A new string is given an index that a cell of an array of strings already holds. -/
def Claimed (s : Ledger) (b : Bytes) : Prop :=
  s.table.find? b (StringTable.hash b) = none ∧ s.table.nextIndex ∈ s.vars.stringWords

/-- What every deed keeps: the table is in order, the books balance, and others hold locks on live
strings only. -/
structure Kept (s : Ledger) : Prop where
  aligned : s.table.Aligned
  balanced : s.Balanced
  live : ∀ i ∈ s.held, s.table.contains i = true

/-- A ledger is opened with empty arrays of strings. -/
structure Opened (s : Ledger) : Prop extends s.Kept where
  empty : s.vars.stringWords = []

/-- Storing keeps the ledger, where no lock is ignored. -/
theorem Kept.store (h : s.Kept) (hfull : s.table.Unsaturated) (i k w : Word) :
    (s.act (.store i k w)).Kept := by
  rcases s.vars.store_cases i k w s.table with ⟨htable, hwords⟩ | ⟨a, rest, htable, hbefore, hafter⟩
  · refine ⟨?_, fun j hj => ?_, ?_⟩ <;> simp only [act, htable, hwords] at *
    · exact h.aligned
    · exact h.balanced j hj
    · exact h.live
  have hsame := a.sameStrings_setString k w s.table
  refine ⟨?_, fun j hj => ?_, fun j hj => ?_⟩ <;> simp only [act, htable] at *
  · exact hsame.aligned h.aligned
  · rw [hsame.contains] at hj
    have hcount := h.balanced j hj
    rw [hbefore.count_eq, List.count_append] at hcount
    rw [a.lockCount_setString k w hfull, hcount, hafter.count_eq, List.count_cons]
    simp only [hj, and_true, beq_iff_eq]
    omega
  · rw [hsame.contains]
    exact h.live j hj

/-- Giving the locks back keeps the ledger. -/
theorem Kept.release (h : s.Kept) : (s.act .release).Kept := by
  obtain ⟨hsame, hempty, hcount⟩ := s.vars.release_spec s.table
  refine ⟨hsame.aligned h.aligned, fun j hj => ?_, fun j hj => (hsame.contains j).trans (h.live j hj)⟩
  have hbefore := h.balanced j ((hsame.contains j).symm.trans hj)
  show (s.vars.release s.table).2.lockCount j = s.held.count j + (s.vars.release s.table).1.stringWords.count j
  rw [hcount, hempty, hbefore, List.count_nil]
  omega

/-- A new string has no lock, so its index must not be in the books. -/
theorem Kept.intern (h : s.Kept) {b : Bytes} (hroom : (s.table.intern b).2.capacity < UInt32.size)
    (hfree : ¬ s.Claimed b) : (s.act (.intern b)).Kept := by
  have hroom : s.table.slots.size < UInt32.size :=
    Nat.lt_of_le_of_lt (StringTable.size_le_intern s.table b) hroom
  refine ⟨h.aligned.intern hroom b, fun j hj => ?_,
    fun j hj => (h.aligned.contains_intern hroom b).2 (.inl (h.live j hj))⟩
  show (s.table.intern b).2.lockCount j = s.held.count j + s.vars.stringWords.count j
  rw [h.aligned.lockCount_intern hroom]
  cases hold : s.table.contains j with
  | true => exact h.balanced j hold
  | false =>
    cases hf : s.table.find? b (StringTable.hash b) with
    | some i =>
      rw [act, StringTable.intern_old hf, hold] at hj
      cases hj
    | none =>
      have hnew : j = s.table.nextIndex := by
        rcases (h.aligned.contains_intern hroom b).1 hj with hlives | hindex
        · exact absurd (hold.symm.trans hlives) (by decide)
        · rw [hindex, StringTable.intern_new hf]
      have hbooks : j ∉ s.vars.stringWords := fun hmem => hfree ⟨hf, hnew ▸ hmem⟩
      have hheld : j ∉ s.held := fun hmem => absurd (hold.symm.trans (h.live j hmem)) (by decide)
      rw [StringTable.lockCount_of_not_contains hold, List.count_eq_zero.2 hheld, List.count_eq_zero.2 hbooks]

/-- A lock of somebody else keeps the ledger. -/
theorem Kept.lock (h : s.Kept) (hfull : s.table.Unsaturated) (i : Word) : (s.act (.lock i)).Kept := by
  have hsame := StringTable.sameStrings_lock s.table i
  refine ⟨hsame.aligned h.aligned, fun j hj => ?_, fun j hj => ?_⟩ <;>
    simp only [act, hsame.contains] at *
  · rw [hfull.lockCount_lock, h.balanced j hj]
    by_cases hij : i = j
    · subst hij
      simp only [hj, and_self, if_true, List.count_cons_self]
      omega
    · have hheld : (if s.table.contains i then i :: s.held else s.held).count j = s.held.count j := by
        split
        · exact List.count_cons_of_ne hij
        · rfl
      rw [hheld, if_neg fun h => hij h.1, Nat.add_zero]
  · split at hj
    · rcases List.mem_cons.1 hj with rfl | hj
      · assumption
      · exact h.live j hj
    · exact h.live j hj

/-- A lock that somebody else gives back keeps the ledger. -/
theorem Kept.unlock (h : s.Kept) {i : Word} (hi : i ∈ s.held) : (s.act (.unlock i)).Kept := by
  have hsame := StringTable.sameStrings_unlock s.table i
  refine ⟨hsame.aligned h.aligned, fun j hj => ?_, fun j hj => ?_⟩ <;>
    simp only [act, hsame.contains] at *
  · rw [StringTable.lockCount_unlock, h.balanced j hj, List.count_erase]
    have hpos := List.count_pos_iff.2 hi
    by_cases hij : i = j
    · subst hij
      simp only [if_true, beq_self_eq_true]
      omega
    · simp [hij]
  · exact h.live j (List.mem_of_mem_erase hj)

/-- The table changes no lock count and loses no locked string. -/
theorem Kept.of_counts (h : s.Kept) {t : StringTable} (ht : t.Aligned)
    (hcount : ∀ i, t.lockCount i = s.table.lockCount i)
    (hold : ∀ i, t.contains i = true → s.table.contains i = true)
    (hlocked : ∀ i, s.table.contains i = true → 0 < s.table.lockCount i → t.contains i = true) :
    Kept { s with table := t } := by
  refine ⟨ht, fun i hi => (hcount i).trans (h.balanced i (hold i hi)), fun i hi => ?_⟩
  have hlive := h.live i hi
  have hpos : 0 < s.held.count i := List.count_pos_iff.2 hi
  refine hlocked i hlive ?_
  rw [h.balanced i hlive]
  omega

/-- **One deed.**  Every deed keeps the books, a new string under a word that is in them apart. -/
theorem Kept.act (h : s.Kept) {d : Deed} (hd : s.Permits d)
    (hfree : ∀ b, d = .intern b → ¬ s.Claimed b) : (s.act d).Kept := by
  obtain ⟨hfull, hheld, hroom⟩ := hd
  cases d with
  | store i k w => exact h.store hfull i k w
  | release => exact h.release
  | intern b => exact h.intern (hroom b rfl) (hfree b rfl)
  | lock i => exact h.lock hfull i
  | unlock i => exact h.unlock (hheld i rfl)
  | beginCollection =>
    have hsame := StringTable.sameStrings_beginCollection s.table
    exact h.of_counts (hsame.aligned h.aligned) s.table.lockCount_beginCollection
      (fun i hi => (hsame.contains i).symm.trans hi) fun i hi _ => (hsame.contains i).trans hi
  | mark i =>
    have hsame := StringTable.sameStrings_update s.table i
      (f := fun e => { e with marked := true }) fun _ => rfl
    exact h.of_counts (hsame.aligned h.aligned) (s.table.lockCount_mark i)
      (fun i hi => (hsame.contains i).symm.trans hi) fun i hi _ => (hsame.contains i).trans hi
  | endCollection =>
    exact h.of_counts h.aligned.endCollection.toAligned
      (fun i => (s.table.lockCount_endCollection i).1)
      (fun i => (s.table.lockCount_endCollection i).2.1)
      fun i _ => (s.table.lockCount_endCollection i).2.2

theorem after_concat (s : Ledger) (ds : List Deed) (d : Deed) :
    s.after (ds ++ [d]) = (s.after ds).act d := by
  simp [after]

/-- A run that is permitted is one after its first deed. -/
theorem permits_cons {e : Deed} {ds : List Deed} (he : s.Permits e)
    (hrest : ∀ p d, p ++ [d] <+: ds → ((s.act e).after p).Permits d) :
    ∀ p d, p ++ [d] <+: e :: ds → (s.after p).Permits d := by
  intro p d hp
  cases p with
  | nil =>
    obtain ⟨rfl, -⟩ := List.cons_prefix_cons.1 hp
    exact he
  | cons f p =>
    obtain ⟨rfl, htail⟩ := List.cons_prefix_cons.1 hp
    exact hrest p d htail

/-- **Every run.**  As long as no word in the books is given to a new string, they are kept. -/
theorem Kept.after (h : s.Kept) {ds : List Deed}
    (hrules : ∀ p d, p ++ [d] <+: ds → (s.after p).Permits d)
    (hfree : ∀ p b, p ++ [.intern b] <+: ds → ¬ (s.after p).Claimed b) : (s.after ds).Kept := by
  induction ds using List.reverseRecOn with
  | nil => exact h
  | append_singleton ds d ih =>
    have hkept := ih (fun p e hp => hrules p e (hp.trans (List.prefix_append _ _)))
      fun p b hp => hfree p b (hp.trans (List.prefix_append _ _))
    rw [after_concat]
    refine hkept.act (hrules ds d (List.prefix_refl _)) fun b hb => hfree ds b ?_
    exact hb ▸ List.prefix_refl _

/-- A word in the books that is given to a new string unbalances them. -/
theorem Kept.not_balanced_of_claimed (h : s.Kept) {b : Bytes} (hd : s.Permits (.intern b))
    (hclaimed : s.Claimed b) : ¬ (s.act (.intern b)).Balanced := by
  obtain ⟨hf, hmem⟩ := hclaimed
  have hroom : s.table.slots.size < UInt32.size :=
    Nat.lt_of_le_of_lt (StringTable.size_le_intern s.table b) (hd.2.2 b rfl)
  have hget := h.aligned.get?_intern_new hroom hf s.table.nextIndex
  rw [if_pos rfl] at hget
  intro hbalanced
  have hcount := hbalanced s.table.nextIndex (StringTable.contains_iff.2 ⟨_, hget⟩)
  have hnone : (s.table.intern b).2.lockCount s.table.nextIndex = 0 := by
    rw [StringTable.lockCount, hget]
    rfl
  have hpos := List.count_pos_iff.2 hmem
  simp only [Ledger.act, hnone] at hcount
  omega

/-- Others keep their locks, and a release leaves them only. -/
theorem Kept.locks (h : s.Kept) : (∀ i, s.held.count i ≤ s.table.lockCount i) ∧
    ∀ i, s.table.contains i = true → (s.act .release).table.contains i = true ∧
      (s.act .release).table.lockCount i = s.held.count i := by
  obtain ⟨hsame, hempty, hcount⟩ := s.vars.release_spec s.table
  refine ⟨fun i => ?_, fun i hi => ⟨(hsame.contains i).trans hi, ?_⟩⟩
  · by_cases hi : i ∈ s.held
    · rw [h.balanced i (h.live i hi)]
      exact Nat.le_add_right ..
    · rw [List.count_eq_zero.2 hi]
      exact Nat.zero_le _
  · show (s.vars.release s.table).2.lockCount i = _
    rw [hcount, h.balanced i hi]
    exact Nat.add_sub_cancel ..

/-- **Arrays of strings keep lock counts in step, until a word in them is given to a new string.**
From empty arrays of strings and through any deeds by the rules, the books balance at every point
exactly if no new string is given an index that a cell of an array of strings already holds.  Then no
deed takes away a lock of others, the strings that they locked stay, and after a release the lock
count of every live string is the number of locks that others hold. -/
theorem balanced_iff (hopened : s.Opened) (ds : List Deed)
    (hrules : ∀ p d, p ++ [d] <+: ds → (s.after p).Permits d) :
    ((∀ p, p <+: ds → (s.after p).Balanced) ↔
      ∀ p b, p ++ [.intern b] <+: ds → ¬ (s.after p).Claimed b) ∧
    ((∀ p b, p ++ [.intern b] <+: ds → ¬ (s.after p).Claimed b) → ∀ p, p <+: ds →
      (∀ i ∈ (s.after p).held, (s.after p).table.contains i = true) ∧
      (∀ i, (s.after p).held.count i ≤ (s.after p).table.lockCount i) ∧
      ∀ i, (s.after p).table.contains i = true →
        ((s.after p).act .release).table.contains i = true ∧
        ((s.after p).act .release).table.lockCount i = (s.after p).held.count i) := by
  have hkept : ∀ q, q <+: ds → (∀ p b, p ++ [.intern b] <+: q → ¬ (s.after p).Claimed b) →
      (s.after q).Kept :=
    fun q hq hfree => hopened.toKept.after (fun p d hp => hrules p d (hp.trans hq)) hfree
  refine ⟨⟨fun hbalanced p => ?_, fun hfree p hp =>
    (hkept p hp fun q b hq => hfree q b (hq.trans hp)).balanced⟩, fun hfree p hp => ?_⟩
  · -- the first claimed word already unbalances the books
    induction hn : p.length using Nat.strongRecOn generalizing p with
    | ind n ih =>
      intro b hp hclaimed
      have hbefore : (s.after p).Kept := by
        refine hkept p ((List.prefix_append _ _).trans hp) fun q c hq => ?_
        refine ih q.length ?_ q rfl c (hq.trans ((List.prefix_append _ _).trans hp))
        have hlength := hq.length_le
        rw [List.length_append, List.length_singleton] at hlength
        omega
      refine hbefore.not_balanced_of_claimed (hrules p _ hp) hclaimed ?_
      rw [← after_concat]
      exact hbalanced _ hp
  · have hp := hkept p hp fun q b hq => hfree q b (hq.trans hp)
    exact ⟨hp.live, hp.locks⟩

/-- One array of strings, still empty, and no string. -/
def blankLedger : Ledger := { vars := (Vars.make 0 1).setStringArray 0 true, table := {}, held := [] }

/-- A script stores 0 before there is a string 0, somebody else locks the first string, and the script
stores over its word. -/
def staleDeeds : List Deed := [.store 0 1 0, .intern [97], .lock 0, .store 0 1 7]

/-- The stale word is given to the new string: after the last store the lock of the other holder is
gone. -/
theorem balanced_iff_staleDeeds : blankLedger.Opened ∧
    ¬ (∀ p, p <+: staleDeeds → (blankLedger.after p).Balanced) ∧
    (blankLedger.after staleDeeds).held = [0] ∧ (blankLedger.after staleDeeds).table.lockCount 0 = 0 := by
  have hopened : blankLedger.Opened :=
    ⟨⟨StringTable.aligned_empty, fun i hi => by simp [blankLedger, StringTable.contains, StringTable.get?] at hi,
      fun i hi => absurd hi List.not_mem_nil⟩, by decide +kernel⟩
  have hpermits : ∀ {s : Ledger} {d : Deed}, (∀ e ∈ s.table.entries, e.locks ≠ 0xFFFFFFFF) →
      (∀ i, d ≠ .unlock i) → (∀ b, d = .intern b → (s.table.intern b).2.capacity < UInt32.size) →
      s.Permits d :=
    fun hlocks hno hroom => ⟨fun _ _ he => hlocks _ (StringTable.mem_entries_of_get? he),
      fun i hi => absurd hi (hno i), hroom⟩
  have hrules : ∀ p d, p ++ [d] <+: staleDeeds → (blankLedger.after p).Permits d := by
    refine permits_cons (hpermits (by decide +kernel) (by rintro _ ⟨⟩) (by rintro _ ⟨⟩)) ?_
    refine permits_cons (hpermits (by decide +kernel) (by rintro _ ⟨⟩) ?_) ?_
    · rintro _ ⟨⟩
      decide +kernel
    refine permits_cons (hpermits (by decide +kernel) (by rintro _ ⟨⟩) (by rintro _ ⟨⟩)) ?_
    refine permits_cons (hpermits (by decide +kernel) (by rintro _ ⟨⟩) (by rintro _ ⟨⟩)) ?_
    exact fun p d hp => absurd hp.length_le (by simp)
  have hclaimed : (blankLedger.after [.store 0 1 0]).Claimed [97] := by
    unfold Claimed
    decide +kernel
  exact ⟨hopened, fun hbalanced => (balanced_iff hopened staleDeeds hrules).1.1 hbalanced [.store 0 1 0] [97]
    ⟨[.lock 0, .store 0 1 7], rfl⟩ hclaimed, by decide +kernel, by decide +kernel⟩

end Ledger

end ScriptMachine
