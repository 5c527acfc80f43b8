import ScriptMachine.Proofs.Codec.Varint
import ScriptMachine.Proofs.StringTable.Keeping
import ScriptMachine.StringTable.Codec

/-!
# Saved string tables come back

Reading a table appends slot after slot, and slots, buckets and free set agree after each of them
(`Aligned.append`).  So whatever bytes a table is read from, it is well-formed (`wellformed_of_read`),
and a table that was well-formed when it was written comes back slot by slot, but for the marks, with
the same free slots (`read_write`).  The buckets need not come back in the same order.
-/

namespace ScriptMachine.StringTable

open Reader

variable {t t' : StringTable}

/-- The entry that a slot is read as. -/
def slotEntry (index : Nat) (slot : Option (Bytes × Word)) : Option StringEntry :=
  slot.map fun p => ⟨p.1, hash p.1, UInt32.ofNat index, p.2, false⟩

/-- A slot that is read is the last one. -/
theorem slots_append (t : StringTable) (slot : Option (Bytes × Word)) :
    (t.append slot).slots = t.slots.push (slotEntry t.slots.size slot) := by
  cases slot <;> rfl

/-- The number of slots fits a word. -/
theorem toNat_ofNat_size (hroom : t.slots.size < UInt32.size) :
    (UInt32.ofNat t.slots.size).toNat = t.slots.size := by
  rw [UInt32.toNat_ofNat']
  exact Nat.mod_eq_of_lt hroom

/-- A slot that is read comes behind the others. -/
theorem getElem?_append (hroom : t.slots.size < UInt32.size) (slot : Option (Bytes × Word)) (i : Word) :
    (t.append slot).slots[i.toNat]? =
      if i = UInt32.ofNat t.slots.size then some (slotEntry t.slots.size slot)
      else t.slots[i.toNat]? := by
  rw [slots_append, Array.getElem?_push]
  by_cases hi : i = UInt32.ofNat t.slots.size
  · rw [if_pos hi, if_pos (by rw [hi, toNat_ofNat_size hroom])]
  · rw [if_neg hi, if_neg fun heq => hi (UInt32.toNat_inj.1 (heq.trans (toNat_ofNat_size hroom).symm))]

/-- The entry that is read is found under its index. -/
theorem get?_append (hroom : t.slots.size < UInt32.size) (slot : Option (Bytes × Word)) (i : Word) :
    (t.append slot).get? i =
      if i = UInt32.ofNat t.slots.size then slotEntry t.slots.size slot else t.get? i := by
  rw [get?, getElem?_append hroom]
  split <;> rfl

/-- The index of a string comes before that of the next slot. -/
theorem lt_of_get? (hroom : t.slots.size < UInt32.size) {i : Word} {e : StringEntry}
    (he : t.get? i = some e) : i < UInt32.ofNat t.slots.size := by
  rw [UInt32.lt_iff_toNat_lt, toNat_ofNat_size hroom]
  exact toNat_lt_of_get? he

/-- The entry that is read is last in its bucket. -/
theorem bucket_append (t : StringTable) (slot : Option (Bytes × Word)) (k : Word) :
    (t.append slot).bucket k =
      if ∃ p, slot = some p ∧ hash p.1 = k then t.bucket k ++ [UInt32.ofNat t.slots.size]
      else t.bucket k := by
  cases slot with
  | none => simp [StringTable.append, bucket]
  | some p =>
    simp only [StringTable.append, bucket, OrdMap.find?_insert,
      Std.LawfulEqOrd.compare_eq_iff_eq, Option.some.injEq, exists_eq_left']
    by_cases hk : k = hash p.1
    · simp [hk]
    · rw [if_neg hk, if_neg (fun h => hk h.symm)]

section Append

variable (h : t.Aligned) (hroom : t.slots.size < UInt32.size) (slot : Option (Bytes × Word))
include h hroom

/-- Buckets lead to slots that are there. -/
theorem Aligned.lt_of_mem_bucket {k i : Word} (hi : i ∈ t.bucket k) : i < UInt32.ofNat t.slots.size := by
  obtain ⟨e, he, -⟩ := (h.mem_bucket k i).1 hi
  exact lt_of_get? hroom he

/-- Buckets still lead to all entries of their hash. -/
theorem Aligned.mem_bucket_append (k i : Word) :
    i ∈ (t.append slot).bucket k ↔ ∃ e, (t.append slot).get? i = some e ∧ e.hash = k := by
  rw [bucket_append, get?_append hroom]
  by_cases hi : i = UInt32.ofNat t.slots.size
  · have hnew : (∃ e, slotEntry t.slots.size slot = some e ∧ e.hash = k) ↔
        ∃ p, slot = some p ∧ hash p.1 = k := by
      cases slot <;> simp [slotEntry]
    rw [if_pos hi, hnew]
    split
    · rename_i hk
      exact ⟨fun _ => hk, fun _ => by simp [hi]⟩
    · rename_i hk
      exact ⟨fun hm => absurd hi (UInt32.ne_of_lt (h.lt_of_mem_bucket hroom hm)), fun hp => absurd hp hk⟩
  · rw [if_neg hi, ← h.mem_bucket k i]
    split
    · simp [hi]
    · rfl

/-- Equal contents stay in index order, as a new slot comes after all others. -/
theorem Aligned.ordered_append (k : Word) : ((t.append slot).bucket k).Pairwise fun i j =>
    (t.append slot).bytes? i = (t.append slot).bytes? j → i < j := by
  have hbytes : ∀ {i}, i ∈ t.bucket k → (t.append slot).bytes? i = t.bytes? i := by
    intro i hi
    rw [bytes?, get?_append hroom, if_neg (UInt32.ne_of_lt (h.lt_of_mem_bucket hroom hi)), bytes?]
  have hold : (t.bucket k).Pairwise fun i j =>
      (t.append slot).bytes? i = (t.append slot).bytes? j → i < j := by
    refine (h.ordered k).imp_of_mem fun {i j} hi hj hij => ?_
    rw [hbytes hi, hbytes hj]
    exact hij
  rw [bucket_append]
  split
  · refine List.pairwise_append.2 ⟨hold, List.pairwise_singleton _ _, fun i hi j hj _ => ?_⟩
    rw [List.mem_singleton.1 hj]
    exact h.lt_of_mem_bucket hroom hi
  · exact hold

/-- Free indices are those of empty slots. -/
theorem Aligned.mem_free_append (i : Word) :
    ((t.append slot).free.find? i).isSome ↔ (t.append slot).slots[i.toNat]? = some none := by
  rw [getElem?_append hroom]
  by_cases hi : i = UInt32.ofNat t.slots.size
  · have hold : t.free.find? i = none := by
      have hno : ¬ (t.free.find? i).isSome := by simp [h.mem_free, hi, toNat_ofNat_size hroom]
      simpa using hno
    rw [if_pos hi]
    cases slot with
    | none => simp [StringTable.append, slotEntry, hi]
    | some p => simp [StringTable.append, slotEntry, hold]
  · rw [if_neg hi, ← h.mem_free i]
    cases slot with
    | none => simp [StringTable.append, hi]
    | some p => rfl

/-- A slot that is added keeps slots, buckets and free set in agreement. -/
theorem Aligned.append : (t.append slot).Aligned where
  size_le := by
    rw [slots_append, Array.size_push]
    exact hroom
  index i e he := by
    rw [get?_append hroom] at he
    split at he
    · rename_i hi
      obtain ⟨p, -, rfl⟩ := Option.map_eq_some_iff.1 he
      exact hi.symm
    · exact h.index i e he
  hashed i e he := by
    rw [get?_append hroom] at he
    split at he
    · obtain ⟨p, -, rfl⟩ := Option.map_eq_some_iff.1 he
      rfl
    · exact h.hashed i e he
  mem_bucket := h.mem_bucket_append hroom slot
  ordered := h.ordered_append hroom slot
  mem_free := h.mem_free_append hroom slot

end Append

/-- Reading slots appends those that could be read. -/
theorem exists_readSlots {n : Nat} {s : Bytes} {r : Except ReadError Bytes}
    (h : readSlots n t s = (t', r)) :
    ∃ slots : List (Option (Bytes × Word)), t' = slots.foldl append t ∧
      t.slots.size + slots.length ≤ max t.slots.size UInt32.size := by
  induction n generalizing t s with
  | zero =>
    cases h
    exact ⟨[], rfl, by simp only [List.length_nil]; omega⟩
  | succ n ih =>
    rw [readSlots] at h
    split at h
    · cases h
      exact ⟨[], rfl, by simp only [List.length_nil]; omega⟩
    · rename_i slot rest' hslot
      obtain ⟨slots, rfl, hsize⟩ := ih h
      have hlt : t.slots.size < UInt32.size := by
        unfold readSlot at hslot
        by_cases hfull : UInt32.size ≤ t.slots.size
        · rw [if_pos hfull] at hslot
          cases hslot
        · omega
      refine ⟨slot :: slots, rfl, ?_⟩
      rw [slots_append, Array.size_push] at hsize
      simp only [List.length_cons]
      omega

/-- A table stays aligned as slots are read. -/
theorem Aligned.foldl_append (h : t.Aligned) {slots : List (Option (Bytes × Word))}
    (hroom : t.slots.size + slots.length ≤ UInt32.size) : (slots.foldl StringTable.append t).Aligned := by
  induction slots generalizing t with
  | nil => exact h
  | cons slot slots ih =>
    simp only [List.length_cons] at hroom
    refine ih (h.append (by omega) slot) ?_
    rw [slots_append, Array.size_push]
    omega

/-- What is read is aligned. -/
theorem aligned_readSlots (n : Nat) (s : Bytes) : (readSlots n {} s).1.Aligned := by
  have hread : readSlots n {} s = ((readSlots n {} s).1, (readSlots n {} s).2) := rfl
  obtain ⟨slots, heq, hsize⟩ := exists_readSlots hread
  rw [heq]
  exact aligned_empty.foldl_append (by simpa using hsize)

/-- **Whatever is read**, and wherever reading fails: slots, buckets and free set agree. -/
theorem aligned_read (s : Bytes) : (read s).1.Aligned := by
  unfold read
  split
  · exact aligned_empty
  · rename_i n rest _
    have haligned := aligned_readSlots n rest
    split
    · rename_i hslots
      rwa [hslots] at haligned
    · rename_i hslots
      rw [hslots] at haligned
      split <;> exact haligned

/-- A table that could be read to its end is well-formed. -/
theorem wellformed_of_read {s rest : Bytes} (h : read s = (t, .ok rest)) : t.Wellformed := by
  have haligned := aligned_read s
  rw [h] at haligned
  refine ⟨haligned, ?_⟩
  unfold read at h
  split at h
  · cases h
  · split at h
    · cases h
    · split at h
      · cases h
      · rename_i htail
        cases h
        exact htail

/-- An entry without its mark. -/
def unmark (e : StringEntry) : StringEntry := { e with marked := false }

/-- What is written of a slot. -/
def slotData (s : Option StringEntry) : Option (Bytes × Word) := s.map fun e => (e.bytes, e.locks)

/-- The slots are those that were read, in their order. -/
theorem slots_foldl_append (t : StringTable) (slots : List (Option (Bytes × Word))) :
    (slots.foldl append t).slots.toList =
      t.slots.toList ++ slots.mapIdx fun k s => slotEntry (t.slots.size + k) s := by
  induction slots generalizing t with
  | nil => simp
  | cons slot slots ih =>
    rw [List.foldl_cons, ih, slots_append]
    simp [List.mapIdx_cons, Nat.add_assoc, Nat.add_comm 1]

/-- What a table is read as from its own bytes. -/
def reread (t : StringTable) : StringTable := (t.slots.toList.map slotData).foldl append {}

/-- The strings of a table fit the format. -/
def Sized (t : StringTable) : Prop := ∀ e ∈ t.entries, e.bytes.length < 2 ^ 64

instance (t : StringTable) : Decidable t.Sized := List.decidableBAll _ _

/-- A slot is read back. -/
theorem reads_slot {s : Option StringEntry} (h : ∀ e, s = some e → e.bytes.length < 2 ^ 64)
    {index : Nat} (hindex : index < UInt32.size) :
    Reads (readSlot index) (writeSlot s) (slotData s) := by
  intro rest
  have hbool := fun b rest => reads_bool b rest
  cases s with
  | none =>
    simp only [readSlot, writeSlot, bind_apply, if_neg (Nat.not_le.2 hindex), hbool]
    rfl
  | some e =>
    have hbytes := fun rest => reads_string (h e rfl) rest
    have hlocks := fun rest => Varint.reads_writeWord e.locks rest
    simp only [readSlot, writeSlot, List.append_assoc, bind_apply, if_neg (Nat.not_le.2 hindex),
      hbool, if_true]
    simp only [hbytes, hlocks]
    rfl

/-- The slots of a table are read back. -/
theorem readSlots_write (slots : List (Option StringEntry)) (t : StringTable) (rest : Bytes)
    (h : ∀ e, some e ∈ slots → e.bytes.length < 2 ^ 64)
    (hroom : t.slots.size + slots.length ≤ UInt32.size) :
    readSlots slots.length t (slots.flatMap writeSlot ++ rest) =
      ((slots.map slotData).foldl append t, .ok rest) := by
  induction slots generalizing t with
  | nil => rfl
  | cons s slots ih =>
    simp only [List.length_cons] at hroom
    have hslot : Reads (readSlot t.slots.size) (writeSlot s) (slotData s) :=
      reads_slot (fun e he => h e (by simp [he])) (by omega)
    have hrest := ih (t.append (slotData s)) (fun e he => h e (List.mem_cons_of_mem _ he))
      (by rw [slots_append, Array.size_push]; omega)
    rw [List.flatMap_cons, List.append_assoc, List.length_cons, readSlots, hslot _]
    exact hrest

/-- Reading a table back takes the marks away. -/
theorem reread_slots (h : t.Wellformed) : t.reread.slots = t.slots.map (Option.map unmark) := by
  apply Array.ext_getElem?
  intro k
  rw [← Array.getElem?_toList, reread, slots_foldl_append]
  simp only [List.nil_append, List.getElem?_mapIdx, List.getElem?_map, Array.getElem?_map,
    Array.getElem?_toList]
  cases hk : t.slots[k]? with
  | none => rfl
  | some s =>
    cases s with
    | none => rfl
    | some e =>
      -- the index and hash of an entry are those its slot is read with
      have hget := get?_ofNat h.size_le hk
      have hindex := h.index _ e hget
      have hhash := h.hashed _ e hget
      simp [slotData, slotEntry, unmark, ← hindex, ← hhash]

/-- A table that is read back is aligned. -/
theorem aligned_reread (h : t.Wellformed) : t.reread.Aligned :=
  aligned_empty.foldl_append (by simpa using h.size_le)

/-- The free slots come back. -/
theorem reread_free (h : t.Wellformed) : t.reread.free = t.free := by
  apply OrdMap.ext_find?
  intro i
  have hiff : (t.reread.free.find? i).isSome ↔ (t.free.find? i).isSome := by
    rw [(aligned_reread h).mem_free, h.mem_free, reread_slots h, Array.getElem?_map]
    cases t.slots[i.toNat]? with
    | none => simp
    | some s => cases s <;> simp
  cases hl : t.reread.free.find? i <;> cases hr : t.free.find? i <;> simp_all

/-- **Saved tables come back.** -/
theorem read_write (h : t.Wellformed) (hsized : t.Sized) (rest : Bytes) :
    read (t.write ++ rest) = (t.reread, .ok rest) := by
  have hlen : t.slots.toList.length < 2 ^ 64 := by
    have hle := h.size_le
    simp only [UInt32.size, Array.length_toList] at hle ⊢
    omega
  have hcount := Varint.reads_size hlen (t.slots.toList.flatMap writeSlot ++ rest)
  have hslots := readSlots_write t.slots.toList {} rest
    (fun e he => hsized e (by simpa [entries] using he)) (by simpa using h.size_le)
  have htail : t.reread.slots.back? ≠ some none := by
    have htail := h.tail
    rw [Array.back?_eq_getElem?] at htail ⊢
    rw [reread_slots h, Array.size_map, Array.getElem?_map]
    intro heq
    obtain ⟨s, hs, hnone⟩ := Option.map_eq_some_iff.1 heq
    cases s with
    | none => exact htail hs
    | some e => cases hnone
  rw [read, write, Writer.list, List.append_assoc, hcount]
  simp only [hslots]
  exact if_neg htail

/-! ## Lock counts that are set back -/

/-- The strings of two tables agree in everything but their marks, and the same slots are free. -/
structure Alike (t u : StringTable) : Prop where
  slots : u.slots.map (Option.map unmark) = t.slots.map (Option.map unmark)
  free : u.free = t.free

/-- A table that is read back is like the one that was written. -/
theorem alike_reread (h : t.Wellformed) : Alike t t.reread where
  slots := by
    rw [reread_slots h, Array.map_map]
    congr 1
    funext s
    cases s <;> rfl
  free := reread_free h

namespace Alike

variable {u v : StringTable}

theorem trans (h : Alike t u) (h' : Alike u v) : Alike t v :=
  ⟨h'.slots.trans h.slots, h'.free.trans h.free⟩

/-- Alike tables have the same entries, but for marks. -/
theorem get? (h : Alike t u) (i : Word) : (u.get? i).map unmark = (t.get? i).map unmark := by
  have hi := congrArg (fun s => s[i.toNat]?) h.slots
  simp only [Array.getElem?_map] at hi
  rw [StringTable.get?, StringTable.get?]
  revert hi
  cases u.slots[i.toNat]? with
  | none => cases t.slots[i.toNat]? <;> simp
  | some s => cases t.slots[i.toNat]? <;> simp

/-- Alike tables have the same contents. -/
theorem bytes? (h : Alike t u) (i : Word) : u.bytes? i = t.bytes? i := by
  have hi := congrArg (Option.map StringEntry.bytes) (h.get? i)
  simpa [StringTable.bytes?, Function.comp_def, unmark] using hi

/-- Look-ups do not see marks, nor the order in buckets. -/
theorem find? (h : Alike t u) (ht : t.Wellformed) (hu : u.Wellformed) (b : Bytes) :
    u.find? b (hash b) = t.find? b (hash b) := by
  apply Option.ext
  intro i
  rw [hu.find?_eq_some_iff, ht.find?_eq_some_iff]
  simp only [h.bytes?]

/-- A table keeps the strings of one that is like it. -/
theorem keeps {kept : Word → Prop} (h : Alike t u) (hu : u.Wellformed) : Keeps kept t u where
  wellformed _ := hu
  found ht b _ _ hb := (h.find? ht hu b).trans hb

end Alike

/-- A lock count is set back if it is among the counts, which say nothing else of the string. -/
theorem locks_restoreLocks {u : StringTable} {counts : List (Word × Word)} {i n : Word}
    {f : StringEntry} (hcounts : ∀ p ∈ counts, p.1 = i → p.2 = n) (hf : u.get? i = some f)
    (h : f.locks = n ∨ ∃ p ∈ counts, p.1 = i) :
    ∃ f', (u.restoreLocks counts).get? i = some f' ∧ f'.locks = n := by
  induction counts generalizing u f with
  | nil =>
    rcases h with h | ⟨p, hp, -⟩
    · exact ⟨f, hf, h⟩
    · cases hp
  | cons p counts ih =>
    have hupdate : (u.update p.1 fun e => { e with locks := p.2 }).get? i =
        some (if p.1 = i then { f with locks := p.2 } else f) := by
      rw [get?_eq_some_iff] at hf ⊢
      simp only [update, Array.getElem?_modify, hf, UInt32.toNat_inj]
      split <;> rfl
    refine ih (fun q hq => hcounts q (List.mem_cons_of_mem _ hq)) hupdate ?_
    split
    · rename_i hi
      exact .inl (hcounts p List.mem_cons_self hi)
    · rename_i hi
      refine h.imp_right ?_
      rintro ⟨q, hq, hqi⟩
      rcases List.mem_cons.1 hq with rfl | hq
      · exact absurd hqi hi
      · exact ⟨q, hq, hqi⟩

/-- **Restoring locks** undoes whatever was locked in between. -/
theorem alike_restoreLocks {u : StringTable} (h : t.Wellformed) (hsame : SameStrings t u) :
    Alike t (u.restoreLocks t.lockCounts) := by
  have hall := hsame.trans (sameStrings_restoreLocks u t.lockCounts)
  refine ⟨?_, hall.free⟩
  apply Array.ext_getElem?
  intro k
  have hkey := hall.getElem? k
  simp only [Array.getElem?_map]
  cases hk : t.slots[k]? with
  | none =>
    rw [hk] at hkey
    simp only [Option.map_none, Option.map_eq_none_iff] at hkey ⊢
    exact hkey
  | some s =>
    obtain ⟨s', hs', hss⟩ : ∃ s', (u.restoreLocks t.lockCounts).slots[k]? = some s' ∧
        s'.map key = s.map key := by
      rw [hk] at hkey
      exact Option.map_eq_some_iff.1 hkey
    rw [hs']
    cases s with
    | none =>
      cases s' with
      | none => rfl
      | some f => cases hss
    | some e =>
      cases s' with
      | none => cases hss
      | some f =>
        have hget := get?_ofNat h.size_le hk
        have hget' := get?_ofNat (hall.wellformed h).size_le hs'
        obtain ⟨g, hg, -⟩ := hsame.symm.exists_get? hget
        have hcounts : ∀ p ∈ t.lockCounts, p.1 = UInt32.ofNat k → p.2 = e.locks := by
          intro p hp hpk
          obtain ⟨d, hd, rfl⟩ := List.mem_map.1 hp
          obtain ⟨i, hi⟩ := h.mem_entries.1 hd
          have hik : i = UInt32.ofNat k := (h.index i d hi).symm.trans hpk
          cases (hik ▸ hi).symm.trans hget
          rfl
        have hmem : ∃ p ∈ t.lockCounts, p.1 = UInt32.ofNat k :=
          ⟨(e.index, e.locks), List.mem_map.2 ⟨e, h.mem_entries.2 ⟨_, hget⟩, rfl⟩,
            h.index _ e hget⟩
        obtain ⟨f', hf', hlocks⟩ := locks_restoreLocks hcounts hg (.inr hmem)
        cases hget'.symm.trans hf'
        have hfe : key f = key e := Option.some.inj hss
        have hunmark : unmark f = unmark e := by
          obtain ⟨b, hash, index, locks, marked⟩ := f
          obtain ⟨b', hash', index', locks', marked'⟩ := e
          simp only [key, Prod.mk.injEq] at hfe
          simp only [unmark, StringEntry.mk.injEq]
          exact ⟨hfe.1, hfe.2.1, hfe.2.2, hlocks, trivial⟩
        rw [Option.map_some, Option.map_some, Option.map_some, Option.map_some, hunmark]

end ScriptMachine.StringTable
