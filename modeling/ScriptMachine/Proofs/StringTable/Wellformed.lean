import ScriptMachine.Proofs.OrdMap
import ScriptMachine.StringTable.Collect

/-!
# The string table leads to its strings and back

`StringTable.Wellformed` ties the three parts of a table together: a slot knows its own index, a
bucket holds exactly the live indices of its hash, and the free set holds exactly the free slots.
A saved table may hold one content twice, so a bucket is not assumed to name a content once; it is
assumed to name equal contents in index order.  Hence what a look-up answers depends on the slots
alone (`find?_eq_some_iff`): it is the least index of the content.

Interning, locking and marking keep a table well-formed, and none of them moves a string.
-/

namespace ScriptMachine.StringTable

/-- The indices of the strings of a hash. -/
def bucket (t : StringTable) (h : Word) : List Word := (t.buckets.find? h).getD []

/-- Slots, buckets and free set agree. -/
structure Aligned (t : StringTable) : Prop where
  size_le : t.slots.size ≤ UInt32.size
  index : ∀ i e, t.get? i = some e → e.index = i
  hashed : ∀ i e, t.get? i = some e → e.hash = hash e.bytes
  mem_bucket : ∀ h i, i ∈ t.bucket h ↔ ∃ e, t.get? i = some e ∧ e.hash = h
  ordered : ∀ h, (t.bucket h).Pairwise fun i j => t.bytes? i = t.bytes? j → i < j
  mem_free : ∀ i, (t.free.find? i).isSome ↔ t.slots[i.toNat]? = some none

/-- Slots, buckets and free set agree, and the last slot is not free. -/
structure Wellformed (t : StringTable) : Prop extends Aligned t where
  tail : t.slots.back? ≠ some none

variable {t : StringTable}

/-- An entry is found in its slot. -/
theorem get?_eq_some_iff {i : Word} {e : StringEntry} :
    t.get? i = some e ↔ t.slots[i.toNat]? = some (some e) := by
  simp [get?, Option.join_eq_some_iff]

/-- The entry of a slot is found under the slot's number. -/
theorem get?_ofNat (hsize : t.slots.size ≤ UInt32.size) {k : Nat} {e : StringEntry}
    (hk : t.slots[k]? = some (some e)) : t.get? (UInt32.ofNat k) = some e := by
  obtain ⟨hlt, -⟩ := Array.getElem?_eq_some_iff.1 hk
  refine get?_eq_some_iff.2 ?_
  rw [UInt32.toNat_ofNat', Nat.mod_eq_of_lt (Nat.lt_of_lt_of_le hlt hsize), hk]

/-- The bytes of a string are those of its entry. -/
theorem bytes?_eq_some_iff {i : Word} {b : Bytes} :
    t.bytes? i = some b ↔ ∃ e, t.get? i = some e ∧ e.bytes = b := by
  simp [bytes?]

/-- An entry is below the number of slots. -/
theorem toNat_lt_of_get? {i : Word} {e : StringEntry} (h : t.get? i = some e) :
    i.toNat < t.slots.size := by
  obtain ⟨hlt, -⟩ := Array.getElem?_eq_some_iff.1 (get?_eq_some_iff.1 h)
  exact hlt

/-- A table without slots is aligned. -/
theorem aligned_empty : Aligned {} where
  size_le := by decide
  index := by simp [get?]
  hashed := by simp [get?]
  mem_bucket := by simp [bucket, get?]
  ordered := by simp [bucket]
  mem_free := by simp

/-- The empty table is well-formed. -/
theorem wellformed_empty : Wellformed {} := ⟨aligned_empty, by simp⟩

/-- A string stands in the bucket of its content. -/
theorem Aligned.mem_bucket_of_bytes? (h : t.Aligned) {i : Word} {b : Bytes}
    (hi : t.bytes? i = some b) : i ∈ t.bucket (hash b) := by
  obtain ⟨e, he, rfl⟩ := bytes?_eq_some_iff.1 hi
  exact (h.mem_bucket _ i).2 ⟨e, he, h.hashed i e he⟩

/-- **Look-ups.**  A look-up answers the least index of a content, whatever the buckets look like. -/
theorem Aligned.find?_eq_some_iff (h : t.Aligned) {b : Bytes} {i : Word} :
    t.find? b (hash b) = some i ↔ t.bytes? i = some b ∧ ∀ j, t.bytes? j = some b → i ≤ j := by
  have sound : ∀ k, t.find? b (hash b) = some k →
      t.bytes? k = some b ∧ ∀ j, t.bytes? j = some b → k ≤ j := by
    intro k hk
    obtain ⟨hp, before, after, hsplit, hbefore⟩ := List.find?_eq_some_iff_append.1 hk
    have hp : t.bytes? k = some b := by simpa using hp
    refine ⟨hp, fun j hj => ?_⟩
    have hmem : j ∈ t.bucket (hash b) := h.mem_bucket_of_bytes? hj
    have hord := h.ordered (hash b)
    rw [show t.bucket (hash b) = before ++ k :: after from hsplit] at hmem hord
    rcases List.mem_append.1 hmem with hm | hm
    · have := hbefore j hm
      simp [hj] at this
    · rcases List.mem_cons.1 hm with rfl | hm
      · exact UInt32.le_refl _
      · have hlt := (List.pairwise_cons.1 (List.pairwise_append.1 hord).2.1).1 j hm
        exact UInt32.le_of_lt (hlt (hp.trans hj.symm))
  refine ⟨sound i, fun ⟨hi, hleast⟩ => ?_⟩
  cases hf : t.find? b (hash b) with
  | none =>
    have hnone := List.find?_eq_none.1 hf i (h.mem_bucket_of_bytes? hi)
    simp [hi] at hnone
  | some k =>
    obtain ⟨hk, hmin⟩ := sound k hf
    rw [UInt32.le_antisymm (hmin i hi) (hleast k hk)]

/-- Bytes that are not found are those of no string. -/
theorem Aligned.find?_eq_none_iff (h : t.Aligned) {b : Bytes} :
    t.find? b (hash b) = none ↔ ∀ i, t.bytes? i ≠ some b := by
  constructor
  · intro hf i hi
    have hnone := List.find?_eq_none.1 hf i (h.mem_bucket_of_bytes? hi)
    simp [hi] at hnone
  · intro hno
    cases hf : t.find? b (hash b) with
    | none => rfl
    | some i => exact absurd (h.find?_eq_some_iff.1 hf).1 (hno i)

/-- A new string takes a free slot, or the one past the end. -/
theorem Aligned.slot_nextIndex (h : t.Aligned) (hroom : t.slots.size < UInt32.size) :
    t.slots[t.nextIndex.toNat]? = some none ∨ t.nextIndex.toNat = t.slots.size := by
  unfold nextIndex
  cases hf : OrdSet.least? t.free with
  | some i => exact .inl ((h.mem_free i).1 (OrdSet.find?_of_least? hf))
  | none =>
    refine .inr ?_
    rw [Option.getD_none, UInt32.toNat_ofNat']
    exact Nat.mod_eq_of_lt hroom

/-- The next index is at most the number of slots. -/
theorem Aligned.nextIndex_le (h : t.Aligned) (hroom : t.slots.size < UInt32.size) :
    t.nextIndex.toNat ≤ t.slots.size := by
  rcases h.slot_nextIndex hroom with hs | hs
  · obtain ⟨hlt, -⟩ := Array.getElem?_eq_some_iff.1 hs
    omega
  · omega

/-- The next index is free. -/
theorem Aligned.get?_nextIndex (h : t.Aligned) (hroom : t.slots.size < UInt32.size) :
    t.get? t.nextIndex = none := by
  rcases h.slot_nextIndex hroom with hs | hs
  · simp [get?, hs]
  · simp [get?, hs]

/-- The entry is placed in the slot, and the others stay. -/
theorem getElem?_place {slots : Array (Option StringEntry)} {i : Nat} {e : StringEntry}
    (h : i ≤ slots.size) (j : Nat) :
    (place slots i e)[j]? = if j = i then some (some e) else slots[j]? := by
  unfold place
  split
  · rw [Array.getElem?_setIfInBounds]
    by_cases hj : i = j
    · subst hj
      simp_all
    · simp [hj, Ne.symm hj]
  · have hi : i = slots.size := by omega
    subst hi
    rw [Array.getElem?_push]

/-- Placing an entry adds a slot at most. -/
theorem size_place {slots : Array (Option StringEntry)} {i : Nat} {e : StringEntry}
    (h : i ≤ slots.size) :
    (place slots i e).size = if i = slots.size then slots.size + 1 else slots.size := by
  unfold place
  split
  · rw [if_neg (by omega), Array.size_setIfInBounds]
  · rw [if_pos (by omega), Array.size_push]

/-- What interning a new content does. -/
theorem intern_new {b : Bytes} (h : t.find? b (hash b) = none) :
    t.intern b = (t.nextIndex, { t with
      slots := place t.slots t.nextIndex.toNat
        { bytes := b, hash := hash b, index := t.nextIndex, locks := 0, marked := t.collecting }
      free := OrdMap.erase t.free t.nextIndex
      buckets := t.buckets.insert (hash b) (t.bucket (hash b) ++ [t.nextIndex]) }) := by
  unfold intern internHashed
  rw [h]
  rfl

/-- What interning a known content does. -/
theorem intern_old {b : Bytes} {i : Word} (h : t.find? b (hash b) = some i) :
    t.intern b = (i, t) := by
  unfold intern internHashed
  rw [h]

/-- After a new content was interned, its index leads to it and every other index where it did. -/
theorem Aligned.get?_intern_new (h : t.Aligned) (hroom : t.slots.size < UInt32.size)
    {b : Bytes} (hb : t.find? b (hash b) = none) (j : Word) :
    (t.intern b).2.get? j = if j = t.nextIndex then
        some ⟨b, hash b, t.nextIndex, 0, t.collecting⟩
      else t.get? j := by
  rw [intern_new hb]
  simp only [get?, getElem?_place (h.nextIndex_le hroom)]
  by_cases hj : j = t.nextIndex
  · simp [hj]
  · rw [if_neg hj, if_neg fun hn => hj (UInt32.toNat_inj.1 hn)]

/-- Interning moves no string. -/
theorem Aligned.get?_intern_of_some (h : t.Aligned) (hroom : t.slots.size < UInt32.size)
    (b : Bytes) {j : Word} {e : StringEntry} (he : t.get? j = some e) :
    (t.intern b).2.get? j = some e := by
  cases hf : t.find? b (hash b) with
  | some i => rw [intern_old hf]; exact he
  | none =>
    rw [h.get?_intern_new hroom hf, if_neg]
    · exact he
    · rintro rfl
      rw [h.get?_nextIndex hroom] at he
      cases he

/-- The index that interning answers leads to the content. -/
theorem Aligned.bytes?_intern (h : t.Aligned) (hroom : t.slots.size < UInt32.size)
    (b : Bytes) : (t.intern b).2.bytes? (t.intern b).1 = some b := by
  cases hf : t.find? b (hash b) with
  | some i =>
    rw [intern_old hf]
    exact (h.find?_eq_some_iff.1 hf).1
  | none =>
    have hget := h.get?_intern_new hroom hf t.nextIndex
    rw [if_pos rfl] at hget
    have hfst : (t.intern b).1 = t.nextIndex := by rw [intern_new hf]
    rw [hfst, bytes?, hget]
    rfl

/-- Interning adds a slot at most. -/
theorem Aligned.size_intern_le (h : t.Aligned) (hroom : t.slots.size < UInt32.size) (b : Bytes) :
    (t.intern b).2.slots.size ≤ t.slots.size + 1 := by
  cases hf : t.find? b (hash b) with
  | some i => rw [intern_old hf]; exact Nat.le_succ _
  | none =>
    rw [intern_new hf]
    simp only [size_place (h.nextIndex_le hroom)]
    split <;> omega

/-- A new string is last in its bucket. -/
theorem bucket_intern_new {b : Bytes} (hb : t.find? b (hash b) = none) (k : Word) :
    (t.intern b).2.bucket k =
      if k = hash b then t.bucket (hash b) ++ [t.nextIndex] else t.bucket k := by
  rw [intern_new hb]
  simp only [bucket, OrdMap.find?_insert, Std.LawfulEqOrd.compare_eq_iff_eq]
  split <;> rfl

section New

variable (h : t.Aligned) (hroom : t.slots.size < UInt32.size)
include h hroom

/-- The index of a new string is in no bucket yet. -/
theorem Aligned.ne_nextIndex_of_mem_bucket {k j : Word} (hj : j ∈ t.bucket k) : j ≠ t.nextIndex := by
  rintro rfl
  obtain ⟨e, he, -⟩ := (h.mem_bucket k _).1 hj
  rw [h.get?_nextIndex hroom] at he
  cases he

variable {b : Bytes} (hb : t.find? b (hash b) = none)
include hb

/-- With a new string, buckets still lead to all entries of their hash. -/
theorem Aligned.mem_bucket_intern_new (k i : Word) :
    i ∈ (t.intern b).2.bucket k ↔ ∃ e, (t.intern b).2.get? i = some e ∧ e.hash = k := by
  rw [bucket_intern_new hb, h.get?_intern_new hroom hb]
  by_cases hi : i = t.nextIndex
  · subst hi
    rw [if_pos rfl]
    by_cases hk : k = hash b
    · simp [hk]
    · rw [if_neg hk]
      refine ⟨fun hm => absurd rfl (h.ne_nextIndex_of_mem_bucket hroom hm), ?_⟩
      rintro ⟨e, he, rfl⟩
      cases he
      exact absurd rfl hk
  · rw [if_neg hi, ← h.mem_bucket k i]
    split
    · rename_i hk
      subst hk
      simp [hi]
    · rfl

/-- With a new string, equal ones still stand in order in their buckets. -/
theorem Aligned.ordered_intern_new (k : Word) : ((t.intern b).2.bucket k).Pairwise fun i j =>
    (t.intern b).2.bytes? i = (t.intern b).2.bytes? j → i < j := by
  have hget := h.get?_intern_new hroom hb
  have hbytes : ∀ {k j}, j ∈ t.bucket k → (t.intern b).2.bytes? j = t.bytes? j := by
    intro k j hj
    rw [bytes?, hget, if_neg (h.ne_nextIndex_of_mem_bucket hroom hj), bytes?]
  have hold : (t.bucket k).Pairwise fun i j =>
      (t.intern b).2.bytes? i = (t.intern b).2.bytes? j → i < j := by
    refine (h.ordered k).imp_of_mem fun {i j} hi hj hij => ?_
    rw [hbytes hi, hbytes hj]
    exact hij
  rw [bucket_intern_new hb]
  split
  · rename_i hk
    subst hk
    refine List.pairwise_append.2 ⟨hold, List.pairwise_singleton _ _, fun i hi j hj heq => ?_⟩
    -- the new content was nowhere before, so no older string equals it
    rw [List.mem_singleton.1 hj, hbytes hi, bytes?, bytes?, hget, if_pos rfl] at heq
    exact absurd heq (h.find?_eq_none_iff.1 hb i)
  · exact hold

/-- With a new string, free indices are those of empty slots. -/
theorem Aligned.mem_free_intern_new (i : Word) :
    ((t.intern b).2.free.find? i).isSome ↔ (t.intern b).2.slots[i.toNat]? = some none := by
  rw [intern_new hb]
  simp only [OrdMap.find?_erase, Std.LawfulEqOrd.compare_eq_iff_eq, getElem?_place (h.nextIndex_le hroom)]
  by_cases hi : i = t.nextIndex
  · simp [hi]
  · rw [if_neg hi, if_neg fun hn => hi (UInt32.toNat_inj.1 hn)]
    exact h.mem_free i

end New

/-- Interning keeps slots, buckets and free set in agreement as long as a new string has a word for
its index. -/
theorem Aligned.intern (h : t.Aligned) (hroom : t.slots.size < UInt32.size) (b : Bytes) :
    (t.intern b).2.Aligned := by
  cases hf : t.find? b (hash b) with
  | some i => rw [intern_old hf]; exact h
  | none =>
    have hget := h.get?_intern_new hroom hf
    refine ⟨?_, fun i e he => ?_, fun i e he => ?_, h.mem_bucket_intern_new hroom hf,
      h.ordered_intern_new hroom hf, h.mem_free_intern_new hroom hf⟩
    · have := h.size_intern_le hroom b
      omega
    · rw [hget] at he
      split at he
      · rename_i hi
        cases he
        exact hi.symm
      · exact h.index i e he
    · rw [hget] at he
      split at he
      · cases he
        rfl
      · exact h.hashed i e he

/-- Interning keeps a table well-formed as long as a new string has a word for its index. -/
theorem Wellformed.intern (h : t.Wellformed) (hroom : t.slots.size < UInt32.size) (b : Bytes) :
    (t.intern b).2.Wellformed := by
  refine ⟨h.toAligned.intern hroom b, ?_⟩
  cases hf : t.find? b (hash b) with
  | some i => rw [intern_old hf]; exact h.tail
  | none =>
    have hle := h.nextIndex_le hroom
    rw [intern_new hf, Array.back?_eq_getElem?]
    simp only [getElem?_place hle, size_place hle]
    split
    · simp_all
    · split
      · simp
      · have := h.tail
        rwa [Array.back?_eq_getElem?] at this

end ScriptMachine.StringTable
