import ScriptMachine.Proofs.StringTable.Wellformed

/-!
# Locks, marks and collections

Locking, unlocking, marking and setting lock counts back all leave the contents, hashes and indices
of the strings alone (`SameStrings`), and with them everything a look-up can see.  A collection
removes strings and moves none: afterwards an index leads to its string exactly if it did before and
the string was locked or marked (`get?_endCollection`).
-/

namespace ScriptMachine.StringTable

/-- What identifies a string: its content, its hash and its index. -/
def key (e : StringEntry) : Bytes × Word × Word := (e.bytes, e.hash, e.index)

/-- Two tables differ at most in lock counts and marks. -/
structure SameStrings (t u : StringTable) : Prop where
  buckets : u.buckets = t.buckets
  free : u.free = t.free
  slots : u.slots.map (Option.map key) = t.slots.map (Option.map key)

/-- Slots that hold the same string, or none, are alike. -/
theorem slot_alike {s s' : Option (Option StringEntry)}
    (h : s.map (Option.map key) = s'.map (Option.map key)) :
    s.join.map key = s'.join.map key ∧ (s = some none ↔ s' = some none) := by
  rcases s with _ | _ | e <;> rcases s' with _ | _ | e' <;> simp_all

namespace SameStrings

variable {t u v : StringTable}

theorem refl (t : StringTable) : SameStrings t t := ⟨rfl, rfl, rfl⟩

theorem trans (h : SameStrings t u) (h' : SameStrings u v) : SameStrings t v :=
  ⟨h'.buckets.trans h.buckets, h'.free.trans h.free, h'.slots.trans h.slots⟩

/-- The same strings are in as many slots. -/
theorem size_eq (h : SameStrings t u) : u.slots.size = t.slots.size := by
  simpa using congrArg Array.size h.slots

/-- Slots hold the same strings. -/
theorem getElem? (h : SameStrings t u) (i : Nat) :
    (u.slots[i]?).map (Option.map key) = (t.slots[i]?).map (Option.map key) := by
  simpa using congrArg (fun s => s[i]?) h.slots

/-- Indices lead to the same strings. -/
theorem get? (h : SameStrings t u) (i : Word) : (u.get? i).map key = (t.get? i).map key :=
  (slot_alike (h.getElem? i.toNat)).1

/-- The contents are the same. -/
theorem bytes? (h : SameStrings t u) (i : Word) : u.bytes? i = t.bytes? i := by
  have := congrArg (Option.map Prod.fst) (h.get? i)
  simpa [StringTable.bytes?, key, Function.comp_def] using this

/-- The same strings are found. -/
theorem find? (h : SameStrings t u) (b : Bytes) (k : Word) : u.find? b k = t.find? b k := by
  simp only [StringTable.find?, h.buckets, h.bytes?]

/-- An entry of one table is an entry of the other, up to lock count and mark. -/
theorem exists_get? (h : SameStrings t u) {i : Word} {e : StringEntry} (he : u.get? i = some e) :
    ∃ f, t.get? i = some f ∧ key f = key e := by
  have hkey := h.get? i
  rw [he] at hkey
  cases hf : t.get? i with
  | none => simp [hf] at hkey
  | some f => exact ⟨f, rfl, by simpa [hf] using hkey.symm⟩

theorem symm (h : SameStrings t u) : SameStrings u t := ⟨h.buckets.symm, h.free.symm, h.slots.symm⟩

/-- Whether slots, buckets and free set agree does not depend on lock counts and marks. -/
theorem aligned (h : SameStrings t u) (ht : t.Aligned) : u.Aligned where
  size_le := h.size_eq ▸ ht.size_le
  index i e he := by
    obtain ⟨f, hf, hkey⟩ := h.exists_get? he
    have : f.index = e.index := congrArg (fun k => k.2.2) hkey
    exact this ▸ ht.index i f hf
  hashed i e he := by
    obtain ⟨f, hf, hkey⟩ := h.exists_get? he
    have hhash : f.hash = e.hash := congrArg (fun k => k.2.1) hkey
    have hbytes : f.bytes = e.bytes := congrArg (fun k => k.1) hkey
    exact hhash ▸ hbytes ▸ ht.hashed i f hf
  mem_bucket k i := by
    rw [show u.bucket k = t.bucket k by simp [bucket, h.buckets], ht.mem_bucket]
    constructor
    · rintro ⟨e, he, rfl⟩
      obtain ⟨f, hf, hkey⟩ := h.symm.exists_get? he
      exact ⟨f, hf, congrArg (fun k => k.2.1) hkey⟩
    · rintro ⟨e, he, rfl⟩
      obtain ⟨f, hf, hkey⟩ := h.exists_get? he
      exact ⟨f, hf, congrArg (fun k => k.2.1) hkey⟩
  ordered k := by
    rw [show u.bucket k = t.bucket k by simp [bucket, h.buckets]]
    simpa only [h.bytes?] using ht.ordered k
  mem_free i := by
    rw [h.free, ht.mem_free]
    exact (slot_alike (h.getElem? i.toNat)).2.symm

/-- Well-formedness does not depend on lock counts and marks. -/
theorem wellformed (h : SameStrings t u) (ht : t.Wellformed) : u.Wellformed where
  toAligned := h.aligned ht.toAligned
  tail := by
    have htail := ht.tail
    rw [Array.back?_eq_getElem?] at htail ⊢
    rw [h.size_eq]
    exact fun hu => htail ((slot_alike (h.getElem? _)).2.1 hu)

end SameStrings

variable {t : StringTable}

/-- One entry changes and the others stay. -/
theorem get?_update (t : StringTable) (i j : Word) (f : StringEntry → StringEntry) :
    (t.update i f).get? j = if i = j then (t.get? j).map f else t.get? j := by
  simp only [get?, update, Array.getElem?_modify, UInt32.toNat_inj]
  split
  · rcases t.slots[j.toNat]? with _ | _ | e <;> rfl
  · rfl

/-- A change that identifies the same string leaves the strings alone. -/
theorem sameStrings_update (t : StringTable) (i : Word) {f : StringEntry → StringEntry}
    (h : ∀ e, key (f e) = key e) : SameStrings t (t.update i f) := by
  refine ⟨rfl, rfl, ?_⟩
  apply Array.ext_getElem?
  intro j
  simp only [update, Array.getElem?_map, Array.getElem?_modify]
  split
  · rcases t.slots[j]? with _ | _ | e <;> simp [h]
  · rfl

theorem sameStrings_lock (t : StringTable) (i : Word) : SameStrings t (t.lock i) :=
  sameStrings_update t i fun _ => rfl

theorem sameStrings_unlock (t : StringTable) (i : Word) : SameStrings t (t.unlock i) :=
  sameStrings_update t i fun _ => rfl

/-- Steps that leave the strings alone, one after another. -/
theorem sameStrings_foldl {α : Type} {f : StringTable → α → StringTable}
    (h : ∀ t a, SameStrings t (f t a)) (as : List α) (t : StringTable) :
    SameStrings t (as.foldl f t) := by
  induction as generalizing t with
  | nil => exact .refl t
  | cons a as ih => exact (h t a).trans (ih _)

theorem sameStrings_unlockAll (t : StringTable) (is : List Word) : SameStrings t (t.unlockAll is) :=
  sameStrings_foldl sameStrings_unlock is t

theorem sameStrings_markAll (t : StringTable) (is : List Word) : SameStrings t (t.markAll is) :=
  sameStrings_foldl (f := mark) (fun t i => sameStrings_update t i fun _ => rfl) is t

theorem sameStrings_restoreLocks (t : StringTable) (counts : List (Word × Word)) :
    SameStrings t (t.restoreLocks counts) := by
  apply sameStrings_foldl
  rintro t ⟨i, n⟩
  exact sameStrings_update t i fun _ => rfl

theorem sameStrings_beginCollection (t : StringTable) : SameStrings t t.beginCollection := by
  refine ⟨rfl, rfl, ?_⟩
  rw [beginCollection, Array.map_map]
  congr 1
  funext s
  cases s <;> rfl

/-- The strings of a table are what its indices lead to. -/
theorem Aligned.mem_entries (h : t.Aligned) {e : StringEntry} :
    e ∈ t.entries ↔ ∃ i, t.get? i = some e := by
  simp only [entries, List.mem_filterMap, id, exists_eq_right, Array.mem_toList_iff,
    Array.mem_iff_getElem?]
  constructor
  · rintro ⟨i, hi⟩
    exact ⟨UInt32.ofNat i, get?_ofNat h.size_le hi⟩
  · rintro ⟨i, hi⟩
    exact ⟨i.toNat, get?_eq_some_iff.1 hi⟩

/-- Dropping one string from the buckets. -/
theorem getD_find?_dropFromBucket (bs : OrdMap Word (List Word)) (e : StringEntry) (k : Word) :
    ((dropFromBucket bs e).find? k).getD [] =
      if k = e.hash then ((bs.find? k).getD []).filter (· != e.index)
      else (bs.find? k).getD [] := by
  unfold dropFromBucket
  by_cases hk : k = e.hash
  · subst hk
    rw [if_pos rfl]
    cases hb : bs.find? e.hash with
    | none => simp [hb]
    | some is =>
      simp only [Option.getD_some]
      cases hf : is.filter (· != e.index) with
      | nil => simp
      | cons j js => simp
  · rw [if_neg hk]
    split
    · rfl
    · split <;> simp [hk]

/-- Dropping several strings from the buckets. -/
theorem mem_foldl_dropFromBucket (es : List StringEntry) (bs : OrdMap Word (List Word)) (k : Word) :
    ((es.foldl dropFromBucket bs).find? k).getD [] =
      ((bs.find? k).getD []).filter fun i => es.all fun e => k != e.hash || i != e.index := by
  induction es generalizing bs with
  | nil => exact (List.filter_eq_self.2 fun _ _ => rfl).symm
  | cons e es ih =>
    rw [List.foldl_cons, ih, getD_find?_dropFromBucket]
    by_cases hk : k = e.hash
    · rw [if_pos hk, List.filter_filter]
      simp only [hk, List.all_cons, bne_self_eq_false, Bool.false_or, Bool.and_comm]
    · rw [if_neg hk]
      have hne : (k != e.hash) = true := by simpa using hk
      simp only [List.all_cons, hne, Bool.true_or, Bool.true_and]

/-- What is in the set after the indices of entries were added. -/
theorem find?_foldl_add (es : List StringEntry) (s : OrdSet Word) (i : Word) :
    ((es.foldl (fun f e => OrdSet.add f e.index) s).find? i).isSome ↔
      (s.find? i).isSome ∨ ∃ e ∈ es, e.index = i := by
  induction es generalizing s with
  | nil => simp
  | cons e es ih =>
    rw [List.foldl_cons, ih]
    by_cases hi : i = e.index
    · simp [hi]
    · simp [hi, Ne.symm hi]

/-- What is in the set after indices were taken out. -/
theorem find?_foldl_erase (is : List Word) (s : OrdSet Word) (i : Word) :
    ((is.foldl OrdMap.erase s).find? i).isSome ↔ (s.find? i).isSome ∧ i ∉ is := by
  induction is generalizing s with
  | nil => simp
  | cons j is ih =>
    rw [List.foldl_cons, ih]
    by_cases hi : i = j
    · simp [hi]
    · simp [hi]

/-- What is trimmed away is free. -/
theorem trim_append (slots : List (Option StringEntry)) :
    ∃ n, slots = trim slots ++ List.replicate n none := by
  refine ⟨(slots.reverse.takeWhile Option.isNone).length, ?_⟩
  have hnone : slots.reverse.takeWhile Option.isNone =
      List.replicate (slots.reverse.takeWhile Option.isNone).length none := by
    refine List.eq_replicate_iff.2 ⟨rfl, fun s hs => ?_⟩
    have hall := List.all_eq_true.1 (List.all_takeWhile (p := Option.isNone)) s hs
    simpa using hall
  have hsplit := congrArg List.reverse (List.takeWhile_append_dropWhile (p := Option.isNone)
    (l := slots.reverse))
  rw [List.reverse_append, List.reverse_reverse, hnone, List.reverse_replicate] at hsplit
  exact hsplit.symm

/-- The last slot is in use after trimming. -/
theorem getLast?_trim (slots : List (Option StringEntry)) : (trim slots).getLast? ≠ some none := by
  rw [trim, List.getLast?_reverse]
  intro h
  have := List.head?_dropWhile_not Option.isNone slots.reverse
  rw [h] at this
  simp at this

/-- The slots after a collection. -/
theorem exists_slots_endCollection (t : StringTable) :
    ∃ n, t.slots.toList.map (fun s => s.filter fun e => !dead e) =
      t.endCollection.2.slots.toList ++ List.replicate n none := by
  obtain ⟨n, hn⟩ := trim_append (t.slots.map fun s => s.filter fun e => !dead e).toList
  exact ⟨n, by simpa [endCollection] using hn⟩

/-- A collection takes away the entries that are neither marked nor locked. -/
theorem getElem?_endCollection (t : StringTable) (i : Nat) :
    (t.endCollection.2.slots[i]?).join = ((t.slots[i]?).join).filter fun e => !dead e := by
  obtain ⟨n, hn⟩ := exists_slots_endCollection t
  have hslot := congrArg (fun l => (l[i]?).join) hn
  simp only [List.getElem?_map, Array.getElem?_toList] at hslot
  have hleft : ((t.slots[i]?).map fun s => s.filter fun e => !dead e).join =
      ((t.slots[i]?).join).filter fun e => !dead e := by
    cases t.slots[i]? <;> rfl
  rw [← hleft, hslot, List.getElem?_append]
  split
  · rw [Array.getElem?_toList]
  · rename_i hge
    have hnone : t.endCollection.2.slots[i]? = none := by
      rw [Array.getElem?_eq_none_iff]
      simpa using hge
    rw [hnone, List.getElem?_replicate]
    split <;> rfl

/-- **Collections.**  After a collection an index leads to its string exactly if it did before and
the string was locked or marked. -/
theorem get?_endCollection (t : StringTable) (i : Word) :
    t.endCollection.2.get? i = (t.get? i).filter fun e => !dead e :=
  getElem?_endCollection t i.toNat

/-- A collection adds no slots. -/
theorem size_endCollection_le (t : StringTable) : t.endCollection.2.slots.size ≤ t.slots.size := by
  obtain ⟨n, hn⟩ := exists_slots_endCollection t
  have := congrArg List.length hn
  simp at this
  omega

/-- A string that is left has the contents it had. -/
theorem bytes?_endCollection_of_some {i : Word} {b : Bytes}
    (h : t.endCollection.2.bytes? i = some b) : t.bytes? i = some b := by
  rw [bytes?, get?_endCollection] at h
  obtain ⟨e, he, rfl⟩ := Option.map_eq_some_iff.1 h
  rw [bytes?, (Option.filter_eq_some_iff.1 he).1]
  rfl

/-- A slot is free if it is there and its index leads nowhere. -/
theorem getElem?_eq_some_none_iff {i : Word} :
    t.slots[i.toNat]? = some none ↔ i.toNat < t.slots.size ∧ t.get? i = none := by
  rw [get?]
  by_cases hlt : i.toNat < t.slots.size
  · rw [Array.getElem?_eq_getElem hlt]
    simp [hlt]
  · rw [Array.getElem?_eq_none (Nat.le_of_not_lt hlt)]
    simp [hlt]

/-- The indices that a collection frees are those of the strings that are dead. -/
theorem Aligned.exists_freed_iff (h : t.Aligned) {i : Word} :
    (∃ e ∈ t.entries.filter dead, e.index = i) ↔ ∃ e, t.get? i = some e ∧ dead e = true := by
  constructor
  · rintro ⟨e, he, rfl⟩
    obtain ⟨hmem, hdead⟩ := List.mem_filter.1 he
    obtain ⟨j, hj⟩ := h.mem_entries.1 hmem
    exact ⟨e, by rw [h.index j e hj, hj], hdead⟩
  · rintro ⟨e, he, hdead⟩
    exact ⟨e, List.mem_filter.2 ⟨h.mem_entries.2 ⟨i, he⟩, hdead⟩, h.index i e he⟩

/-- A bucket after a collection holds the indices that still lead to a string. -/
theorem Aligned.bucket_endCollection (h : t.Aligned) (k : Word) :
    t.endCollection.2.bucket k = (t.bucket k).filter fun i => (t.endCollection.2.get? i).isSome := by
  have hdrop : t.endCollection.2.bucket k = (t.bucket k).filter fun i =>
      (t.entries.filter dead).all fun e => k != e.hash || i != e.index :=
    mem_foldl_dropFromBucket _ _ _
  rw [hdrop]
  refine List.filter_congr fun i hi => ?_
  obtain ⟨e, he, rfl⟩ := (h.mem_bucket k i).1 hi
  rw [get?_endCollection, he, Bool.eq_iff_iff, List.all_eq_true]
  cases hdead : dead e with
  | true =>
    -- the string itself is dropped from its bucket
    have hfreed := List.mem_filter.2 ⟨h.mem_entries.2 ⟨i, he⟩, hdead⟩
    refine iff_of_false (fun hall => ?_) (by simp [hdead])
    have hout := hall e hfreed
    simp [h.index i e he] at hout
  | false =>
    refine iff_of_true (fun f hf => ?_) (by simp [hdead])
    rw [Bool.or_eq_true, bne_iff_ne, bne_iff_ne]
    refine .inr ?_
    rintro rfl
    obtain ⟨e', he', hdead'⟩ := h.exists_freed_iff.1 ⟨f, hf, rfl⟩
    cases he.symm.trans he'
    exact Bool.false_ne_true (hdead.symm.trans hdead')

/-- After a collection, buckets lead to all entries of their hash. -/
theorem Aligned.mem_bucket_endCollection (h : t.Aligned) (k i : Word) :
    i ∈ t.endCollection.2.bucket k ↔ ∃ e, t.endCollection.2.get? i = some e ∧ e.hash = k := by
  rw [h.bucket_endCollection, List.mem_filter, h.mem_bucket]
  constructor
  · rintro ⟨⟨e, he, rfl⟩, hkept⟩
    obtain ⟨f, hf⟩ := Option.isSome_iff_exists.1 hkept
    rw [get?_endCollection] at hf
    cases he.symm.trans (Option.filter_eq_some_iff.1 hf).1
    exact ⟨e, (get?_endCollection t i).trans hf, rfl⟩
  · rintro ⟨e, he, rfl⟩
    refine ⟨⟨e, ?_, rfl⟩, Option.isSome_of_eq_some he⟩
    rw [get?_endCollection] at he
    exact (Option.filter_eq_some_iff.1 he).1

/-- Equal contents stay in index order. -/
theorem Aligned.ordered_endCollection (h : t.Aligned) (k : Word) :
    (t.endCollection.2.bucket k).Pairwise fun i j =>
      t.endCollection.2.bytes? i = t.endCollection.2.bytes? j → i < j := by
  have hbytes : ∀ i ∈ t.endCollection.2.bucket k, t.endCollection.2.bytes? i = t.bytes? i := by
    intro i hi
    obtain ⟨e, he, -⟩ := (h.mem_bucket_endCollection k i).1 hi
    have hnew := bytes?_eq_some_iff.2 ⟨e, he, rfl⟩
    exact hnew.trans (bytes?_endCollection_of_some hnew).symm
  have hold : (t.endCollection.2.bucket k).Pairwise fun i j => t.bytes? i = t.bytes? j → i < j := by
    rw [h.bucket_endCollection]
    exact (h.ordered k).filter _
  refine hold.imp_of_mem fun {i j} hi hj hij => ?_
  rwa [hbytes i hi, hbytes j hj]

/-- The indices past the slots that are kept, which leave the free set. -/
theorem mem_map_range'_iff {low high : Nat} (hhigh : high ≤ UInt32.size) {i : Word} :
    i ∈ (List.range' low (high - low)).map UInt32.ofNat ↔ low ≤ i.toNat ∧ i.toNat < high := by
  simp only [List.mem_map, List.mem_range'_1]
  constructor
  · rintro ⟨j, ⟨hlo, hhi⟩, rfl⟩
    have hhigh : high ≤ 4294967296 := hhigh
    rw [UInt32.toNat_ofNat']
    omega
  · rintro ⟨hlo, hhi⟩
    exact ⟨i.toNat, ⟨hlo, by omega⟩, by simp⟩

/-- After a collection, free indices are those of empty slots. -/
theorem Aligned.mem_free_endCollection (h : t.Aligned) (i : Word) :
    (t.endCollection.2.free.find? i).isSome ↔ t.endCollection.2.slots[i.toNat]? = some none := by
  have hfree : (t.endCollection.2.free.find? i).isSome ↔
      ((t.free.find? i).isSome ∨ ∃ e ∈ t.entries.filter dead, e.index = i) ∧
        i ∉ (List.range' t.endCollection.2.slots.size
          ((t.slots.map fun s => s.filter fun e => !dead e).size -
            t.endCollection.2.slots.size)).map UInt32.ofNat := by
    rw [← find?_foldl_add, ← find?_foldl_erase]
    rfl
  have hsize := size_endCollection_le t
  rw [hfree, Array.size_map, mem_map_range'_iff h.size_le, h.exists_freed_iff, h.mem_free,
    getElem?_eq_some_none_iff, getElem?_eq_some_none_iff, get?_endCollection]
  cases hget : t.get? i with
  | none =>
    have hnot : ¬ ∃ e, (none : Option StringEntry) = some e ∧ dead e = true := by
      rintro ⟨e, he, -⟩
      cases he
    simp only [and_true, or_iff_left hnot, Option.filter_none]
    omega
  | some e =>
    have hlt := toNat_lt_of_get? hget
    simp only [reduceCtorEq, and_false, false_or, Option.some.injEq, exists_eq_left',
      Option.filter_eq_none_iff, Bool.not_eq_true', Bool.not_eq_false, forall_eq']
    exact ⟨fun ⟨hdead, hout⟩ => ⟨by omega, hdead⟩, fun ⟨hin, hdead⟩ => ⟨hdead, by omega⟩⟩

/-- A collection keeps slots, buckets and free set in agreement, and leaves no free slot at the
end. -/
theorem Aligned.endCollection (h : t.Aligned) : t.endCollection.2.Wellformed where
  size_le := Nat.le_trans (size_endCollection_le t) h.size_le
  index i e he := by
    rw [get?_endCollection] at he
    exact h.index i e (Option.filter_eq_some_iff.1 he).1
  hashed i e he := by
    rw [get?_endCollection] at he
    exact h.hashed i e (Option.filter_eq_some_iff.1 he).1
  mem_bucket := h.mem_bucket_endCollection
  ordered := h.ordered_endCollection
  mem_free := h.mem_free_endCollection
  tail := by
    have hlast := getLast?_trim (t.slots.map fun s => s.filter fun e => !dead e).toList
    simpa [StringTable.endCollection] using hlast

end ScriptMachine.StringTable
