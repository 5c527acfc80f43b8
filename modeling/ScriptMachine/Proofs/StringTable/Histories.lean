import Mathlib.Data.List.Nodup
import ScriptMachine.Proofs.StringTable.RoundTrip

/-!
# The tables that come about

`StringTable.Made` is every table that comes about from the empty one by interning, locking, marking,
collecting and reading.  In all of them the slots, the free set and the buckets say the same
(`Represented`), also where reading failed half-way.  A table that was never read from foreign bytes
holds no content twice and does not end with a free slot, so interning is exact: a known content is
found and nothing changes, and a new one takes the lowest free slot (`Interns`).

What carries this is `Aligned`, which is kept by every operation, and for tables that read only what
such tables wrote also `Wellformed` and `Distinct`.
-/

namespace ScriptMachine.StringTable

/-- The tables that come about from the empty one, which is also what is left of a table that is
cleared.  With `own` a table is read only from bytes that such a table wrote, with anything after
them; else from any bytes, whether they can be read to the end or not.  A table has fewer slots than
there are indices, and the length of a string fits its format. -/
inductive Made : (own : Bool) → StringTable → Prop
  | empty (own : Bool) : Made own {}
  | intern {own : Bool} {t : StringTable} (h : Made own t) (b : Bytes) (hlen : b.length < 2 ^ 64)
      (hroom : (t.intern b).2.capacity < UInt32.size) : Made own (t.intern b).2
  | lock {own : Bool} {t : StringTable} (h : Made own t) (i : Word) : Made own (t.lock i)
  | unlock {own : Bool} {t : StringTable} (h : Made own t) (i : Word) : Made own (t.unlock i)
  | mark {own : Bool} {t : StringTable} (h : Made own t) (i : Word) : Made own (t.mark i)
  | beginCollection {own : Bool} {t : StringTable} (h : Made own t) : Made own t.beginCollection
  | endCollection {own : Bool} {t : StringTable} (h : Made own t) : Made own t.endCollection.2
  | read (s : Bytes) (hroom : (read s).1.capacity < UInt32.size) : Made false (read s).1
  | readOwn {t : StringTable} (h : Made true t) (rest : Bytes) : Made true (read (t.write ++ rest)).1

/-- Slots, free set and buckets say the same. -/
structure Represented (t : StringTable) : Prop where
  /-- A string knows its slot, and its hash is that of its content. -/
  entry : ∀ i e, t.get? i = some e → e.index = i ∧ e.hash = hash e.bytes
  /-- The free set holds the slots that are empty. -/
  free : ∀ i, (t.free.find? i).isSome ↔ t.slots[i.toNat]? = some none
  /-- Over all buckets, a live index stands once and a dead one nowhere. -/
  once : ∀ i, t.buckets.values.flatten.count i = if t.contains i then 1 else 0
  /-- A live index stands in the bucket of its hash. -/
  bucket : ∀ i e, t.get? i = some e → i ∈ t.bucket e.hash

/-- No content is there twice. -/
def Distinct (t : StringTable) : Prop :=
  ∀ i j b, t.bytes? i = some b → t.bytes? j = some b → i = j

/-- The slot that a new string gets is the lowest free one, or one past the end where none is free. -/
def IsNext (t : StringTable) (i : Nat) : Prop :=
  (t.slots[i]? = some none ∧ ∀ j, t.slots[j]? = some none → i ≤ j) ∨
    (i = t.capacity ∧ ∀ j : Nat, t.slots[j]? ≠ some none)

/-- What interning does. -/
structure Interns (t : StringTable) (b : Bytes) : Prop where
  /-- The index of a known content is answered, and nothing changes. -/
  known : ∀ i, t.bytes? i = some b → t.intern b = (i, t)
  /-- A new content is put into the next slot, and no other slot changes. -/
  new : (∀ i, t.bytes? i ≠ some b) → t.IsNext (t.intern b).1.toNat ∧
    ∀ j, (t.intern b).2.slots[j]? = if j = (t.intern b).1.toNat then
        some (some ⟨b, hash b, (t.intern b).1, 0, t.collecting⟩)
      else t.slots[j]?

variable {t : StringTable} {own : Bool}

/-! ## What the buckets hold -/

/-- Equal contents stand in index order, so no index stands twice in a bucket. -/
theorem Aligned.nodup_bucket (h : t.Aligned) (k : Word) : (t.bucket k).Nodup := by
  refine (h.ordered k).imp fun {i j} hlt hij => ?_
  subst hij
  exact UInt32.lt_irrefl _ (hlt rfl)

/-- An entry of the buckets is the bucket of its hash. -/
theorem bucket_of_mem_entries {k : Word} {is : List Word} (h : (k, is) ∈ t.buckets.entries) :
    t.bucket k = is := by
  rw [bucket, OrdMap.mem_entries.1 h]
  rfl

/-- No index is in two buckets. -/
theorem Aligned.nodup_buckets (h : t.Aligned) : t.buckets.values.flatten.Nodup := by
  refine List.nodup_flatten.2 ⟨fun is his => ?_, ?_⟩
  · obtain ⟨p, hp, rfl⟩ := List.mem_map.1 his
    rw [← bucket_of_mem_entries hp]
    exact h.nodup_bucket p.1
  · refine List.pairwise_map.2 ?_
    refine (List.pairwise_map.1 t.buckets.nodup_keys).imp_of_mem fun {p q} hp hq hne i hi hi' => hne ?_
    -- an index stands in the bucket of its hash only
    rw [← bucket_of_mem_entries hp, h.mem_bucket] at hi
    rw [← bucket_of_mem_entries hq, h.mem_bucket] at hi'
    obtain ⟨e, he, hp⟩ := hi
    obtain ⟨e', he', hq⟩ := hi'
    cases he.symm.trans he'
    exact hp.symm.trans hq

/-- The buckets lead to all strings that are there. -/
theorem Aligned.mem_buckets (h : t.Aligned) (i : Word) :
    i ∈ t.buckets.values.flatten ↔ t.contains i := by
  rw [List.mem_flatten, contains, Option.isSome_iff_exists]
  constructor
  · rintro ⟨is, his, hi⟩
    obtain ⟨p, hp, rfl⟩ := List.mem_map.1 his
    rw [← bucket_of_mem_entries hp, h.mem_bucket] at hi
    obtain ⟨e, he, -⟩ := hi
    exact ⟨e, he⟩
  · rintro ⟨e, he⟩
    have hi : i ∈ t.bucket e.hash := (h.mem_bucket _ i).2 ⟨e, he, rfl⟩
    cases hb : t.buckets.find? e.hash with
    | none => simp [bucket, hb] at hi
    | some is =>
      rw [bucket, hb] at hi
      exact ⟨is, OrdMap.mem_values.2 ⟨_, hb⟩, hi⟩

/-- An aligned table is represented. -/
theorem Aligned.represented (h : t.Aligned) : t.Represented where
  entry i e he := ⟨h.index i e he, h.hashed i e he⟩
  free := h.mem_free
  once i := by
    rw [h.nodup_buckets.count]
    simp only [h.mem_buckets]
  bucket i e he := (h.mem_bucket _ i).2 ⟨e, he, rfl⟩

/-! ## Interning -/

/-- The next index of an aligned table is the least one that is free. -/
theorem Aligned.isNext (h : t.Aligned) (hroom : t.capacity < UInt32.size) :
    t.IsNext t.nextIndex.toNat := by
  unfold nextIndex
  cases hf : OrdSet.least? t.free with
  | some i =>
    refine .inl ⟨(h.mem_free i).1 (OrdSet.find?_of_least? hf), fun j hj => ?_⟩
    obtain ⟨hlt, -⟩ := Array.getElem?_eq_some_iff.1 hj
    have hword : (UInt32.ofNat j).toNat = j := by
      rw [UInt32.toNat_ofNat']
      exact Nat.mod_eq_of_lt (Nat.lt_trans hlt hroom)
    have hfree : (t.free.find? (UInt32.ofNat j)).isSome := by
      rw [h.mem_free, hword]
      exact hj
    rcases OrdSet.compare_of_least? hf hfree with heq | hlt
    · exact Nat.le_of_eq (by rw [Option.getD_some, heq, hword])
    · have hlt : i < UInt32.ofNat j := Std.compare_eq_lt.1 hlt
      rw [UInt32.lt_iff_toNat_lt, hword] at hlt
      exact Nat.le_of_lt hlt
  | none =>
    refine .inr ⟨?_, fun j hj => ?_⟩
    · rw [Option.getD_none, UInt32.toNat_ofNat']
      exact Nat.mod_eq_of_lt hroom
    · obtain ⟨hlt, -⟩ := Array.getElem?_eq_some_iff.1 hj
      have hfree := (h.mem_free (UInt32.ofNat j)).2
        (by rw [UInt32.toNat_ofNat', Nat.mod_eq_of_lt (Nat.lt_trans hlt hroom)]; exact hj)
      rw [OrdSet.find?_of_least?_eq_none hf] at hfree
      cases hfree

/-- Interning answers the index of the bytes, which is new if they are. -/
theorem Aligned.interns (h : t.Aligned) (hdistinct : t.Distinct) (hroom : t.capacity < UInt32.size)
    (b : Bytes) : t.Interns b where
  known i hi := by
    refine intern_old (h.find?_eq_some_iff.2 ⟨hi, fun j hj => ?_⟩)
    rw [hdistinct i j b hi hj]
    exact UInt32.le_refl _
  new hno := by
    have hnone := h.find?_eq_none_iff.2 hno
    rw [intern_new hnone]
    exact ⟨h.isNext hroom, getElem?_place (h.nextIndex_le hroom)⟩

/-- Interning leaves the strings distinct. -/
theorem Aligned.distinct_intern (h : t.Aligned) (hdistinct : t.Distinct)
    (hroom : t.slots.size < UInt32.size) (b : Bytes) : (t.intern b).2.Distinct := by
  cases hf : t.find? b (hash b) with
  | some i => rw [intern_old hf]; exact hdistinct
  | none =>
    have hno := h.find?_eq_none_iff.1 hf
    have hbytes : ∀ j, (t.intern b).2.bytes? j = if j = t.nextIndex then some b else t.bytes? j := by
      intro j
      rw [bytes?, h.get?_intern_new hroom hf]
      split <;> rfl
    intro i j c hi hj
    rw [hbytes] at hi hj
    split at hi
    · split at hj
      · simp_all
      · cases hi
        exact absurd hj (hno j)
    · split at hj
      · cases hj
        exact absurd hi (hno i)
      · exact hdistinct i j c hi hj

/-! ## What every operation keeps -/

/-- What holds of tables that were never read from foreign bytes: they are well-formed, hold no
content twice, and their strings fit the format. -/
structure Proper (t : StringTable) : Prop extends Wellformed t where
  distinct : t.Distinct
  short : ∀ i b, t.bytes? i = some b → b.length < 2 ^ 64

/-- A table without slots is proper. -/
theorem proper_empty : Proper {} where
  toWellformed := wellformed_empty
  distinct i j b hi := by simp [bytes?, get?] at hi
  short i b hi := by simp [bytes?, get?] at hi

/-- Contents that are there afterwards were there before. -/
theorem Proper.of_bytes? {u : StringTable} (h : t.Proper) (hu : u.Wellformed)
    (hbytes : ∀ i b, u.bytes? i = some b → t.bytes? i = some b) : u.Proper where
  toWellformed := hu
  distinct i j b hi hj := h.distinct i j b (hbytes i b hi) (hbytes j b hj)
  short i b hi := h.short i b (hbytes i b hi)

/-- A table with the same strings is as proper. -/
theorem Proper.same {u : StringTable} (h : t.Proper) (hsame : SameStrings t u) : u.Proper :=
  h.of_bytes? (hsame.wellformed h.toWellformed) fun i b hb => by rwa [hsame.bytes?] at hb

/-- Interning leaves a table proper. -/
theorem Proper.intern (h : t.Proper) (hroom : t.slots.size < UInt32.size) {b : Bytes}
    (hlen : b.length < 2 ^ 64) : (t.intern b).2.Proper where
  toWellformed := h.toWellformed.intern hroom b
  distinct := h.distinct_intern h.distinct hroom b
  short i c hc := by
    cases hf : t.find? b (hash b) with
    | some k =>
      rw [intern_old hf] at hc
      exact h.short i c hc
    | none =>
      rw [bytes?, h.get?_intern_new hroom hf] at hc
      split at hc
      · cases hc
        exact hlen
      · exact h.short i c hc

/-- The counts of a proper table fit the format. -/
theorem Proper.sized (h : t.Proper) : t.Sized := by
  intro e he
  obtain ⟨i, hi⟩ := h.mem_entries.1 he
  exact h.short i e.bytes (bytes?_eq_some_iff.2 ⟨e, hi, rfl⟩)

/-- What is read back from a proper table is proper. -/
theorem Proper.read (h : t.Proper) (rest : Bytes) : (read (t.write ++ rest)).1.Proper := by
  have hread := read_write h.toWellformed h.sized rest
  rw [hread]
  refine h.of_bytes? (wellformed_of_read hread) fun i b hb => ?_
  rwa [(alike_reread h.toWellformed).bytes?] at hb

/-- **Every operation** keeps slots, buckets and free set in agreement, and tables proper that are
read from their own bytes only. -/
theorem Made.kept (h : Made own t) :
    t.Aligned ∧ t.capacity < UInt32.size ∧ (own = true → t.Proper) := by
  have hsame : ∀ {own : Bool} {t u : StringTable}, SameStrings t u →
      t.Aligned ∧ t.capacity < UInt32.size ∧ (own = true → t.Proper) →
      u.Aligned ∧ u.capacity < UInt32.size ∧ (own = true → u.Proper) :=
    fun hs ⟨haligned, hroom, hproper⟩ =>
      ⟨hs.aligned haligned, Nat.lt_of_le_of_lt (Nat.le_of_eq hs.size_eq) hroom, fun hown => (hproper hown).same hs⟩
  induction h with
  | empty own => exact ⟨aligned_empty, by decide, fun _ => proper_empty⟩
  | @intern own t h b hlen hroom ih =>
    have hbefore : t.slots.size < UInt32.size := Nat.lt_of_le_of_lt (size_le_intern t b) hroom
    exact ⟨ih.1.intern hbefore b, hroom, fun hown => (ih.2.2 hown).intern hbefore hlen⟩
  | lock _ i ih => exact hsame (sameStrings_lock _ i) ih
  | unlock _ i ih => exact hsame (sameStrings_unlock _ i) ih
  | mark _ i ih => exact hsame (sameStrings_update _ i fun _ => rfl) ih
  | beginCollection _ ih => exact hsame (sameStrings_beginCollection _) ih
  | @endCollection own t h ih =>
    refine ⟨ih.1.endCollection.toAligned, Nat.lt_of_le_of_lt (size_endCollection_le t) ih.2.1,
      fun hown => ?_⟩
    exact (ih.2.2 hown).of_bytes? ih.1.endCollection fun i b => bytes?_endCollection_of_some
  | read s hroom => exact ⟨aligned_read s, hroom, fun hown => absurd hown (by decide)⟩
  | @readOwn t h rest ih =>
    have hproper := (ih.2.2 rfl).read rest
    have hread := read_write (ih.2.2 rfl).toWellformed (ih.2.2 rfl).sized rest
    refine ⟨hproper.toAligned, ?_, fun _ => hproper⟩
    rw [hread, capacity, reread_slots (ih.2.2 rfl).toWellformed, Array.size_map]
    exact ih.2.1

/-- **The table is what it says.**  In every table that comes about, slots, free set and buckets say
the same; and where no foreign bytes were read, no content is there twice, the last slot is not free,
and interning finds a content or puts it into the next slot. -/
theorem Made.faithful (h : Made own t) : t.Represented ∧
    (own = true → t.Distinct ∧ t.slots.back? ≠ some none ∧ ∀ b, t.Interns b) := by
  obtain ⟨haligned, hroom, hproper⟩ := h.kept
  exact ⟨haligned.represented, fun hown =>
    ⟨(hproper hown).distinct, (hproper hown).tail, haligned.interns (hproper hown).distinct hroom⟩⟩

/-- A table whose first string was swept away. -/
def sweptTable : StringTable :=
  ((({} : StringTable).intern [97]).2.intern [98]).2.beginCollection.mark 1 |>.endCollection.2

/-- How the swept table came about. -/
theorem made_sweptTable : Made true sweptTable :=
  have hfirst : Made true (({} : StringTable).intern [97]).2 :=
    .intern (.empty true) [97] (by decide) (by decide)
  have hsecond : Made true ((({} : StringTable).intern [97]).2.intern [98]).2 :=
    .intern hfirst [98] (by decide) (by decide)
  .endCollection (.mark (.beginCollection hsecond) 1)

/-- The swept table, saved and read back from a longer stream: its first slot is free, and a new
string goes there. -/
theorem Made.faithful_sweptTable :
    ((StringTable.read (sweptTable.write ++ [7])).1.Represented ∧
      (StringTable.read (sweptTable.write ++ [7])).1.Distinct ∧
      (StringTable.read (sweptTable.write ++ [7])).1.Interns [99]) ∧
      ((StringTable.read (sweptTable.write ++ [7])).1.intern [99]).1 = 0 := by
  have hfaithful := Made.faithful (.readOwn made_sweptTable [7])
  obtain ⟨hdistinct, -, hinterns⟩ := hfaithful.2 rfl
  exact ⟨⟨hfaithful.1, hdistinct, hinterns [99]⟩, by decide +kernel⟩

end ScriptMachine.StringTable
