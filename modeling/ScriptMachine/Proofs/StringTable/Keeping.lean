import ScriptMachine.Proofs.StringTable.Interning

/-!
# Strings that stay

A change of the table keeps some indices if a content that was found at one of them is found there
afterwards (`Keeps`).  Adding strings, locking and unlocking keep every index; a collection keeps the
indices that were marked.
-/

namespace ScriptMachine.StringTable

/-- A well-formed table is left well-formed, and contents stay at the indices of `kept`. -/
structure Keeps (kept : Word → Prop) (t t' : StringTable) : Prop where
  wellformed : t.Wellformed → t'.Wellformed
  found : t.Wellformed → ∀ b i, kept i → t.find? b (hash b) = some i → t'.find? b (hash b) = some i

namespace Keeps

variable {kept kept' : Word → Prop} {t t' t'' : StringTable}

theorem refl (t : StringTable) : Keeps kept t t := ⟨fun h => h, fun _ _ _ _ h => h⟩

theorem trans (h : Keeps kept t t') (h' : Keeps kept t' t'') : Keeps kept t t'' where
  wellformed ht := h'.wellformed (h.wellformed ht)
  found ht b i hi hb := h'.found (h.wellformed ht) b i hi (h.found ht b i hi hb)

/-- The same strings are kept. -/
theorem of_same (h : SameStrings t t') : Keeps kept t t' where
  wellformed := h.wellformed
  found _ b _ _ hb := (h.find? b _).trans hb

/-- Fewer strings are kept as well. -/
theorem mono (hkept : ∀ i, kept' i → kept i) (h : Keeps kept t t') : Keeps kept' t t' :=
  ⟨h.wellformed, fun ht b i hi => h.found ht b i (hkept i hi)⟩

end Keeps

variable {kept : Word → Prop} {t t' : StringTable}

/-- Placing an entry takes no slot away. -/
theorem size_le_place (slots : Array (Option StringEntry)) (i : Nat) (e : StringEntry) :
    slots.size ≤ (place slots i e).size := by
  unfold place
  split <;> simp

/-- The table never shrinks when strings are added. -/
theorem size_le_intern (t : StringTable) (b : Bytes) : t.slots.size ≤ (t.intern b).2.slots.size := by
  cases hf : t.find? b (hash b) with
  | some i => exact Nat.le_of_eq (by rw [intern_old hf])
  | none =>
    rw [intern_new hf]
    exact size_le_place ..

/-- Interning takes no slot away. -/
theorem size_le_internLocked (t : StringTable) (bs : List Bytes) :
    t.slots.size ≤ (t.internLocked bs).2.slots.size := by
  induction bs generalizing t with
  | nil => exact Nat.le_refl _
  | cons b bs ih =>
    rw [internLocked_cons]
    refine Nat.le_trans (size_le_intern t b) ?_
    rw [← (sameStrings_lock (t.intern b).2 (t.intern b).1).size_eq]
    exact ih _

/-- Adding a string keeps all others, unless the indices run out. -/
theorem keeps_intern {b : Bytes} (hroom : (t.intern b).2.slots.size < UInt32.size) :
    Keeps kept t (t.intern b).2 := by
  have hroom : t.slots.size < UInt32.size := Nat.lt_of_le_of_lt (size_le_intern t b) hroom
  refine ⟨fun ht => ht.intern hroom b, fun ht c i _ hc => ?_⟩
  cases hf : t.find? b (hash b) with
  | some k => rw [intern_old hf]; exact hc
  | none =>
    obtain ⟨hi, hleast⟩ := ht.find?_eq_some_iff.1 hc
    refine (ht.intern hroom b).find?_eq_some_iff.2
      ⟨ht.bytes?_intern_of_some hroom b hi, fun j hj => hleast j ?_⟩
    -- the new string is not the one looked for, so it was there before
    have hbc : b ≠ c := fun heq => ht.find?_eq_none_iff.1 hf i (heq ▸ hi)
    rw [bytes?, ht.get?_intern_new hroom hf] at hj
    split at hj
    · exact absurd (Option.some.inj hj) hbc
    · exact hj

/-- Where there is room for all constants there is room for the first. -/
theorem size_intern_lt {b : Bytes} {bs : List Bytes} {n : Nat}
    (hroom : (((t.intern b).2.lock (t.intern b).1).internLocked bs).2.slots.size < n) :
    (t.intern b).2.slots.size < n := by
  rw [← (sameStrings_lock (t.intern b).2 (t.intern b).1).size_eq]
  exact Nat.lt_of_le_of_lt (size_le_internLocked _ bs) hroom

/-- Interning keeps all strings. -/
theorem keeps_internLocked {bs : List Bytes} (hroom : (t.internLocked bs).2.slots.size < UInt32.size) :
    Keeps kept t (t.internLocked bs).2 := by
  induction bs generalizing t with
  | nil => exact .refl t
  | cons b bs ih =>
    rw [internLocked_cons] at hroom ⊢
    have hlock := sameStrings_lock (t.intern b).2 (t.intern b).1
    exact ((keeps_intern (size_intern_lt hroom)).trans (.of_same hlock)).trans (ih hroom)

/-- What is marked stays marked. -/
theorem marked_markAll (is : List Word) {i : Word} {e : StringEntry} (he : t.get? i = some e) :
    ∃ e', (t.markAll is).get? i = some e' ∧ (e.marked = true ∨ i ∈ is → e'.marked = true) := by
  induction is generalizing t e with
  | nil => exact ⟨e, he, fun h => by simpa using h⟩
  | cons j is ih =>
    have hmark : (t.mark j).get? i =
        some (if j = i then { e with marked := true } else e) := by
      have hslot := get?_eq_some_iff.1 he
      rw [get?_eq_some_iff]
      simp only [mark, update, Array.getElem?_modify, hslot, UInt32.toNat_inj]
      split <;> rfl
    obtain ⟨e', he', hm⟩ := ih hmark
    refine ⟨e', he', fun h => hm ?_⟩
    by_cases hj : j = i
    · simp [hj]
    · rw [if_neg hj]
      rcases h with h | h
      · exact .inl h
      · rcases List.mem_cons.1 h with rfl | h
        · exact absurd rfl hj
        · exact .inr h

/-- A collection keeps what was marked before it ends. -/
theorem keeps_endCollection (hmarked : ∀ i e, kept i → t.get? i = some e → e.marked = true) :
    Keeps kept t t.endCollection.2 := by
  refine ⟨fun ht => ht.endCollection, fun ht b i hi hb => ?_⟩
  obtain ⟨hbytes, hleast⟩ := ht.find?_eq_some_iff.1 hb
  obtain ⟨e, he, rfl⟩ := bytes?_eq_some_iff.1 hbytes
  refine ht.endCollection.find?_eq_some_iff.2
    ⟨?_, fun j hj => hleast j (bytes?_endCollection_of_some hj)⟩
  have halive : (!dead e) = true := by simp [dead, hmarked i e hi he]
  rw [bytes?, get?_endCollection, he, Option.filter_some, if_pos halive]
  rfl

/-- A whole collection keeps what was among the first to be marked. -/
theorem keeps_collection (t : StringTable) (is js : List Word) :
    Keeps (· ∈ is) t (((t.beginCollection.markAll is).markAll js).endCollection).2 := by
  have hsame := ((sameStrings_beginCollection t).trans (sameStrings_markAll _ is)).trans
    (sameStrings_markAll _ js)
  refine (Keeps.of_same hsame).trans (keeps_endCollection fun i e hi he => ?_)
  obtain ⟨e₀, he₀, -⟩ := ((sameStrings_markAll _ is).trans (sameStrings_markAll _ js)).exists_get? he
  obtain ⟨e₁, he₁, hmark₁⟩ := marked_markAll is he₀
  obtain ⟨e₂, he₂, hmark₂⟩ := marked_markAll js he₁
  cases he.symm.trans he₂
  exact hmark₂ (.inl (hmark₁ (.inr hi)))

end ScriptMachine.StringTable
