import ScriptMachine.OrdMap

/-!
# Walking ordered maps

The bindings of a map are exactly its look-ups (`mem_entries`), so a map is rebuilt from a walk
over it (`ofList_entries`).  `OrdMap.mapValues` changes every value and no key; it goes through
every operation, which is how two trees of maps are compared value by value.
-/

namespace ScriptMachine

open Std (TransOrd LawfulEqOrd)

variable {κ α β : Type} [Ord κ] [TransOrd κ] [LawfulEqOrd κ]

omit [LawfulEqOrd κ] in
/-- No key is below itself. -/
theorem ne_of_compare_lt {a b : κ} (h : compare a b = .lt) : a ≠ b := by
  rintro rfl
  have heq : compare a a = .eq := Std.ReflOrd.compare_self
  rw [heq] at h
  cases h

namespace OrdList

/-- In a sorted list a look-up finds the one binding of its key. -/
theorem find?_eq_some_iff {l : List (κ × α)} (h : Sorted l) {k : κ} {v : α} :
    find? k l = some v ↔ (k, v) ∈ l := by
  induction l with
  | nil => simp [find?]
  | cons q rest ih =>
    obtain ⟨j, w⟩ := q
    obtain ⟨hq, hr⟩ := List.pairwise_cons.1 h
    simp only [find?]
    cases hc : compare k j with
    | lt =>
      refine ⟨by rintro ⟨⟩, fun hm => ?_⟩
      rcases List.mem_cons.1 hm with hm | hm
      · cases hm
        exact absurd rfl (ne_of_compare_lt hc)
      · exact absurd rfl (ne_of_compare_lt (Std.TransCmp.lt_trans hc (hq _ hm)))
    | eq =>
      have hk : k = j := Std.LawfulEqCmp.eq_of_compare hc
      subst hk
      constructor
      · intro hv
        cases hv
        exact List.mem_cons_self
      · intro hm
        rcases List.mem_cons.1 hm with hm | hm
        · cases hm
          rfl
        · exact absurd rfl (ne_of_compare_lt (hq (k, v) hm))
    | gt =>
      rw [ih hr]
      refine ⟨List.mem_cons_of_mem _, fun hm => ?_⟩
      rcases List.mem_cons.1 hm with hm | hm
      · cases hm
        exact absurd rfl (ne_of_compare_lt (Std.OrientedCmp.gt_iff_lt.1 hc))
      · exact hm

omit [TransOrd κ] [LawfulEqOrd κ] in
/-- Every value changed, every key kept. -/
theorem Sorted.mapValues {l : List (κ × α)} (h : Sorted l) (f : α → β) :
    Sorted (l.map fun p => (p.1, f p.2)) := by
  rw [sorted_iff_keys, List.map_map]
  exact sorted_iff_keys.1 h

omit [LawfulEqOrd κ] in
/-- Appending a larger key is binding it. -/
theorem insert_append {l : List (κ × α)} {k : κ} {v : α} (h : ∀ p ∈ l, compare p.1 k = .lt) :
    insert k v l = l ++ [(k, v)] := by
  induction l with
  | nil => rfl
  | cons q rest ih =>
    have hgt : compare k q.1 = .gt := Std.OrientedCmp.gt_iff_lt.2 (h q List.mem_cons_self)
    rw [insert, hgt]
    simp only [ih fun p hp => h p (List.mem_cons_of_mem _ hp), List.cons_append]

end OrdList

namespace OrdMap

omit [TransOrd κ] [LawfulEqOrd κ] in
@[simp] theorem find?_empty (k : κ) : (∅ : OrdMap κ α).find? k = none := rfl

/-- The bindings of a map are its look-ups. -/
theorem mem_entries {m : OrdMap κ α} {k : κ} {v : α} :
    (k, v) ∈ m.entries ↔ m.find? k = some v :=
  (OrdList.find?_eq_some_iff m.sorted).symm

/-- The keys are those under which something is found. -/
theorem mem_keys {m : OrdMap κ α} {k : κ} : k ∈ m.keys ↔ (m.find? k).isSome := by
  rw [keys, List.mem_map, Option.isSome_iff_exists]
  constructor
  · rintro ⟨⟨j, v⟩, hm, rfl⟩
    exact ⟨v, mem_entries.1 hm⟩
  · rintro ⟨v, hv⟩
    exact ⟨(k, v), mem_entries.2 hv, rfl⟩

/-- The values are what is found. -/
theorem mem_values {m : OrdMap κ α} {v : α} : v ∈ m.values ↔ ∃ k, m.find? k = some v := by
  rw [values, List.mem_map]
  constructor
  · rintro ⟨⟨k, w⟩, hm, rfl⟩
    exact ⟨k, mem_entries.1 hm⟩
  · rintro ⟨k, hk⟩
    exact ⟨(k, v), mem_entries.2 hk, rfl⟩

omit [LawfulEqOrd κ] in
/-- No key is bound twice. -/
theorem nodup_keys (m : OrdMap κ α) : m.keys.Nodup :=
  (OrdList.sorted_iff_keys.1 m.sorted).imp ne_of_compare_lt

omit [LawfulEqOrd κ] in
/-- No entry is there twice. -/
theorem nodup_entries (m : OrdMap κ α) : m.entries.Nodup :=
  (List.pairwise_map.1 m.nodup_keys).imp fun hne heq => hne (congrArg Prod.fst heq)

/-- The bindings of one key. -/
theorem entries_filter [DecidableEq κ] (m : OrdMap κ α) (k : κ) :
    m.entries.filter (·.1 == k) = ((m.find? k).map (Prod.mk k)).toList := by
  cases hfind : m.find? k with
  | none =>
    refine List.filter_eq_nil_iff.2 fun p hp heq => ?_
    have hp' := mem_entries.1 hp
    rw [beq_iff_eq.1 heq, hfind] at hp'
    cases hp'
  | some v =>
    obtain ⟨pre, post, heq⟩ := List.append_of_mem (mem_entries.2 hfind)
    have hnodup := nodup_keys m
    rw [keys, heq, List.map_append, List.map_cons, List.perm_middle.nodup_iff,
      List.nodup_cons] at hnodup
    have hnone : ∀ l : List (κ × α), (∀ p ∈ l, p ∈ pre ++ post) → l.filter (·.1 == k) = [] := by
      refine fun l hl => List.filter_eq_nil_iff.2 fun p hp hk => hnodup.1 ?_
      rw [← List.map_append, ← beq_iff_eq.1 hk]
      exact List.mem_map.2 ⟨p, hl p hp, rfl⟩
    rw [heq, List.filter_append, List.filter_cons_of_pos (by simp),
      hnone pre fun p hp => List.mem_append_left _ hp, hnone post fun p hp => List.mem_append_right _ hp]
    rfl
/-- The values of a map are the one of a key, if it has one, and those of the other keys. -/
theorem values_perm (m : OrdMap κ α) (k : κ) :
    m.values.Perm ((m.find? k).toList ++ (m.erase k).values) := by
  have hentries : m.entries.Perm (((m.find? k).toList.map (k, ·)) ++ (m.erase k).entries) := by
    refine (List.perm_ext_iff_of_nodup m.nodup_entries ?_).2 fun p => ?_
    · refine List.nodup_append.2 ⟨?_, nodup_entries _, ?_⟩
      · cases m.find? k <;> simp
      · rintro ⟨j, w⟩ hj ⟨j', w'⟩ hj' heq
        obtain ⟨v, -, hv⟩ := List.mem_map.1 hj
        have hfind := mem_entries.1 hj'
        simp_all
    · obtain ⟨j, w⟩ := p
      simp only [List.mem_append, mem_entries, find?_erase, List.mem_map, Option.mem_toList,
        Prod.mk.injEq, LawfulEqOrd.compare_eq_iff_eq]
      by_cases hj : k = j
      · simp_all
      · simp [hj, Ne.symm hj]
  have hvalues := hentries.map Prod.snd
  rwa [List.map_append, List.map_map, show Prod.snd ∘ (fun v : α => (k, v)) = id from rfl,
    List.map_id] at hvalues

/-- An insertion adds its value to those of the other keys. -/
theorem values_insert_perm (m : OrdMap κ α) (k : κ) (v : α) :
    (m.insert k v).values.Perm (v :: (m.erase k).values) := by
  have herase : (m.insert k v).erase k = m.erase k := by
    refine ext_find? fun j => ?_
    simp only [find?_erase, find?_insert]
    split <;> rfl
  have hperm := (m.insert k v).values_perm k
  rw [herase, find?_insert, if_pos Std.ReflOrd.compare_self] at hperm
  exact hperm

/-- A walk in key order rebuilds what it walked over. -/
theorem foldl_insert_sorted {l : List (κ × α)} {m : OrdMap κ α}
    (h : OrdList.Sorted (m.entries ++ l)) :
    (l.foldl (fun m p => m.insert p.1 p.2) m).entries = m.entries ++ l := by
  induction l generalizing m with
  | nil => simp
  | cons p l ih =>
    have hlt : ∀ q ∈ m.entries, compare q.1 p.1 = .lt := fun q hq =>
      (List.pairwise_append.1 h).2.2 q hq p List.mem_cons_self
    have hins : (m.insert p.1 p.2).entries = m.entries ++ [p] := OrdList.insert_append hlt
    rw [List.foldl_cons, ih, hins, List.append_assoc, List.singleton_append]
    rw [hins, List.append_assoc, List.singleton_append]
    exact h

/-- A list in order is the map's list of entries. -/
theorem entries_ofList {l : List (κ × α)} (h : OrdList.Sorted l) : (ofList l).entries = l := by
  have hfold := foldl_insert_sorted (m := (empty : OrdMap κ α)) (l := l) (by simpa [empty] using h)
  simpa [ofList, empty] using hfold

/-- A map is the map of its bindings. -/
@[simp] theorem ofList_entries (m : OrdMap κ α) : ofList m.entries = m :=
  ext (entries_ofList m.sorted)

/-- What a fold of insertions binds was bound before or inserted. -/
theorem find?_foldl_insert {l : List (κ × α)} {m : OrdMap κ α} {k : κ} {v : α}
    (h : (l.foldl (fun m p => m.insert p.1 p.2) m).find? k = some v) :
    m.find? k = some v ∨ (k, v) ∈ l := by
  induction l generalizing m with
  | nil => exact .inl h
  | cons p l ih =>
    rcases ih h with h | h
    · rw [find?_insert] at h
      split at h
      · rename_i hk
        cases h
        rw [LawfulEqOrd.compare_eq_iff_eq] at hk
        exact .inr (hk ▸ List.mem_cons_self)
      · exact .inl h
    · exact .inr (List.mem_cons_of_mem _ h)

/-- What the map of a list binds stands in the list. -/
theorem mem_of_find?_ofList {l : List (κ × α)} {k : κ} {v : α} (h : (ofList l).find? k = some v) :
    (k, v) ∈ l := by
  rcases find?_foldl_insert h with h | h
  · cases h
  · exact h

omit [TransOrd κ] [LawfulEqOrd κ] in
/-- The map with every value changed. -/
def mapValues (f : α → β) (m : OrdMap κ α) : OrdMap κ β :=
  ⟨m.entries.map fun p => (p.1, f p.2), m.sorted.mapValues f⟩

omit [TransOrd κ] [LawfulEqOrd κ] in
@[simp] theorem entries_mapValues (f : α → β) (m : OrdMap κ α) :
    (m.mapValues f).entries = m.entries.map fun p => (p.1, f p.2) := rfl

omit [TransOrd κ] [LawfulEqOrd κ] in
@[simp] theorem keys_mapValues (f : α → β) (m : OrdMap κ α) : (m.mapValues f).keys = m.keys := by
  simp [keys, Function.comp_def]

omit [TransOrd κ] [LawfulEqOrd κ] in
@[simp] theorem values_mapValues (f : α → β) (m : OrdMap κ α) :
    (m.mapValues f).values = m.values.map f := by
  simp [values, Function.comp_def]

omit [TransOrd κ] [LawfulEqOrd κ] in
/-- A changed value is found under its key. -/
@[simp] theorem find?_mapValues (f : α → β) (m : OrdMap κ α) (k : κ) :
    (m.mapValues f).find? k = (m.find? k).map f := by
  obtain ⟨l, hl⟩ := m
  simp only [find?, entries_mapValues]
  clear hl
  induction l with
  | nil => rfl
  | cons q rest ih =>
    simp only [List.map_cons, OrdList.find?]
    cases compare k q.1 <;> simp [ih]

theorem mapValues_insert (f : α → β) (m : OrdMap κ α) (k : κ) (v : α) :
    (m.insert k v).mapValues f = (m.mapValues f).insert k (f v) := by
  apply ext_find?
  intro j
  simp only [find?_mapValues, find?_insert]
  split <;> rfl

theorem mapValues_erase (f : α → β) (m : OrdMap κ α) (k : κ) :
    (m.erase k).mapValues f = (m.mapValues f).erase k := by
  apply ext_find?
  intro j
  simp only [find?_mapValues, find?_erase]
  split <;> rfl

/-- A change of one value shows as the change `g` makes of what `f` shows. -/
theorem mapValues_modify {f : α → β} {u : α → α} {g : β → β} (h : ∀ a, f (u a) = g (f a))
    (m : OrdMap κ α) (k : κ) : (m.modify k u).mapValues f = (m.mapValues f).modify k g := by
  apply ext_find?
  intro j
  simp only [find?_mapValues, find?_modify]
  split
  · cases m.find? j <;> simp [h]
  · rfl

/-- A change of one value that `f` does not show. -/
theorem mapValues_modify_of_eq {f : α → β} {u : α → α} {m : OrdMap κ α} {k : κ}
    (h : ∀ a, m.find? k = some a → f (u a) = f a) : (m.modify k u).mapValues f = m.mapValues f := by
  apply ext_find?
  intro j
  simp only [find?_mapValues, find?_modify]
  split
  · rename_i hj
    cases Std.LawfulEqOrd.compare_eq_iff_eq.1 hj
    cases hfind : m.find? k with
    | none => rfl
    | some a => simp [h a hfind]
  · rfl

end OrdMap

namespace OrdSet

/-- A key that was added is in the set. -/
@[simp] theorem find?_add (s : OrdSet κ) (k j : κ) :
    (add s k).find? j = if compare j k = .eq then some () else s.find? j :=
  OrdMap.find?_insert s k j ()

/-- A set is the set of its members. -/
@[simp] theorem ofList_members (s : OrdSet κ) : ofList (members s) = s := by
  rw [ofList, members, OrdMap.keys, List.foldl_map]
  exact OrdMap.ofList_entries s

/-- The members are those that are found. -/
theorem mem_members {s : OrdSet κ} {k : κ} : k ∈ members s ↔ (s.find? k).isSome := OrdMap.mem_keys

/-- The least member is a member. -/
theorem find?_of_least? {s : OrdSet κ} {k : κ} (h : least? s = some k) : (s.find? k).isSome :=
  mem_members.1 (List.mem_of_head? h)

/-- The least member comes before all others. -/
theorem compare_of_least? {s : OrdSet κ} {k j : κ} (h : least? s = some k)
    (hj : (s.find? j).isSome) : k = j ∨ compare k j = .lt := by
  have hsorted : (members s).Pairwise fun a b => compare a b = .lt := List.pairwise_map.2 s.sorted
  obtain ⟨rest, hrest⟩ : ∃ rest, members s = k :: rest := List.head?_eq_some_iff.1 h
  have hmem : j ∈ members s := mem_members.2 hj
  rw [hrest] at hsorted hmem
  rcases List.mem_cons.1 hmem with rfl | hmem
  · exact .inl rfl
  · exact .inr ((List.pairwise_cons.1 hsorted).1 j hmem)

/-- Without a least member there is none. -/
theorem find?_of_least?_eq_none {s : OrdSet κ} (h : least? s = none) (k : κ) :
    s.find? k = none := by
  have hnil : members s = [] := List.head?_eq_none_iff.1 h
  have hk : k ∉ members s := by simp [hnil]
  rw [mem_members] at hk
  simpa using hk

end OrdSet

end ScriptMachine
