/-!
# Ordered maps

Sparse arrays, scope children, script slots and the module registry are all finite maps that the
machine walks in key order.  An `OrdMap` is the list of its bindings with strictly increasing keys;
the order is part of the type, so two maps that answer every look-up alike are equal, and the order
of a walk is the order of the keys.

* `find?_insert`, `find?_erase` and `find?_modify` say what each operation does to look-ups;
* `ext_find?` says that look-ups determine the map.
-/

namespace ScriptMachine

open Std (TransOrd LawfulEqOrd)

namespace OrdList

variable {κ α : Type} [Ord κ]

/-- Keys strictly increase from left to right. -/
def Sorted (l : List (κ × α)) : Prop := l.Pairwise fun a b => compare a.1 b.1 = .lt

/-- Binds `k` to `v`, in place of an older binding of `k`. -/
def insert (k : κ) (v : α) : List (κ × α) → List (κ × α)
  | [] => [(k, v)]
  | (k', v') :: rest =>
    match compare k k' with
    | .lt => (k, v) :: (k', v') :: rest
    | .eq => (k, v) :: rest
    | .gt => (k', v') :: insert k v rest

/-- Drops the binding of `k`. -/
def erase (k : κ) : List (κ × α) → List (κ × α)
  | [] => []
  | (k', v') :: rest =>
    match compare k k' with
    | .lt => (k', v') :: rest
    | .eq => rest
    | .gt => (k', v') :: erase k rest

/-- Applies `f` to the value bound to `k`. -/
def modify (k : κ) (f : α → α) : List (κ × α) → List (κ × α)
  | [] => []
  | (k', v') :: rest =>
    match compare k k' with
    | .lt => (k', v') :: rest
    | .eq => (k', f v') :: rest
    | .gt => (k', v') :: modify k f rest

/-- The value bound to `k`; the walk ends at the first larger key. -/
def find? (k : κ) : List (κ × α) → Option α
  | [] => none
  | (k', v') :: rest =>
    match compare k k' with
    | .lt => none
    | .eq => some v'
    | .gt => find? k rest

/-- What is in the list after an insertion was inserted or was there. -/
theorem mem_insert {k : κ} {v : α} {l : List (κ × α)} {p : κ × α} (h : p ∈ insert k v l) :
    p = (k, v) ∨ p ∈ l := by
  induction l with
  | nil => simp_all [insert]
  | cons q rest ih =>
    obtain ⟨k', v'⟩ := q
    simp only [insert] at h
    split at h
    · exact List.mem_cons.1 h
    · exact (List.mem_cons.1 h).imp_right (List.mem_cons_of_mem _)
    · rcases List.mem_cons.1 h with rfl | h
      · exact .inr List.mem_cons_self
      · exact (ih h).imp_right (List.mem_cons_of_mem _)

/-- Erasing brings nothing in. -/
theorem mem_erase {k : κ} {l : List (κ × α)} {p : κ × α} (h : p ∈ erase k l) : p ∈ l := by
  induction l with
  | nil => simp_all [erase]
  | cons q rest ih =>
    obtain ⟨k', v'⟩ := q
    simp only [erase] at h
    split at h
    · exact h
    · exact List.mem_cons_of_mem _ h
    · rcases List.mem_cons.1 h with rfl | h
      · exact List.mem_cons_self
      · exact List.mem_cons_of_mem _ (ih h)

/-- Modifying a value leaves the keys alone. -/
theorem map_fst_modify (k : κ) (f : α → α) (l : List (κ × α)) :
    (modify k f l).map Prod.fst = l.map Prod.fst := by
  induction l with
  | nil => rfl
  | cons q rest ih =>
    obtain ⟨k', v'⟩ := q
    simp only [modify]
    split <;> simp [ih]

/-- Sortedness is a matter of the keys alone. -/
theorem sorted_iff_keys {l : List (κ × α)} :
    Sorted l ↔ (l.map Prod.fst).Pairwise fun a b => compare a b = .lt := by
  simp [Sorted, List.pairwise_map]

/-- Modified lists stay in order. -/
theorem Sorted.modify {k : κ} {f : α → α} {l : List (κ × α)} (h : Sorted l) :
    Sorted (modify k f l) := by
  rw [sorted_iff_keys, map_fst_modify]
  exact sorted_iff_keys.1 h

/-- Erasing leaves the rest in order. -/
theorem Sorted.erase {k : κ} {l : List (κ × α)} (h : Sorted l) : Sorted (erase k l) := by
  induction l with
  | nil => exact h
  | cons q rest ih =>
    obtain ⟨k', v'⟩ := q
    obtain ⟨hq, hr⟩ := List.pairwise_cons.1 h
    simp only [OrdList.erase]
    split
    · exact h
    · exact hr
    · exact List.pairwise_cons.2 ⟨fun p hp => hq p (mem_erase hp), ih hr⟩

/-- Insertion keeps the order. -/
theorem Sorted.insert [TransOrd κ] [LawfulEqOrd κ] {k : κ} {v : α} {l : List (κ × α)}
    (h : Sorted l) : Sorted (insert k v l) := by
  induction l with
  | nil => simp [OrdList.insert, Sorted]
  | cons q rest ih =>
    obtain ⟨k', v'⟩ := q
    obtain ⟨hq, hr⟩ := List.pairwise_cons.1 h
    simp only [OrdList.insert]
    split
    · rename_i hlt
      refine List.pairwise_cons.2 ⟨fun p hp => ?_, h⟩
      rcases List.mem_cons.1 hp with rfl | hp
      · exact hlt
      · exact Std.TransCmp.lt_trans hlt (hq p hp)
    · rename_i heq
      have hk : k = k' := Std.LawfulEqCmp.eq_of_compare heq
      subst hk
      exact List.pairwise_cons.2 ⟨fun p hp => hq p hp, hr⟩
    · rename_i hgt
      have hlt : compare k' k = .lt := Std.OrientedCmp.gt_iff_lt.1 hgt
      refine List.pairwise_cons.2 ⟨fun p hp => ?_, ih hr⟩
      rcases mem_insert hp with rfl | hp
      · exact hlt
      · exact hq p hp

/-- After an insertion the key leads to the new value, and other keys where they led. -/
theorem find?_insert [TransOrd κ] [LawfulEqOrd κ] (k k' : κ) (v : α) (l : List (κ × α)) :
    find? k' (insert k v l) = if compare k' k = .eq then some v else find? k' l := by
  induction l with
  | nil => simp only [insert, find?]; split <;> simp_all
  | cons q rest ih =>
    obtain ⟨j, w⟩ := q
    simp only [insert]
    split
    · rename_i hlt
      simp only [find?]
      cases hc : compare k' k with
      | lt => simp [Std.TransCmp.lt_trans hc hlt]
      | eq => simp
      | gt => simp
    · rename_i heq
      have hk : k = j := Std.LawfulEqCmp.eq_of_compare heq
      subst hk
      simp only [find?]
      cases hc : compare k' k <;> simp
    · rename_i hgt
      simp only [find?, ih]
      cases hc : compare k' j with
      | gt => rfl
      | lt =>
        have hlt : compare j k = .lt := Std.OrientedCmp.gt_iff_lt.1 hgt
        simp [Std.TransCmp.lt_trans hc hlt]
      | eq =>
        have hk : k' = j := Std.LawfulEqCmp.eq_of_compare hc
        subst hk
        have hlt : compare k' k = .lt := Std.OrientedCmp.gt_iff_lt.1 hgt
        simp [hlt]

/-- A key below all keys of the list is not found. -/
theorem find?_eq_none_of_lt [TransOrd κ] {k : κ} {l : List (κ × α)}
    (h : ∀ p ∈ l, compare k p.1 = .lt) : find? k l = none := by
  cases l with
  | nil => rfl
  | cons q rest => simp [find?, h q List.mem_cons_self]

/-- An erased key is not found, other keys lead where they led. -/
theorem find?_erase [TransOrd κ] [LawfulEqOrd κ] {l : List (κ × α)} (h : Sorted l) (k k' : κ) :
    find? k' (erase k l) = if compare k' k = .eq then none else find? k' l := by
  induction l with
  | nil => simp [erase, find?]
  | cons q rest ih =>
    obtain ⟨j, w⟩ := q
    obtain ⟨hq, hr⟩ := List.pairwise_cons.1 h
    simp only [erase]
    split
    · rename_i hlt
      by_cases hc : compare k' k = .eq
      · have hk : k' = k := Std.LawfulEqCmp.eq_of_compare hc
        subst hk
        simp [find?, hlt]
      · simp [hc]
    · rename_i heq
      have hk : k = j := Std.LawfulEqCmp.eq_of_compare heq
      subst hk
      cases hc : compare k' k with
      | lt =>
        simp only [find?, hc]
        exact find?_eq_none_of_lt fun p hp => Std.TransCmp.lt_trans hc (hq p hp)
      | eq =>
        have hk : k' = k := Std.LawfulEqCmp.eq_of_compare hc
        subst hk
        simpa using find?_eq_none_of_lt hq
      | gt => simp [find?, hc]
    · rename_i hgt
      simp only [find?, ih hr]
      cases hc : compare k' j with
      | gt => rfl
      | lt =>
        have hlt : compare j k = .lt := Std.OrientedCmp.gt_iff_lt.1 hgt
        simp [Std.TransCmp.lt_trans hc hlt]
      | eq =>
        have hk : k' = j := Std.LawfulEqCmp.eq_of_compare hc
        subst hk
        have hlt : compare k' k = .lt := Std.OrientedCmp.gt_iff_lt.1 hgt
        simp [hlt]

/-- The value under the key is changed, other keys lead where they led. -/
theorem find?_modify [TransOrd κ] [LawfulEqOrd κ] (k k' : κ) (f : α → α) (l : List (κ × α)) :
    find? k' (modify k f l) = if compare k' k = .eq then (find? k' l).map f else find? k' l := by
  induction l with
  | nil => simp [modify, find?]
  | cons q rest ih =>
    obtain ⟨j, w⟩ := q
    simp only [modify]
    split
    · rename_i hlt
      by_cases hc : compare k' k = .eq
      · have hk : k' = k := Std.LawfulEqCmp.eq_of_compare hc
        subst hk
        simp [find?, hlt]
      · simp [hc]
    · rename_i heq
      have hk : k = j := Std.LawfulEqCmp.eq_of_compare heq
      subst hk
      simp only [find?]
      cases hc : compare k' k <;> simp
    · rename_i hgt
      simp only [find?, ih]
      cases hc : compare k' j with
      | gt => rfl
      | lt => simp
      | eq =>
        have hk : k' = j := Std.LawfulEqCmp.eq_of_compare hc
        subst hk
        have hlt : compare k' k = .lt := Std.OrientedCmp.gt_iff_lt.1 hgt
        simp [hlt]

/-- A sorted list of bindings is determined by its look-ups. -/
theorem eq_of_find?_eq [TransOrd κ] [LawfulEqOrd κ] {l m : List (κ × α)} (hl : Sorted l)
    (hm : Sorted m) (h : ∀ k, find? k l = find? k m) : l = m := by
  induction l generalizing m with
  | nil =>
    cases m with
    | nil => rfl
    | cons q rest => simpa [find?] using h q.1
  | cons p ps ih =>
    obtain ⟨hp, hps⟩ := List.pairwise_cons.1 hl
    cases m with
    | nil => simpa [find?] using h p.1
    | cons q qs =>
      obtain ⟨hq, hqs⟩ := List.pairwise_cons.1 hm
      have hpq : compare p.1 q.1 = .eq := by
        cases hc : compare p.1 q.1 with
        | lt => simpa [find?, hc] using h p.1
        | eq => rfl
        | gt =>
          have hlt : compare q.1 p.1 = .lt := Std.OrientedCmp.gt_iff_lt.1 hc
          simpa [find?, hlt] using h q.1
      have hk : p.1 = q.1 := Std.LawfulEqCmp.eq_of_compare hpq
      have hv : p.2 = q.2 := by simpa [find?, hk] using h p.1
      have hhead : p = q := Prod.ext hk hv
      subst hhead
      rw [ih hps hqs fun k => ?_]
      cases hc : compare k p.1 with
      | gt => simpa [find?, hc] using h k
      | lt =>
        rw [find?_eq_none_of_lt fun r hr => Std.TransCmp.lt_trans hc (hp r hr),
          find?_eq_none_of_lt fun r hr => Std.TransCmp.lt_trans hc (hq r hr)]
      | eq =>
        have hk : k = p.1 := Std.LawfulEqCmp.eq_of_compare hc
        subst hk
        rw [find?_eq_none_of_lt hp, find?_eq_none_of_lt hq]

end OrdList

/-- A finite map, walked in the order of its keys. -/
structure OrdMap (κ α : Type) [Ord κ] where
  /-- The bindings in key order. -/
  entries : List (κ × α)
  /-- Keys strictly increase. -/
  sorted : OrdList.Sorted entries

/-- A finite set, walked in order. -/
abbrev OrdSet (κ : Type) [Ord κ] := OrdMap κ Unit

namespace OrdMap

variable {κ α : Type} [Ord κ]

/-- The map without bindings. -/
def empty : OrdMap κ α := ⟨[], List.Pairwise.nil⟩

instance : Inhabited (OrdMap κ α) := ⟨empty⟩

instance : EmptyCollection (OrdMap κ α) := ⟨empty⟩

/-- Two maps with the same bindings are the same map. -/
@[ext] theorem ext {m n : OrdMap κ α} (h : m.entries = n.entries) : m = n := by
  cases m; cases n; simp_all

instance [DecidableEq κ] [DecidableEq α] : DecidableEq (OrdMap κ α) := fun m n =>
  if h : m.entries = n.entries then isTrue (ext h) else isFalse fun e => h (e ▸ rfl)

/-- The value bound to `k`. -/
def find? (m : OrdMap κ α) (k : κ) : Option α := OrdList.find? k m.entries

/-- Whether `k` is bound. -/
def contains (m : OrdMap κ α) (k : κ) : Bool := (m.find? k).isSome

/-- Binds `k` to `v`, in place of an older binding of `k`. -/
def insert [TransOrd κ] [LawfulEqOrd κ] (m : OrdMap κ α) (k : κ) (v : α) : OrdMap κ α :=
  ⟨OrdList.insert k v m.entries, m.sorted.insert⟩

/-- Drops the binding of `k`. -/
def erase (m : OrdMap κ α) (k : κ) : OrdMap κ α := ⟨OrdList.erase k m.entries, m.sorted.erase⟩

/-- Applies `f` to the value bound to `k`; nothing changes when `k` is not bound. -/
def modify (m : OrdMap κ α) (k : κ) (f : α → α) : OrdMap κ α :=
  ⟨OrdList.modify k f m.entries, m.sorted.modify⟩

/-- The number of bindings. -/
def size (m : OrdMap κ α) : Nat := m.entries.length

/-- Whether there is no binding. -/
def isEmpty (m : OrdMap κ α) : Bool := m.entries.isEmpty

/-- The keys in order. -/
def keys (m : OrdMap κ α) : List κ := m.entries.map Prod.fst

/-- The values in the order of their keys. -/
def values (m : OrdMap κ α) : List α := m.entries.map Prod.snd

/-- After a binding of `k`, `k` has the new value and every other key its old one. -/
@[simp] theorem find?_insert [TransOrd κ] [LawfulEqOrd κ] (m : OrdMap κ α) (k k' : κ) (v : α) :
    (m.insert k v).find? k' = if compare k' k = .eq then some v else m.find? k' :=
  OrdList.find?_insert k k' v m.entries

/-- After `k` is dropped, only the look-up of `k` has changed. -/
@[simp] theorem find?_erase [TransOrd κ] [LawfulEqOrd κ] (m : OrdMap κ α) (k k' : κ) :
    (m.erase k).find? k' = if compare k' k = .eq then none else m.find? k' :=
  OrdList.find?_erase m.sorted k k'

/-- `modify` reaches the value of its own key only. -/
@[simp] theorem find?_modify [TransOrd κ] [LawfulEqOrd κ] (m : OrdMap κ α) (k k' : κ)
    (f : α → α) :
    (m.modify k f).find? k' = if compare k' k = .eq then (m.find? k').map f else m.find? k' :=
  OrdList.find?_modify k k' f m.entries

/-- Maps that answer every look-up alike are equal. -/
theorem ext_find? [TransOrd κ] [LawfulEqOrd κ] {m n : OrdMap κ α}
    (h : ∀ k, m.find? k = n.find? k) : m = n :=
  ext (OrdList.eq_of_find?_eq m.sorted n.sorted h)

/-- The map with these bindings, a later one of a key in place of an earlier one. -/
def ofList [TransOrd κ] [LawfulEqOrd κ] (l : List (κ × α)) : OrdMap κ α :=
  l.foldl (fun m p => m.insert p.1 p.2) empty

end OrdMap

namespace OrdSet

variable {κ : Type} [Ord κ]

/-- Adds a member. -/
def add [TransOrd κ] [LawfulEqOrd κ] (s : OrdSet κ) (k : κ) : OrdSet κ := OrdMap.insert s k ()

/-- The set of the members of a list. -/
def ofList [TransOrd κ] [LawfulEqOrd κ] (l : List κ) : OrdSet κ := l.foldl add OrdMap.empty

/-- The members in order. -/
def members (s : OrdSet κ) : List κ := OrdMap.keys s

/-- The least member. -/
def least? (s : OrdSet κ) : Option κ := (members s).head?

end OrdSet

end ScriptMachine
