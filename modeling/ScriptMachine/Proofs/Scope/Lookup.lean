import ScriptMachine.Proofs.OrdMap
import ScriptMachine.Scope.Tree

/-!
# Looking into a changed tree

Where a look-up leads after one part of the tree was changed: to the changed part if it was asked
for, and else to where it led before.
-/

namespace ScriptMachine

/-- The three numbers make the id. -/
theorem ScopeId.ext {a b : ScopeId} (hglobal : a.global = b.global) (hhub : a.hub = b.hub)
    (hmap : a.map = b.map) : a = b := by
  cases a
  cases b
  simp_all

namespace ScopeTree

variable (s : ScopeTree)

/-- One hub changes and the others stay. -/
theorem hub?_modifyHub (g h g' h' : Word) (f : HubScope → HubScope) :
    (s.modifyHub g h f).hub? g' h' =
      if g' = g ∧ h' = h then (s.hub? g h).map f else s.hub? g' h' := by
  simp only [hub?, global?, modifyHub, modifyGlobal, OrdMap.find?_modify,
    Std.LawfulEqOrd.compare_eq_iff_eq]
  by_cases hg : g' = g
  · subst hg
    rw [if_pos rfl]
    cases s.globals.find? g' with
    | none => simp
    | some x =>
      simp only [Option.map_some, Option.bind_eq_bind, Option.bind_some, OrdMap.find?_modify,
        Std.LawfulEqOrd.compare_eq_iff_eq, true_and]
      split
      · rename_i hh
        rw [hh]
      · rfl
  · rw [if_neg hg, if_neg (fun h => hg h.1)]

/-- One map changes and the others stay. -/
theorem map?_modifyMap (id id' : ScopeId) (f : MapScope → MapScope) :
    (s.modifyMap id f).map? id' = if id' = id then (s.map? id).map f else s.map? id' := by
  simp only [map?, modifyMap, hub?_modifyHub]
  by_cases hgh : id'.global = id.global ∧ id'.hub = id.hub
  · rw [if_pos hgh, hgh.1, hgh.2]
    cases s.hub? id.global id.hub with
    | none => simp
    | some x =>
      simp only [Option.map_some, Option.bind_eq_bind, Option.bind_some, OrdMap.find?_modify,
        Std.LawfulEqOrd.compare_eq_iff_eq]
      by_cases hm : id'.map = id.map
      · rw [if_pos hm, if_pos (ScopeId.ext hgh.1 hgh.2 hm), hm]
      · rw [if_neg hm, if_neg (by rintro rfl; exact hm rfl)]
  · rw [if_neg hgh, if_neg (by rintro rfl; exact hgh ⟨rfl, rfl⟩)]

/-- Hubs whose maps are left alone lead to the same maps. -/
theorem map?_modifyHub_of_maps {g h : Word} {f : HubScope → HubScope}
    (hf : ∀ x, (f x).maps = x.maps) (id : ScopeId) : (s.modifyHub g h f).map? id = s.map? id := by
  simp only [map?, hub?_modifyHub]
  split
  · rename_i hgh
    rw [hgh.1, hgh.2]
    cases s.hub? g h <;> simp [hf]
  · rfl

/-- Global scopes whose hubs are left alone lead to the same maps. -/
theorem map?_modifyGlobal_of_hubs {g : Word} {f : GlobalScope → GlobalScope}
    (hf : ∀ x, (f x).hubs = x.hubs) (id : ScopeId) : (s.modifyGlobal g f).map? id = s.map? id := by
  simp only [map?, hub?, global?, modifyGlobal, OrdMap.find?_modify,
    Std.LawfulEqOrd.compare_eq_iff_eq]
  split
  · cases s.globals.find? id.global <;> simp [hf]
  · rfl

/-- A hub of a changed global scope. -/
theorem hub?_modifyGlobal (g g' h' : Word) (f : GlobalScope → GlobalScope) :
    (s.modifyGlobal g f).hub? g' h' =
      if g' = g then (s.global? g).bind fun x => (f x).hubs.find? h' else s.hub? g' h' := by
  simp only [hub?, global?, modifyGlobal, OrdMap.find?_modify, Std.LawfulEqOrd.compare_eq_iff_eq]
  split
  · rename_i hg
    subst hg
    cases s.globals.find? g' <;> rfl
  · rfl

/-- What holds of all maps goes on to hold where one of them changes. -/
theorem forall_modifyMap {s : ScopeTree} {k : ScopeId} {f : MapScope → MapScope}
    {P : ScopeId → MapScope → Prop} (h : ∀ id map, s.map? id = some map → P id map)
    (hf : ∀ map, s.map? k = some map → P k (f map)) :
    ∀ id map, (s.modifyMap k f).map? id = some map → P id map := by
  intro id map' hmap'
  rw [map?_modifyMap] at hmap'
  split at hmap'
  · rename_i hid
    obtain ⟨map, hmap, rfl⟩ := Option.map_eq_some_iff.1 hmap'
    exact hid ▸ hf map hmap
  · exact h id map' hmap'

/-- The way to a map. -/
theorem exists_of_map? {s : ScopeTree} {id : ScopeId} {map : MapScope} (h : s.map? id = some map) :
    ∃ global hub, s.globals.find? id.global = some global ∧ global.hubs.find? id.hub = some hub ∧
      hub.maps.find? id.map = some map := by
  obtain ⟨hub, hhub, hmap⟩ := Option.bind_eq_some_iff.1 h
  obtain ⟨global, hglobal, hhub⟩ := Option.bind_eq_some_iff.1 hhub
  exact ⟨global, hub, hglobal, hhub, hmap⟩

/-- A map that is looked up is among all maps. -/
theorem mem_maps {s : ScopeTree} {id : ScopeId} {map : MapScope} (h : s.map? id = some map) :
    map ∈ s.maps := by
  obtain ⟨global, hub, hglobal, hhub, hmap⟩ := exists_of_map? h
  refine List.mem_flatMap.2 ⟨global, OrdMap.mem_values.2 ⟨_, hglobal⟩, ?_⟩
  exact List.mem_flatMap.2 ⟨hub, OrdMap.mem_values.2 ⟨_, hhub⟩, OrdMap.mem_values.2 ⟨_, hmap⟩⟩

/-- A module scope is found in its map. -/
theorem module?_eq (id : ScopeId) (i : Nat) :
    s.module? id i = (s.map? id).bind fun m => m.modules[i]? := rfl

/-- A change of variables is seen by no map but the one it is in, and there only by the module
scope. -/
theorem map?_modifyVars (level : Level) (id : ScopeId) (i : Nat) (f : Vars → Vars) (id' : ScopeId) :
    (s.modifyVars level id i f).map? id' =
      if level = .module ∧ id' = id then
        (s.map? id).map fun m => m.modifyModule i fun x => { x with vars := f x.vars }
      else s.map? id' := by
  cases level with
  | thread => simp [modifyVars]
  | module => simp [modifyVars, modifyModule, map?_modifyMap]
  | hub => simp [modifyVars, map?_modifyHub_of_maps]
  | global => simp [modifyVars, map?_modifyGlobal_of_hubs]

/-! ## Scopes that come and go -/

variable {s} {id : ScopeId} {map : MapScope}

/-- Without a global scope its maps are gone. -/
theorem map?_eraseGlobal (g : Word) (id : ScopeId) :
    (ScopeTree.mk (s.globals.erase g)).map? id = if id.global = g then none else s.map? id := by
  simp only [map?, hub?, global?, OrdMap.find?_erase]
  by_cases hg : id.global = g
  · simp [hg]
  · simp [hg]

/-- Without a hub its maps are gone. -/
theorem map?_eraseHub (g k : Word) (id : ScopeId) :
    (s.modifyGlobal g fun x => { x with hubs := x.hubs.erase k }).map? id =
      if id.global = g ∧ id.hub = k then none else s.map? id := by
  simp only [map?, hub?_modifyGlobal]
  by_cases hg : id.global = g
  · rw [if_pos hg, hub?, hg]
    cases s.global? g with
    | none => simp
    | some x =>
      by_cases hk : id.hub = k
      · simp [hk, OrdMap.find?_erase]
      · simp [hk, OrdMap.find?_erase]
  · simp [hg]

/-- One map is gone. -/
theorem map?_eraseMap (k id : ScopeId) :
    (s.modifyHub k.global k.hub fun x => { x with maps := x.maps.erase k.map }).map? id =
      if id = k then none else s.map? id := by
  simp only [map?, hub?_modifyHub]
  by_cases hgh : id.global = k.global ∧ id.hub = k.hub
  · rw [if_pos hgh, hgh.1, hgh.2]
    cases s.hub? k.global k.hub with
    | none => simp
    | some x =>
      simp only [Option.map_some, Option.bind_eq_bind, Option.bind_some, OrdMap.find?_erase,
        Std.LawfulEqOrd.compare_eq_iff_eq]
      by_cases hm : id.map = k.map
      · rw [if_pos hm, if_pos (ScopeId.ext hgh.1 hgh.2 hm)]
      · rw [if_neg hm, if_neg (by rintro rfl; exact hm rfl)]
  · rw [if_neg hgh, if_neg (by rintro rfl; exact hgh ⟨rfl, rfl⟩)]

/-- Maps that are left without a global scope were there. -/
theorem map?_of_eraseGlobal {g : Word}
    (h : (ScopeTree.mk (s.globals.erase g)).map? id = some map) : s.map? id = some map := by
  rw [map?_eraseGlobal] at h
  split at h
  · cases h
  · exact h

/-- Maps that are left without a hub were there. -/
theorem map?_of_eraseHub {g k : Word}
    (h : (s.modifyGlobal g fun x => { x with hubs := x.hubs.erase k }).map? id = some map) :
    s.map? id = some map := by
  rw [map?_eraseHub] at h
  split at h
  · cases h
  · exact h

/-- Maps that are left without one of them were there. -/
theorem map?_of_eraseMap {k : ScopeId}
    (h : (s.modifyHub k.global k.hub fun x => { x with maps := x.maps.erase k.map }).map? id =
      some map) : s.map? id = some map := by
  rw [map?_eraseMap] at h
  split at h
  · cases h
  · exact h

/-- A new global scope has no maps. -/
theorem map?_insertGlobal {g : Word} {vars : Vars} (h : s.global? g = none) (id : ScopeId) :
    (ScopeTree.mk (s.globals.insert g { vars })).map? id = s.map? id := by
  simp only [map?, hub?, global?, OrdMap.find?_insert, Std.LawfulEqOrd.compare_eq_iff_eq] at h ⊢
  by_cases hg : id.global = g
  · simp [hg, h]
  · simp [hg]

/-- A new hub has no maps. -/
theorem map?_insertHub {g k : Word} {vars : Vars} (h : s.hub? g k = none) (id : ScopeId) :
    (s.modifyGlobal g fun x => { x with hubs := x.hubs.insert k { vars } }).map? id = s.map? id := by
  simp only [map?, hub?_modifyGlobal]
  by_cases hg : id.global = g
  · rw [if_pos hg, hub?, hg]
    rw [hub?] at h
    cases hglobal : s.global? g with
    | none => simp
    | some x =>
      rw [hglobal] at h
      by_cases hk : id.hub = k
      · have hnone : x.hubs.find? k = none := h
        simp [hk, OrdMap.find?_insert, hnone]
      · simp [hk, OrdMap.find?_insert]
  · simp [hg]

/-- A new map is empty. -/
theorem map?_insertMap (k id : ScopeId) :
    (s.modifyHub k.global k.hub fun x => { x with maps := x.maps.insert k.map {} }).map? id =
      if id = k then (s.hub? k.global k.hub).map fun _ => {} else s.map? id := by
  simp only [map?, hub?_modifyHub]
  by_cases hgh : id.global = k.global ∧ id.hub = k.hub
  · rw [if_pos hgh, hgh.1, hgh.2]
    cases s.hub? k.global k.hub with
    | none => simp
    | some x =>
      simp only [Option.map_some, Option.bind_eq_bind, Option.bind_some, OrdMap.find?_insert,
        Std.LawfulEqOrd.compare_eq_iff_eq]
      by_cases hm : id.map = k.map
      · rw [if_pos hm, if_pos (ScopeId.ext hgh.1 hgh.2 hm)]
      · rw [if_neg hm, if_neg (by rintro rfl; exact hm rfl)]
  · rw [if_neg hgh, if_neg (by rintro rfl; exact hgh ⟨rfl, rfl⟩)]

/-- Maps were there before a global scope was new. -/
theorem map?_of_insertGlobal {g : Word} {vars : Vars}
    (h : (ScopeTree.mk (s.globals.insert g { vars })).map? id = some map) : s.map? id = some map := by
  simp only [map?, hub?, global?, OrdMap.find?_insert] at h ⊢
  split at h
  · simp at h
  · exact h

/-- Maps were there before a hub was new. -/
theorem map?_of_insertHub {g k : Word} {vars : Vars}
    (h : (s.modifyGlobal g fun x => { x with hubs := x.hubs.insert k { vars } }).map? id = some map) :
    s.map? id = some map := by
  simp only [map?, hub?_modifyGlobal] at h ⊢
  split at h
  · rename_i hg
    rw [hg, hub?]
    cases hglobal : s.global? g with
    | none => simp [hglobal] at h
    | some x =>
      simp only [hglobal, Option.bind_eq_bind, Option.bind_some, OrdMap.find?_insert] at h ⊢
      split at h
      · simp at h
      · exact h
  · exact h

/-- A map was there before, or is the new one. -/
theorem map?_of_insertMap {k : ScopeId}
    (h : (s.modifyHub k.global k.hub fun x =>
      { x with maps := x.maps.insert k.map {} }).map? id = some map) :
    s.map? id = some map ∨ map = {} := by
  rw [map?_insertMap] at h
  split at h
  · obtain ⟨_, -, rfl⟩ := Option.map_eq_some_iff.1 h
    exact .inr rfl
  · exact .inl h

end ScopeTree

end ScriptMachine
