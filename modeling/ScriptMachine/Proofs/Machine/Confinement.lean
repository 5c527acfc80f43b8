import ScriptMachine.Proofs.Machine.Conduct
import ScriptMachine.Proofs.Machine.Managed
import ScriptMachine.Proofs.Machine.Seats
import ScriptMachine.Proofs.Machine.Settled

/-!
# Scripts touch only their own path

A thread sees the scopes on the path from its global scope to its map, and nothing else in the tree.
`ScopeTree.Confined` says that two trees differ at most in the variables on a path and within the map at
its end.  Turns of threads that call built-in functions only are confined to the paths of their threads
(`Plays.confined`), with all turns within them, and so is what the scheduler does with the threads of a
map (`confined_visit`).  Hence a tick leaves maps alone that it does not visit (`map?_exec`).
-/

namespace ScriptMachine

namespace ScopeTree

variable {scope : ScopeId} {s s' s'' : ScopeTree}

/-- One global scope changes and the others stay. -/
theorem global?_modifyGlobal (s : ScopeTree) (g g' : Word) (f : GlobalScope → GlobalScope) :
    (s.modifyGlobal g f).global? g' = if g' = g then (s.global? g).map f else s.global? g' := by
  simp only [global?, modifyGlobal, OrdMap.find?_modify, Std.LawfulEqOrd.compare_eq_iff_eq]
  split
  · rename_i hg
    rw [hg]
  · rfl

/-- The trees differ at most in the variables on the path to a map and in what the map holds.  No scope
came, went, or was turned on or off. -/
structure Confined (scope : ScopeId) (s s' : ScopeTree) : Prop where
  globals : ∀ g, g ≠ scope.global → s'.global? g = s.global? g
  hubs : ∀ h, h ≠ scope.hub → s'.hub? scope.global h = s.hub? scope.global h
  maps : ∀ k, k ≠ scope.map → s'.map? { scope with map := k } = s.map? { scope with map := k }
  globalActive : (s'.global? scope.global).map (·.active) = (s.global? scope.global).map (·.active)
  hubActive : (s'.hub? scope.global scope.hub).map (·.active) =
    (s.hub? scope.global scope.hub).map (·.active)
  mapActive : (s'.map? scope).map (·.active) = (s.map? scope).map (·.active)

namespace Confined

/-- A tree that stays as it is is confined to any path. -/
theorem refl (scope : ScopeId) (s : ScopeTree) : Confined scope s s :=
  ⟨fun _ _ => rfl, fun _ _ => rfl, fun _ _ => rfl, rfl, rfl, rfl⟩

theorem trans (h : Confined scope s s') (h' : Confined scope s' s'') : Confined scope s s'' where
  globals g hg := (h'.globals g hg).trans (h.globals g hg)
  hubs k hk := (h'.hubs k hk).trans (h.hubs k hk)
  maps k hk := (h'.maps k hk).trans (h.maps k hk)
  globalActive := h'.globalActive.trans h.globalActive
  hubActive := h'.hubActive.trans h.hubActive
  mapActive := h'.mapActive.trans h.mapActive

/-- Every other map is as it was. -/
theorem map?_eq (h : Confined scope s s') {id : ScopeId} (hid : id ≠ scope) : s'.map? id = s.map? id := by
  by_cases hg : id.global = scope.global
  · by_cases hk : id.hub = scope.hub
    · have hm : id.map ≠ scope.map := fun hm => hid (ScopeId.ext hg hk hm)
      have heq : id = { scope with map := id.map } := ScopeId.ext hg hk rfl
      rw [heq]
      exact h.maps id.map hm
    · rw [map?, map?, hg, h.hubs id.hub hk]
  · rw [map?, map?, hub?, hub?, h.globals id.global hg]

/-- Whether a map is visited by the scheduler does not change. -/
theorem isActive_eq (h : Confined scope s s') (id : ScopeId) : s'.isActive id = s.isActive id := by
  have hflags : ∀ s : ScopeTree, s.isActive id = ((((s.global? id.global).map (·.active)).bind fun g =>
      ((s.hub? id.global id.hub).map (·.active)).bind fun k => ((s.map? id).map (·.active)).map fun m =>
        g && k && m).getD false) := by
    intro s
    simp only [isActive, map?, hub?]
    cases s.global? id.global with
    | none => rfl
    | some x =>
      simp only [Option.bind_eq_bind, Option.bind_some, Option.map_some]
      cases x.hubs.find? id.hub with
      | none => rfl
      | some y =>
        simp only [Option.bind_some, Option.map_some]
        cases y.maps.find? id.map <;> rfl
  have hglobal : (s'.global? id.global).map (·.active) = (s.global? id.global).map (·.active) := by
    by_cases hg : id.global = scope.global
    · rw [hg]
      exact h.globalActive
    · rw [h.globals id.global hg]
  have hhub : (s'.hub? id.global id.hub).map (·.active) = (s.hub? id.global id.hub).map (·.active) := by
    by_cases hg : id.global = scope.global
    · rw [hg]
      by_cases hk : id.hub = scope.hub
      · rw [hk]
        exact h.hubActive
      · rw [h.hubs id.hub hk]
    · rw [hub?, hub?, h.globals id.global hg]
  have hmap : (s'.map? id).map (·.active) = (s.map? id).map (·.active) := by
    by_cases hid : id = scope
    · rw [hid]
      exact h.mapActive
    · rw [h.map?_eq hid]
  rw [hflags, hflags, hglobal, hhub, hmap]

end Confined

/-- The map at the end of the path changes, but for its flag. -/
theorem confined_modifyMap {f : MapScope → MapScope}
    (hf : ∀ x, s.map? scope = some x → (f x).active = x.active) :
    Confined scope s (s.modifyMap scope f) := by
  refine ⟨fun g hg => ?_, fun k hk => ?_, fun k hk => ?_, ?_, ?_, ?_⟩
  · rw [modifyMap, modifyHub, global?_modifyGlobal, if_neg hg]
  · rw [modifyMap, hub?_modifyHub, if_neg fun h => hk h.2]
  · rw [map?_modifyMap, if_neg fun h => hk (congrArg ScopeId.map h)]
  · rw [modifyMap, modifyHub, global?_modifyGlobal, if_pos rfl, Option.map_map]
    rfl
  · rw [modifyMap, hub?_modifyHub, if_pos ⟨rfl, rfl⟩, Option.map_map]
    rfl
  · rw [map?_modifyMap, if_pos rfl, Option.map_map]
    cases hmap : s.map? scope with
    | none => rfl
    | some x => exact congrArg some (hf x hmap)

/-- Variables on the path of a map are on its path. -/
theorem confined_modifyVars (s : ScopeTree) (level : Level) (scope : ScopeId) (i : Nat) (f : Vars → Vars) :
    Confined scope s (s.modifyVars level scope i f) := by
  cases level with
  | thread => exact .refl scope s
  | module => exact confined_modifyMap fun _ _ => rfl
  | hub =>
    have hmap : ∀ id, (s.modifyVars .hub scope i f).map? id = s.map? id := fun id =>
      (map?_modifyVars s .hub scope i f id).trans (if_neg fun h => by cases h.1)
    refine ⟨fun g hg => ?_, fun k hk => ?_, fun k _ => hmap _, ?_, ?_, ?_⟩
    · rw [modifyVars, modifyHub, global?_modifyGlobal, if_neg hg]
    · rw [modifyVars, hub?_modifyHub, if_neg fun h => hk h.2]
    · rw [modifyVars, modifyHub, global?_modifyGlobal, if_pos rfl, Option.map_map]
      rfl
    · rw [modifyVars, hub?_modifyHub, if_pos ⟨rfl, rfl⟩, Option.map_map]
      rfl
    · rw [hmap]
  | global =>
    have hhub : ∀ k, (s.modifyVars .global scope i f).hub? scope.global k = s.hub? scope.global k := by
      intro k
      rw [modifyVars, hub?_modifyGlobal, if_pos rfl]
      rfl
    refine ⟨fun g hg => ?_, fun k _ => hhub k, fun k _ => ?_, ?_, ?_, ?_⟩
    · rw [modifyVars, global?_modifyGlobal, if_neg hg]
    · rw [map?, map?, hhub]
    · rw [modifyVars, global?_modifyGlobal, if_pos rfl, Option.map_map]
      rfl
    · rw [hhub]
    · rw [map?, map?, hhub]

end ScopeTree

/-- The map without the variables of its modules. -/
def MapScope.bare (m : MapScope) : MapScope :=
  { m with modules := m.modules.map fun s => { s with vars := {} } }

/-- Variables of a module scope do not show in the bare map. -/
theorem MapScope.bare_modifyVars (m : MapScope) (i : Nat) (f : Vars → Vars) :
    (m.modifyModule i fun s => { s with vars := f s.vars }).bare = m.bare := by
  have hmodules : (m.modifyModule i fun s => { s with vars := f s.vars }).bare.modules =
      m.bare.modules := by
    refine List.ext_getElem? fun n => ?_
    simp only [bare, modifyModule, List.getElem?_map, List.getElem?_modify]
    cases m.modules[n]? with
    | none => rfl
    | some s =>
      simp only [Option.map_eq_map, Option.map_some]
      split <;> rfl
  simp only [bare, modifyModule] at hmodules ⊢
  rw [hmodules]

/-- Variables do not matter to the threads of a map. -/
theorem MapScope.bare_modifyThreads (m : MapScope) (i : Nat) (f : List Thread → List Thread) :
    (m.modifyModule i fun s => { s with threads := f s.threads }).bare =
      m.bare.modifyModule i fun s => { s with threads := f s.threads } := by
  have hmodules : (m.modifyModule i fun s => { s with threads := f s.threads }).bare.modules =
      (m.bare.modifyModule i fun s => { s with threads := f s.threads }).modules := by
    refine List.ext_getElem? fun n => ?_
    simp only [bare, modifyModule, List.getElem?_map, List.getElem?_modify]
    cases m.modules[n]? with
    | none => rfl
    | some s =>
      simp only [Option.map_eq_map, Option.map_some]
      split <;> rfl
  simp only [bare, modifyModule] at hmodules ⊢
  rw [hmodules]

/-- What is put in the place of a thread covers what was put there before. -/
theorem MapScope.bare_replace {m m' : MapScope} {i j : Nat} {t : Thread}
    (h : m'.bare =
      (m.modifyModule i fun s => { s with threads := s.threads.modify j fun _ => t }).bare) (v : Thread) :
    (m'.modifyModule i fun s => { s with threads := s.threads.modify j fun _ => v }).bare =
      (m.modifyModule i fun s => { s with threads := s.threads.modify j fun _ => v }).bare := by
  rw [bare_modifyThreads m' i (·.modify j fun _ => v), h,
    bare_modifyThreads m i (·.modify j fun _ => t), bare_modifyThreads m i (·.modify j fun _ => v)]
  simp only [modifyModule, List.modify_modify_eq, Function.comp_def]

/-- Maps that are bare alike have the same threads. -/
theorem MapScope.threads_of_bare {m m' : MapScope} (h : m'.bare = m.bare) {i : Nat} {s : ModuleScope}
    (hs : m.modules[i]? = some s) : ∃ s', m'.modules[i]? = some s' ∧ s'.threads = s.threads := by
  have hi : (m'.modules[i]?).map (·.threads) = (m.modules[i]?).map (·.threads) := by
    have hmodules := congrArg (fun x => (x.modules[i]?).map (·.threads)) h
    simpa [bare, Function.comp_def] using hmodules
  rw [hs] at hi
  exact Option.map_eq_some_iff.1 hi

namespace Machine

open Thread ScopeTree

variable {m m' m'' : Machine} {t t' u : Thread} {scope : ScopeId} {i j : Nat}

/-! ## What scripts cannot change anywhere -/

/-- The registry, what the host gave, and the index, the content and the hash of every string are the
same. -/
structure SameStock (m m' : Machine) : Prop where
  modules : m'.modules = m.modules
  sources : m'.sources = m.sources
  tools : m'.tools = m.tools
  strings : StringTable.SameStrings m.strings m'.strings

theorem SameStock.refl (m : Machine) : m.SameStock m := ⟨rfl, rfl, rfl, .refl _⟩

theorem SameStock.trans (h : m.SameStock m') (h' : m'.SameStock m'') : m.SameStock m'' :=
  ⟨h'.modules.trans h.modules, h'.sources.trans h.sources, h'.tools.trans h.tools,
    h.strings.trans h'.strings⟩

/-- A report leaves the stock alone. -/
theorem sameStock_report (m : Machine) (k : Hook) (e : Event) : m.SameStock (m.report k e) := by
  unfold report
  split
  · exact ⟨rfl, rfl, rfl, .refl _⟩
  · exact .refl m

/-- Putting a thread back leaves the stock alone. -/
theorem sameStock_reattach (m : Machine) (scope : ScopeId) (i : Nat) (t : Thread) :
    m.SameStock (m.reattach scope i t) := by
  unfold reattach
  simp only
  split
  · exact ⟨rfl, rfl, rfl, .refl _⟩
  · have hlog : ∀ text, m.SameStock (m.log .debug text) := fun _ => ⟨rfl, rfl, rfl, .refl _⟩
    exact (hlog _).trans (sameStock_report ..)

/-- Requests leave the stock alone. -/
theorem Stirs.sameStock (h : m.Stirs m') : m.SameStock m' := by
  induction h with
  | refl m => exact .refl m
  | trans _ _ ih ih' => exact ih.trans ih'
  | aside m rng running h => exact ⟨rfl, rfl, rfl, h⟩
  | @spawn m map place scope i j args info takesName t hmap hplace ht hname =>
    rw [spawn_eq hmap hplace ht]
    simp only
    split
    · refine SameStock.trans ?_ (sameStock_report ..)
      exact ⟨rfl, rfl, rfl, .refl _⟩
    · exact ⟨rfl, rfl, rfl, .refl _⟩
  | _ => exact ⟨rfl, rfl, rfl, .refl _⟩

/-- Turns without host functions leave the stock alone. -/
theorem Acts.sameStock (h : Acts Never m t m' t') : m.SameStock m' := by
  induction h with
  | stir h => exact h.sameStock
  | proceed _ => exact .refl _
  | host h => exact h.elim
  | trans _ _ ih ih' => exact ih.trans ih'
  | result hmap hplace hv hname hu hid _ ih =>
    have hspawn := (Stirs.spawn hmap hplace hv hname).sameStock
    refine (hspawn.trans ?_).trans (sameStock_reattach ..)
    exact ⟨ih.modules, ih.sources, ih.tools, ih.strings⟩

/-! ## One map at a time -/

/-- A tree that is the same is confined. -/
theorem confined_of_scopes (h : m'.scopes = m.scopes) : Confined scope m.scopes m'.scopes :=
  h ▸ .refl _ _

/-- A module scope of a map is on its path. -/
theorem confined_modifyModule (m : Machine) (scope : ScopeId) (i : Nat) (f : ModuleScope → ModuleScope) :
    Confined scope m.scopes (m.scopes.modifyModule scope i f) :=
  confined_modifyMap fun _ _ => rfl

/-- A new thread is on the path of its map. -/
theorem confined_spawn (m : Machine) (scope : ScopeId) (i j : Nat) (args : List Word) (info : ThreadInfo)
    (takesName : Bool) : Confined scope m.scopes (m.spawn scope i j args info takesName).2.scopes := by
  unfold spawn
  split
  · exact .refl _ _
  · rename_i map hmap
    have hput : ∀ map' : MapScope, map'.active = map.active →
        Confined scope m.scopes (m.scopes.modifyMap scope fun _ => map') := by
      intro map' hactive
      refine confined_modifyMap fun x hx => ?_
      cases hmap.symm.trans hx
      exact hactive
    simp only
    split
    · exact hput _ rfl
    · split
      · exact hput _ rfl
      · -- whether the thread takes the name, and whether it is found
        split <;> split <;> first | (rw [report_scopes]; exact hput _ rfl) | exact hput _ rfl

/-- A start is on the path of its map. -/
theorem confined_startAt (m : Machine) (scope : ScopeId) (i j : Nat) (args : List Word)
    (info : ThreadInfo) (forced : Bool) :
    Confined scope m.scopes (m.startAt scope i j args info forced).2.scopes := by
  unfold startAt
  split
  · exact .refl _ _
  · split
    · exact .refl _ _
    · simp only
      split
      · exact confined_spawn ..
      · split
        · exact confined_spawn ..
        · split
          · rename_i t _ _ _
            have hset := confined_modifyModule m scope i fun s =>
              s.modifyThread t.id fun t => { t with state := .stopped }
            exact hset.trans (confined_spawn { m with scopes := _ } ..)
          · split
            · exact confined_modifyModule ..
            · exact .refl _ _

/-- States of scripts are on the path of their map. -/
theorem confined_setScriptState (m : Machine) (scope : ScopeId) (name : ScriptName)
    (state : ThreadState) : Confined scope m.scopes (m.setScriptState scope name state).2.scopes := by
  unfold setScriptState
  split
  · exact .refl _ _
  · split
    · exact .refl _ _
    · simp only
      split
      · exact confined_modifyModule ..
      · exact .refl _ _

/-- What is asked of a map is on its path. -/
theorem confined_comply (m : Machine) (scope : ScopeId) (q : Demand) :
    Confined scope m.scopes (m.comply scope q).scopes := by
  cases q with
  | start i j args info forced => exact confined_startAt ..
  | halt name pause => exact confined_setScriptState ..

/-- The thread that is put back is on the path of its map. -/
theorem confined_reattach (m : Machine) (scope : ScopeId) (i : Nat) (t : Thread) :
    Confined scope m.scopes (m.reattach scope i t).scopes := by
  rcases reattach_cases m scope i t with ⟨s, k, p, v, -, -, -, -, -, heq, -⟩ | ⟨-, -, hscopes, -⟩
  · rw [heq]
    exact confined_modifyModule ..
  · exact confined_of_scopes hscopes

/-- Works on a path are confined to it. -/
theorem Works.confined (h : Works scope m m') : Confined scope m.scopes m'.scopes := by
  induction h with
  | trans _ _ ih ih' => exact ih.trans ih'
  | vars m level i f => exact confined_modifyVars ..
  | _ => exact .refl _ _

/-- Work changes nothing of a map but its variables. -/
theorem Works.bare (h : Works scope m m') (id : ScopeId) :
    (m'.scopes.map? id).map MapScope.bare = (m.scopes.map? id).map MapScope.bare := by
  induction h with
  | trans _ _ ih ih' => exact ih'.trans ih
  | vars m level i f =>
    simp only [map?_modifyVars]
    split
    · rename_i hid
      rw [hid.2, Option.map_map]
      exact congrArg (Option.map · _) (funext fun map => map.bare_modifyVars i f)
    · rfl
  | _ => rfl

/-! ## Turns -/

/-- The thread that a start for a result takes out of the tree is at home. -/
theorem Settled.found {map : MapScope} {place : ModuleScope} {v : Thread} {args : List Word}
    {info : ThreadInfo} (hm : m.Settled) (hmap : m.scopes.map? scope = some map)
    (hplace : map.modules[i]? = some place)
    (hv : Thread.make? map.nextThreadId place.module scope i j args info = some v)
    (hu : (place.threads ++ [v]).find? (·.id == u.id) = some u) : u.Settled scope m.tick := by
  rcases List.mem_append.1 (List.mem_of_find?_eq_some hu) with hmem | hmem
  · exact hm scope map hmap place (List.mem_of_getElem? hplace) u hmem
  · rw [List.mem_singleton.1 hmem]
    exact .of_make? hv

/-- Turns leave threads settled. -/
theorem Plays.settled (h : Plays m t m' t') (hm : m.Settled) (ht : t.lastTick ≤ m.tick) :
    m'.tick = m.tick ∧ m'.Settled := by
  have hstirs : ∀ {m m' : Machine}, m.Stirs m' → m.Settled → m'.tick = m.tick ∧ m'.Settled :=
    fun h hm => ⟨h.evolves.tick, hm.evolve h.evolves⟩
  induction h with
  | perform _ => exact ⟨rfl, hm⟩
  | aside => exact ⟨rfl, hm⟩
  | work _ h => exact hstirs h.stirs hm
  | ask _ q _ => exact hstirs (stirs_comply _ _ q) hm
  | trans h h' ih ih' =>
    obtain ⟨htick, hm₂⟩ := ih hm ht
    obtain ⟨htick', hm₃⟩ := ih' hm₂ (by rw [h.lastTick, htick]; exact ht)
    exact ⟨htick'.trans htick, hm₃⟩
  | stray _ hmap hslot hstray => exact hstirs (.stray hmap hslot hstray) hm
  | @result m m' t u u' v map place i j args info takesName _ hmap hplace hv hname hu hid h ih =>
    obtain ⟨htick, hspawned⟩ := hstirs (Stirs.spawn hmap hplace hv hname) hm
    have hdetached := hspawned.detach t.scope i (fun ts => ts.findIdx (·.id == u.id)) u.id
    obtain ⟨htick', hm'⟩ := ih hdetached (Nat.le_refl _)
    have hhome := hm.found hmap hplace hv hu
    have hu' : u'.Settled t.scope m'.tick := by
      refine ⟨?_, fun hreal => ?_⟩
      · rw [h.lastTick, htick']
        exact Nat.le_refl _
      · rw [h.same.isPlaceholder_eq] at hreal
        exact h.same.scope.trans (hhome.home hreal)
    have hback : Settled { m' with executing := m.executing } := hm'
    obtain ⟨hback, hsame⟩ := hback.reattach hu' i
    exact ⟨(hsame.trans htick').trans htick, hback⟩

/-- **A turn is confined** to the path of its thread, with all turns within it. -/
theorem Plays.confined (h : Plays m t m' t') (hm : m.Settled) (ht : t.lastTick ≤ m.tick) :
    Confined t.scope m.scopes m'.scopes := by
  induction h with
  | perform _ => exact .refl _ _
  | aside => exact .refl _ _
  | work _ h => exact h.confined
  | ask _ q _ => exact confined_comply ..
  | trans h h' ih ih' =>
    obtain ⟨htick, hm₂⟩ := h.settled hm ht
    have hrest := ih' hm₂ (by rw [h.lastTick, htick]; exact ht)
    rw [h.same.scope] at hrest
    exact (ih hm ht).trans hrest
  | stray _ hmap hslot hstray =>
    refine confined_modifyMap fun x hx => ?_
    cases hmap.symm.trans hx
    rfl
  | @result m m' t u u' v map place i j args info takesName _ hmap hplace hv hname hu hid h ih =>
    have hspawned := Stirs.spawn hmap hplace hv hname
    have hsettled : Settled (m.spawn t.scope i j args info takesName).2 := hm.evolve hspawned.evolves
    have hbegin : Confined t.scope m.scopes ((m.spawn t.scope i j args info takesName).2.detach t.scope i
        (fun ts => ts.findIdx (·.id == u.id)) u.id).scopes :=
      (confined_spawn ..).trans (confined_modifyModule ..)
    refine (hbegin.trans ?_).trans (confined_reattach { m' with executing := m.executing } ..)
    -- the thread that is found is at home, or it is a placeholder, which does nothing
    cases hreal : u.isPlaceholder with
    | true => exact confined_of_scopes (h.scopes_eq hreal)
    | false =>
      have hdetached := hsettled.detach t.scope i (fun ts => ts.findIdx (·.id == u.id)) u.id
      have hturn := ih hdetached (Nat.le_refl _)
      have hhome : u.scope = t.scope := (hm.found hmap hplace hv hu).home hreal
      exact hhome ▸ hturn

/-! ## Ticks -/

section

variable {fuel : Nat}

/-- **A visit is confined** to the path of the map it is made in. -/
theorem confined_visit {v : Visit} (hm : m.Settled)
    (h : m.visit (turn quietHost fuel) scope i j = some (v, m')) :
    Confined scope m.scopes m'.scopes ∧ m'.Settled ∧ m'.tick = m.tick := by
  obtain ⟨-, rfl, -⟩ | ⟨u, hu, -, ⟨-, -, rfl, -⟩ | ⟨hend, -, m₀, hworks, hscopes, hrest⟩⟩ :=
    visit_cases h
  · exact ⟨.refl _ _, hm, rfl⟩
  · have hreaps := evolves_reap (m := m) scope i j
    refine ⟨?_, hm.evolve hreaps, hreaps.tick⟩
    rw [reap_scopes hu]
    refine confined_modifyMap fun map _ => ?_
    unfold MapScope.releaseSlot
    split <;> rfl
  · have hm₀ : m₀.Settled := hm.evolve hworks.stirs.evolves
    have htick₀ : m₀.tick = m.tick := hworks.stirs.evolves.tick
    rw [← hscopes] at hu ⊢
    rcases hrest with ⟨rfl, -⟩ | ⟨-, -, -, rfl, -⟩ | ⟨-, -, -, -, m₂, u', hrun, rfl⟩
    · exact ⟨.refl _ _, hm₀, htick₀⟩
    · have hwaits : m₀.Evolves (m₀.modifyThreadAt scope i j fun _ => u.awake m₀.tick) :=
        evolves_modifyThreadAt scope i j fun u' hu' => by
          cases hu.symm.trans hu'
          exact restated_awake u m₀.tick
      exact ⟨confined_modifyModule .., hm₀.evolve hwaits, hwaits.tick.trans htick₀⟩
    · obtain ⟨place, hplace, hat⟩ := Option.bind_eq_some_iff.1 hu
      have hhome := hm₀.thread hplace (List.mem_of_getElem? hat)
      have hplays := plays_runDetached plays_turn hrun
      have hdetached := hm₀.detach scope i (fun _ => j) u.id
      obtain ⟨htick, hm₂⟩ := hplays.settled hdetached (Nat.le_refl _)
      have hu' : u'.Settled scope m₂.tick := by
        refine ⟨?_, fun hreal => ?_⟩
        · rw [hplays.lastTick, htick]
          exact Nat.le_refl _
        · rw [hplays.same.isPlaceholder_eq] at hreal
          exact hplays.same.scope.trans (hhome.home hreal)
      obtain ⟨hback, hsame⟩ := hm₂.reattach hu' i
      refine ⟨?_, hback, hsame.trans (htick.trans htick₀)⟩
      have hout : Confined scope m₀.scopes (m₀.detach scope i (fun _ => j) u.id).scopes :=
        confined_modifyModule ..
      refine (hout.trans ?_).trans (confined_reattach ..)
      cases hreal : u.isPlaceholder with
      | true => exact confined_of_scopes (hplays.scopes_eq hreal)
      | false =>
        have hturn := hplays.confined hdetached (Nat.le_refl _)
        have hscope : (u.awake m₀.tick).scope = scope := hhome.home hreal
        rwa [hscope] at hturn

section

variable {map : MapScope} {place : ModuleScope} (hmap : m.scopes.map? scope = some map)
  (hplace : map.modules[i]? = some place) (hids : (place.threads.map (·.id)).Nodup)
  (hu : place.threads[j]? = some u)
  (hbare : ∀ id, (m'.scopes.map? id).map MapScope.bare =
    ((m.detach scope i (fun _ => j) u.id).scopes.map? id).map MapScope.bare)
include hmap hplace hids hu hbare

/-- Where threads are as they were when one was taken out, its placeholder stands where it was put. -/
theorem exists_placeholder_of_bare : ∃ map' place', m'.scopes.map? scope = some map' ∧
    map'.modules[i]? = some place' ∧ map'.bare = (map.modifyModule i fun s =>
      { s with threads := s.threads.modify j fun _ => placeholder u.id }).bare ∧
    place'.threads[j]? = some (placeholder u.id) ∧ place'.threads.findIdx (·.id == u.id) = j := by
  have hdetach : (m.detach scope i (fun _ => j) u.id).scopes.map? scope = some (map.modifyModule i fun s =>
      { s with threads := s.threads.modify j fun _ => placeholder u.id }) := by
    simp only [detach, modifyModule, map?_modifyMap, hmap, if_true, Option.map_some]
  have hmap' := hbare scope
  rw [hdetach] at hmap'
  obtain ⟨map', hmap', hsame⟩ := Option.map_eq_some_iff.1 hmap'
  have hput : (map.modifyModule i fun s =>
      { s with threads := s.threads.modify j fun _ => placeholder u.id }).modules[i]? =
        some { place with threads := place.threads.modify j fun _ => placeholder u.id } := by
    simp [MapScope.modifyModule, hplace]
  obtain ⟨place', hplace', hthreads⟩ := MapScope.threads_of_bare hsame hput
  have hj : place'.threads[j]? = some (placeholder u.id) := by
    rw [hthreads, List.getElem?_modify_eq, hu]
    rfl
  have hids' : (place'.threads.map (·.id)).Nodup := by
    rw [hthreads, map_id_modify fun v hv => by cases hu.symm.trans hv; rfl]
    exact hids
  have hindex : place'.threads.findIdx (·.id == (placeholder u.id).id) = j :=
    MapScope.findIdx_id_eq hids' hj
  exact ⟨map', place', hmap', hplace', hsame, hj, hindex⟩

/-- A thread that is put back where its placeholder stands takes the place of the placeholder. -/
theorem reattach_of_bare (hid : t.id = u.id) :
    ∃ v, t.Restates v ∧ ∀ id, ((m'.reattach scope i t).scopes.map? id).map MapScope.bare =
      ((m.modifyThreadAt scope i j fun _ => v).scopes.map? id).map MapScope.bare := by
  obtain ⟨map', place', hmap', hplace', hsame, hj, hindex⟩ :=
    exists_placeholder_of_bare hmap hplace hids hu hbare
  rw [← hid] at hindex
  rcases reattach_cases m' scope i t with
    ⟨s, k, p, v, hs, hk, -, hp, hrestates, heq, rfl⟩ | ⟨hnone, -⟩
  · refine ⟨v, hrestates, fun id => ?_⟩
    rw [heq]
    by_cases hscope : id = scope
    · subst hscope
      have hthere : (map'.modifyModule i fun s =>
          { s with threads := s.threads.modify (s.threads.findIdx (·.id == t.id)) fun _ => v }) =
          map'.modifyModule i fun s => { s with threads := s.threads.modify j fun _ => v } :=
        MapScope.modifyModule_congr hplace' (by rw [hindex])
      simp only [modifyModule, map?_modifyMap, if_true, hmap', modifyThreadAt, hmap, Option.map_some,
        hthere, MapScope.bare_replace hsame]
    · have hother := hbare id
      simp only [detach, modifyModule, map?_modifyMap, if_neg hscope, modifyThreadAt] at hother ⊢
      exact hother
  · have hmodule' : m'.scopes.module? scope i = some place' := by
      rw [module?_eq, hmap']
      exact hplace'
    have hfind : place'.threads.find? (·.id == t.id) = some (placeholder u.id) := by
      rw [List.find?_eq_getElem?_findIdx, hindex]
      exact hj
    cases hnone place' _ hmodule' hfind

end

/-- The visits to a module scope are confined to the path of its map. -/
theorem confined_visitThreads {n : Nat} (hm : m.Settled)
    (h : visitThreads (turn quietHost fuel) scope i n j m = some m') :
    Confined scope m.scopes m'.scopes ∧ m'.Settled := by
  induction n generalizing j m with
  | zero => cases h
  | succ n ih =>
    unfold visitThreads at h
    split at h
    · cases h
    · rename_i m₁ hvisit
      cases h
      exact ⟨(confined_visit hm hvisit).1, (confined_visit hm hvisit).2.1⟩
    · rename_i m₁ hvisit
      obtain ⟨hfirst, hm₁, -⟩ := confined_visit hm hvisit
      exact ⟨hfirst.trans (ih hm₁ h).1, (ih hm₁ h).2⟩
    · rename_i m₁ hvisit
      obtain ⟨hfirst, hm₁, -⟩ := confined_visit hm hvisit
      exact ⟨hfirst.trans (ih hm₁ h).1, (ih hm₁ h).2⟩

/-- The visits to a map are confined to its path. -/
theorem confined_visitModules {n : Nat} (hm : m.Settled)
    (h : visitModules (turn quietHost fuel) scope n i m = some m') :
    Confined scope m.scopes m'.scopes ∧ m'.Settled := by
  induction n generalizing i m with
  | zero => cases h
  | succ n ih =>
    unfold visitModules at h
    split at h
    · cases h
      exact ⟨.refl _ _, hm⟩
    · split at h
      · split at h
        · cases h
        · rename_i m₁ hthreads
          obtain ⟨hfirst, hm₁⟩ := confined_visitThreads hm hthreads
          exact ⟨hfirst.trans (ih hm₁ h).1, (ih hm₁ h).2⟩
      · cases h
        exact ⟨.refl _ _, hm⟩

/-- Maps that are not active are not changed by visits to others. -/
theorem map?_visitMaps {scopes : List ScopeId} {id : ScopeId} (hm : m.Settled)
    (hoff : m.scopes.isActive id = false)
    (h : visitMaps (turn quietHost fuel) fuel scopes m = some m') :
    m'.scopes.map? id = m.scopes.map? id := by
  induction scopes generalizing m with
  | nil =>
    cases h
    rfl
  | cons scope rest ih =>
    unfold visitMaps at h
    split at h
    · rename_i hactive
      split at h
      · cases h
      · rename_i m₁ hmodules
        obtain ⟨hconfined, hm₁⟩ := confined_visitModules hm hmodules
        have hne : id ≠ scope := by
          rintro rfl
          rw [hoff] at hactive
          cases hactive
        exact (ih hm₁ ((hconfined.isActive_eq id).trans hoff) h).trans (hconfined.map?_eq hne)
    · exact ih hm hoff h

/-- **A tick** leaves maps alone that are not active or lie below a scope that is not. -/
theorem map?_exec {id : ScopeId} (hm : m.Settled) (hoff : m.scopes.isActive id = false)
    (h : m.exec quietHost fuel = some m') : m'.scopes.map? id = m.scopes.map? id := by
  unfold exec execWith at h
  split at h
  · cases h
    rfl
  · obtain ⟨m₁, hmaps, rfl⟩ := Option.map_eq_some_iff.1 h
    have hbegun : Settled { m with executing := true, tick := m.tick + 1 } :=
      fun id map hmap => (hm id map hmap).mono (Nat.le_succ _)
    have hsame := map?_visitMaps hbegun hoff hmaps
    exact hsame

end

/-- No call starts, stops or pauses a script. -/
def Unbidding (calls : List Call) : Prop :=
  ∀ c ∈ calls, ∀ f, c.callee = .builtin f → f.commands = false

/-- A turn that asks for no script leaves bare maps alone. -/
theorem bare_runDetached {fuel : Nat} (hcalls : Unbidding (detachedCalls (turnCalls quietHost fuel) m t))
    (h : runDetached (turn quietHost fuel) m t = some (m', t')) (id : ScopeId) :
    (m'.scopes.map? id).map MapScope.bare = (m.scopes.map? id).map MapScope.bare := by
  unfold runDetached at h
  obtain ⟨⟨m₁, t₁⟩, hturn, heq⟩ := Option.map_eq_some_iff.1 h
  cases heq
  exact (works_turn hcalls hturn).bare id

/-- **A turn without demands** in the tree: of all maps, only the thread that had the turn has changed,
and variables. -/
theorem visit_bare {fuel : Nat} {v : Visit} (hm : m.Distinct)
    (hturn : (m.visitedTurn? scope i j).isSome = true)
    (hcalls : Unbidding (m.visitCalls quietHost fuel scope i j))
    (h : m.visit (turn quietHost fuel) scope i j = some (v, m')) :
    ∃ w, ∀ id, (m'.scopes.map? id).map MapScope.bare =
      ((m.modifyThreadAt scope i j fun _ => w).scopes.map? id).map MapScope.bare := by
  have hno : m.visitedTurn? scope i j ≠ none := by
    intro hnone
    rw [hnone] at hturn
    cases hturn
  obtain ⟨-, rfl, hnone⟩ | ⟨u, hu, -, ⟨-, -, -, hnone⟩ | ⟨-, -, m₀, -, hscopes, hrest⟩⟩ := visit_cases h
  · refine absurd ?_ hno
    unfold visitedTurn?
    split
    · rfl
    · rename_i hactive
      rw [hnone (by simpa using hactive)]
  · exact absurd hnone hno
  · rcases hrest with ⟨-, hnone⟩ | ⟨-, -, -, -, hnone⟩ | ⟨-, -, -, hvisited, m₂, u', hrun, rfl⟩
    · exact absurd hnone hno
    · exact absurd hnone hno
    · obtain ⟨map, place, hmap, hat, hplace, huj⟩ := exists_place hu
      rw [visitCalls, hvisited] at hcalls
      have hids : (place.threads.map (·.id)).Nodup := by
        have hnodup := hm scope i
        rwa [threadsAt, hat] at hnodup
      rw [← hscopes] at hmap
      have hid : u'.id = u.id := (plays_runDetached plays_turn hrun).same.id
      obtain ⟨w, -, hback⟩ :=
        reattach_of_bare hmap hplace hids huj (bare_runDetached hcalls hrun) hid
      rw [modifyThreadAt, hscopes] at hback
      exact ⟨w, hback⟩

/-- A visit leaves the stock alone. -/
theorem sameStock_visit {fuel : Nat} {v : Visit}
    (h : m.visit (turn quietHost fuel) scope i j = some (v, m')) : m.SameStock m' := by
  obtain ⟨-, rfl, -⟩ | ⟨u, hu, -, ⟨-, -, rfl, -⟩ | ⟨-, -, m₀, hworks, -, hrest⟩⟩ := visit_cases h
  · exact .refl _
  · rw [Machine.reap, hu]
    refine SameStock.trans ?_ (sameStock_report ..)
    exact ⟨rfl, rfl, rfl, .refl _⟩
  · refine hworks.stirs.sameStock.trans ?_
    rcases hrest with ⟨rfl, -⟩ | ⟨-, -, -, rfl, -⟩ | ⟨-, -, -, -, m₂, u', hrun, rfl⟩
    · exact .refl _
    · exact ⟨rfl, rfl, rfl, .refl _⟩
    · have hacts : Acts Never _ _ m₂ u' := (plays_runDetached plays_turn hrun).acts
      have hturn := hacts.sameStock
      refine SameStock.trans ?_ (sameStock_reattach ..)
      exact ⟨hturn.modules, hturn.sources, hturn.tools, hturn.strings⟩

/-- The visits to threads leave the stock alone. -/
theorem sameStock_visitThreads {fuel n : Nat}
    (h : visitThreads (turn quietHost fuel) scope i n j m = some m') : m.SameStock m' := by
  induction n generalizing j m with
  | zero => cases h
  | succ n ih =>
    unfold visitThreads at h
    split at h
    · cases h
    · rename_i m₁ hvisit
      cases h
      exact sameStock_visit hvisit
    · rename_i m₁ hvisit
      exact (sameStock_visit hvisit).trans (ih h)
    · rename_i m₁ hvisit
      exact (sameStock_visit hvisit).trans (ih h)

/-- The visits to module scopes leave the stock alone. -/
theorem sameStock_visitModules {fuel n : Nat}
    (h : visitModules (turn quietHost fuel) scope n i m = some m') : m.SameStock m' := by
  induction n generalizing i m with
  | zero => cases h
  | succ n ih =>
    unfold visitModules at h
    split at h
    · cases h
      exact .refl _
    · split at h
      · split at h
        · cases h
        · rename_i m₁ hthreads
          exact (sameStock_visitThreads hthreads).trans (ih h)
      · cases h
        exact .refl _

/-- **Scripts touch only their own path.**  Let all threads be settled, as they are in every machine that
is reached, and let scripts call built-in functions only.

The turn of a thread, with all turns within it, changes at most the map of the thread and the variables of
the hub and the global scope above it; the registry, what the host gave, and indices, contents and hashes
of strings stay.  If no script is started, stopped or paused in the turn, then nothing of any map changes
but variables.  The same holds of a visit of the scheduler, which also takes the thread out of the tree
and puts it back.  A tick leaves every map as it was that is not active, or lies below a scope that is
not. -/
theorem Settled.scripts_confined (hm : m.Settled) (host : Host) (fuel : Nat) :
    (∀ (t t' : Thread) (m' : Machine), t.Settled t.scope m.tick →
      (∀ c ∈ turnCalls host fuel m t, c.IsBuiltin) → turn host fuel m t = some (m', t') →
      Confined t.scope m.scopes m'.scopes ∧ m.SameStock m' ∧
      (Unbidding (turnCalls host fuel m t) → ∀ id,
        (m'.scopes.map? id).map MapScope.bare = (m.scopes.map? id).map MapScope.bare)) ∧
    (∀ (scope : ScopeId) (i j : Nat) (v : Visit) (m' : Machine),
      (∀ c ∈ m.visitCalls host fuel scope i j, c.IsBuiltin) →
      m.visit (turn host fuel) scope i j = some (v, m') →
      Confined scope m.scopes m'.scopes ∧ m.SameStock m' ∧
      (m.Distinct → (m.visitedTurn? scope i j).isSome = true →
        Unbidding (m.visitCalls host fuel scope i j) → ∃ w, ∀ id,
          (m'.scopes.map? id).map MapScope.bare =
            ((m.modifyThreadAt scope i j fun _ => w).scopes.map? id).map MapScope.bare)) ∧
    (∀ m' : Machine, (∀ c ∈ m.tickCalls host fuel, c.IsBuiltin) → m.exec host fuel = some m' →
      ∀ id, m.scopes.isActive id = false → m'.scopes.map? id = m.scopes.map? id) := by
  refine ⟨fun t t' m' ht hcalls hturn => ?_, fun scope i j v m' hcalls hvisit => ?_,
    fun m' hcalls hexec id hoff => ?_⟩
  · obtain ⟨hquiet, hsame⟩ := turn_eq_of_calls hcalls
    rw [hquiet] at hturn
    rw [hsame]
    have hplays := plays_turn hturn
    exact ⟨hplays.confined hm ht.past, Acts.sameStock hplays.acts,
      fun hnone => (works_turn hnone hturn).bare⟩
  · obtain ⟨hquiet, hsame⟩ := visit_eq_of_calls hcalls
    rw [hquiet] at hvisit
    rw [hsame]
    exact ⟨(confined_visit hm hvisit).1, sameStock_visit hvisit,
      fun hdistinct hturn hnone => visit_bare hdistinct hturn hnone hvisit⟩
  · cases hrest : m.executing with
    | true =>
      unfold exec execWith at hexec
      rw [if_pos hrest] at hexec
      cases hexec
      rfl
    | false =>
      rw [(exec_eq_of_calls hrest hcalls).1] at hexec
      exact map?_exec hm hoff hexec

/-- A second map with a thread of its own is turned off. -/
def shelvedMachine : Machine :=
  (((startedMachine.addNamed { map := 1 } [{ name := "sleeping" }]).2.serve
    (.start { map := 1 } (.number 1) [] {})).2.serve (.setActive .module { map := 1 } false)).2

/-- All threads of the machine are settled. -/
theorem settled_shelvedMachine : shelvedMachine.Settled := by
  have hadded : Managed (startedMachine.addNamed { map := 1 } [{ name := "sleeping" }]).2 :=
    managed_startedMachine.operate (.adding rfl fun _ _ => trivial)
  have hmanaged := (hadded.operate (.request (.start { map := 1 } (.number 1) [] {}) trivial)).operate
    (.request (.setActive .module { map := 1 } false) trivial)
  exact hmanaged.settled

/-- A thread of the first map has a turn, and there is a tick. -/
theorem Settled.scripts_confined_shelved : shelvedMachine.Settled ∧
    (∃ t m' t', shelvedMachine.threadsAt {} 0 = [t] ∧ turn quietHost 9 shelvedMachine t = some (m', t') ∧
      t ≠ t' ∧ Confined {} shelvedMachine.scopes m'.scopes ∧ shelvedMachine.SameStock m') ∧
    ∃ m', shelvedMachine.exec quietHost 9 = some m' ∧
      m'.scopes.map? {} ≠ shelvedMachine.scopes.map? {} ∧
      m'.scopes.map? { map := 1 } = shelvedMachine.scopes.map? { map := 1 } ∧
      (shelvedMachine.threadsAt { map := 1 } 0).length = 1 := by
  obtain ⟨hone, hruns, hexec, hchanged, hoff, hcalls, hlength⟩ :
      ((shelvedMachine.threadsAt {} 0).map fun t => (t.id, t.scope, t.lastTick)) = [(1, {}, 0)] ∧
      (∀ t ∈ shelvedMachine.threadsAt {} 0, turnCalls quietHost 9 shelvedMachine t = [] ∧
        ((turn quietHost 9 shelvedMachine t).map fun p => p.2 == t) = some false) ∧
      (shelvedMachine.exec quietHost 9).isSome = true ∧
      ((shelvedMachine.exec quietHost 9).map fun m => m.scopes.map? {} == shelvedMachine.scopes.map? {}) =
        some false ∧
      shelvedMachine.scopes.isActive { map := 1 } = false ∧
      shelvedMachine.tickCalls quietHost 9 = [] ∧
      (shelvedMachine.threadsAt { map := 1 } 0).length = 1 := by decide +kernel
  have hm := settled_shelvedMachine
  obtain ⟨hturns, -, hticks⟩ := hm.scripts_confined quietHost 9
  refine ⟨hm, ?_, ?_⟩
  · obtain ⟨t, ht, hpair⟩ := List.map_eq_singleton_iff.1 hone
    obtain ⟨hnone, hdiffers⟩ := hruns t (by simp [ht])
    obtain ⟨⟨m', t'⟩, hturn, hne⟩ := Option.map_eq_some_iff.1 hdiffers
    obtain ⟨-, hscope, hlast⟩ : t.id = 1 ∧ t.scope = {} ∧ t.lastTick = 0 := by simpa using hpair
    have hsettled : t.Settled t.scope shelvedMachine.tick := ⟨hlast ▸ Nat.zero_le _, fun _ => rfl⟩
    obtain ⟨hconfined, hstock, -⟩ := hturns t t' m' hsettled (by rw [hnone]; nofun) hturn
    rw [hscope] at hconfined
    refine ⟨t, m', t', ht, hturn, fun heq => ?_, hconfined, hstock⟩
    rw [heq] at hne
    simp at hne
  · obtain ⟨m', hexec⟩ := Option.isSome_iff_exists.1 hexec
    rw [hexec] at hchanged
    refine ⟨m', hexec, ?_, hticks m' (by rw [hcalls]; nofun) hexec _ hoff, hlength⟩
    simpa using hchanged

end Machine

end ScriptMachine
