import ScriptMachine.Proofs.Machine.Operations
import ScriptMachine.Proofs.Machine.View

/-!
# Requests and views

Requests reach the whole machine, so they are looked at with everything in sight (`Vantage.Wide`) and
with all kept of strings but for marks and buckets (`Lens.plain`).  Every request of the host commutes
with this view, except for the two that look at what it forgets of strings: interning and collecting.
Those give the same for two well-formed tables that show the same.
-/

namespace ScriptMachine

/-- Of the strings, marks and buckets are forgotten; of the registry, the serial numbers. -/
def Lens.plain : Lens where
  table := StringTable.plain
  seed := id
  registry := OrdMap.mapValues (LoadedModule.recast fun _ => 0)
  bytes?_table := StringTable.bytes?_plain
  lock_congr i h := by rw [← StringTable.lock_plain, ← StringTable.lock_plain, h]
  unlock_congr i h := by rw [← StringTable.unlock_plain, ← StringTable.unlock_plain, h]

/-- The whole tree is in sight. -/
structure Vantage.Wide (W : Vantage) : Prop where
  tree : ∀ s, W.tree s = s
  sees : ∀ g, W.sees g

namespace Machine

variable {W : Vantage} (hW : W.Wide) (m : Machine)
include hW

/-! ## Scopes -/

/-- The whole tree shows, but for serial numbers and ticks. -/
theorem scopes_view : (m.view .plain W).scopes = m.scopes.recast (fun _ => 0) W.stamp := by
  rw [view, hW.tree]

/-- Another tree is put in. -/
theorem view_setScopes {s s' : ScopeTree} (h : s' = s.recast (fun _ => 0) W.stamp) :
    { m.view .plain W with scopes := s' } = { m with scopes := s }.view .plain W := by
  simp only [view, hW.tree, h]

/-- Every global scope shows. -/
theorem global?_view (k : Word) : (m.view .plain W).scopes.global? k =
    (m.scopes.global? k).map (GlobalScope.recast (fun _ => 0) W.stamp) := by
  rw [scopes_view hW, ScopeTree.global?_recast]

/-- Every hub shows. -/
theorem hub?_view (k h : Word) : (m.view .plain W).scopes.hub? k h =
    (m.scopes.hub? k h).map (HubScope.recast (fun _ => 0) W.stamp) := by
  rw [scopes_view hW, ScopeTree.hub?_recast]

theorem ensureGlobal_view (k : Word) :
    (m.view .plain W).ensureGlobal k = (m.ensureGlobal k).view .plain W := by
  simp only [ensureGlobal, global?_view hW, Option.isSome_map]
  split
  · rfl
  · refine view_setScopes hW (m.log .debug s!"creating global scope {k}") ?_
    simp only [log_view, scopes_view hW, ScopeTree.recast, OrdMap.mapValues_insert]
    rfl

theorem ensureHub_view (k h : Word) :
    (m.view .plain W).ensureHub k h = (m.ensureHub k h).view .plain W := by
  simp only [ensureHub, ensureGlobal_view hW]
  generalize m.ensureGlobal k = m
  simp only [hub?_view hW, Option.isSome_map]
  split
  · rfl
  · refine view_setScopes hW (m.log .debug s!"creating hub scope {h}") ?_
    rw [log_view, scopes_view hW]
    refine (ScopeTree.recast_modifyGlobal _ _ (fun x => ?_) k).symm
    simp only [GlobalScope.recast, OrdMap.mapValues_insert]
    rfl

theorem ensureMap_view (id : ScopeId) :
    (m.view .plain W).ensureMap id = (m.ensureMap id).view .plain W := by
  simp only [ensureMap, ensureHub_view hW]
  generalize m.ensureHub id.global id.hub = m
  simp only [map?_view m (hW.sees _), Option.isSome_map]
  split
  · rfl
  · refine view_setScopes hW (m.log .debug s!"creating map scope {id.map}") ?_
    rw [log_view, scopes_view hW]
    refine (ScopeTree.recast_modifyHub _ _ (fun x => ?_) id.global id.hub).symm
    simp only [HubScope.recast, OrdMap.mapValues_insert]
    rfl

theorem ensure_view (level : Level) (id : ScopeId) :
    (m.view .plain W).ensure level id = (m.ensure level id).view .plain W := by
  cases level with
  | global => exact ensureGlobal_view hW ..
  | hub => exact ensureHub_view hW ..
  | module => exact ensureMap_view hW ..
  | thread => exact ensureMap_view hW ..

theorem setActive_view (level : Level) (id : ScopeId) (active : Bool) :
    (m.view .plain W).setActive level id active = (m.setActive level id active).view .plain W := by
  simp only [setActive, ensure_view hW]
  generalize m.ensure level id = m
  refine view_setScopes hW m ?_
  rw [scopes_view hW]
  have hmap : (m.scopes.recast (fun _ => 0) W.stamp).modifyMap id (fun x => { x with active }) =
      (m.scopes.modifyMap id fun x => { x with active }).recast (fun _ => 0) W.stamp := by
    refine (ScopeTree.recast_modifyMap _ _ (fun x => ?_) id).symm
    rfl
  cases level with
  | global =>
    refine (ScopeTree.recast_modifyGlobal _ _ (fun x => ?_) id.global).symm
    rfl
  | hub =>
    refine (ScopeTree.recast_modifyHub _ _ (fun x => ?_) id.global id.hub).symm
    rfl
  | module => exact hmap
  | thread => exact hmap

omit hW in
/-- Threads that are reported as stopped show. -/
theorem stopThreads_view {L : Lens} {V : Vantage} (threads : List Thread) :
    (m.view L V).stopThreads (threads.map V.face) = (m.stopThreads threads).view L V := by
  unfold stopThreads
  induction threads generalizing m with
  | nil => rfl
  | cons t rest ih =>
    have hplace : (V.face t).isPlaceholder = t.isPlaceholder := Thread.isPlaceholder_recast ..
    simp only [List.map_cons, List.filter_cons, hplace]
    split
    · have hreport := report_view (L := L) (V := V) m (k := .threadStop) (by decide)
        (.threadStop { t with state := .stopped })
      rw [List.foldl_cons, List.foldl_cons, ← ih, ← hreport]
      rfl
    · exact ih m

/-- A part of the tree goes, and gives its locks back. -/
theorem view_released {s s' : ScopeTree} {release release' : StringTable → StringTable}
    (hrelease : ∀ t, release' t = release t) (hplain : ∀ t, release t.plain = (release t).plain)
    (h : s' = s.recast (fun _ => 0) W.stamp) :
    { m.view .plain W with scopes := s', strings := release' (m.view .plain W).strings } =
      { m with scopes := s, strings := release m.strings }.view .plain W := by
  simp only [view, hW.tree, h, hrelease, Lens.plain, hplain]

theorem freeGlobal_view (k : Word) :
    (m.view .plain W).freeGlobal k = ((m.freeGlobal k).1, (m.freeGlobal k).2.view .plain W) := by
  simp only [freeGlobal, global?_view hW]
  cases m.scopes.global? k with
  | none => rfl
  | some scope =>
    let m' : Machine := { m with
      scopes := ⟨m.scopes.globals.erase k⟩
      strings := scope.release m.strings }
    have hfreed : { m.view .plain W with
        scopes := ⟨(m.view .plain W).scopes.globals.erase k⟩
        strings := (scope.recast (fun _ => 0) W.stamp).release (m.view .plain W).strings } =
        m'.view .plain W := by
      refine view_released hW m (scope.release_recast _ _) scope.release_plain ?_
      simp only [scopes_view hW, ScopeTree.recast, OrdMap.mapValues_erase]
    simp only [Option.map_some, hfreed, GlobalScope.threads_recast]
    have hstop := stopThreads_view (L := .plain) (V := W) m' scope.threads
    exact congrArg (fun x : Machine => (true, x.log .debug s!"freed global scope {k}")) hstop

theorem freeHub_view (k h : Word) :
    (m.view .plain W).freeHub k h = ((m.freeHub k h).1, (m.freeHub k h).2.view .plain W) := by
  simp only [freeHub, hub?_view hW]
  cases m.scopes.hub? k h with
  | none => rfl
  | some scope =>
    let m' : Machine := { m with
      scopes := m.scopes.modifyGlobal k fun x => { x with hubs := x.hubs.erase h }
      strings := scope.release m.strings }
    have hfreed : { m.view .plain W with
        scopes := (m.view .plain W).scopes.modifyGlobal k fun x => { x with hubs := x.hubs.erase h }
        strings := (scope.recast (fun _ => 0) W.stamp).release (m.view .plain W).strings } =
        m'.view .plain W := by
      refine view_released hW m (scope.release_recast _ _) scope.release_plain ?_
      rw [scopes_view hW]
      refine (ScopeTree.recast_modifyGlobal _ _ (fun x => ?_) k).symm
      simp only [GlobalScope.recast, OrdMap.mapValues_erase]
    simp only [Option.map_some, hfreed, HubScope.threads_recast]
    have hstop := stopThreads_view (L := .plain) (V := W) m' scope.threads
    exact congrArg (fun x : Machine => (true, x.log .debug s!"freed hub scope {k}:{h}")) hstop

theorem freeMap_view (id : ScopeId) :
    (m.view .plain W).freeMap id = ((m.freeMap id).1, (m.freeMap id).2.view .plain W) := by
  simp only [freeMap, map?_view m (hW.sees _)]
  cases m.scopes.map? id with
  | none => rfl
  | some scope =>
    let m' : Machine := { m with
      scopes := m.scopes.modifyHub id.global id.hub fun x => { x with maps := x.maps.erase id.map }
      strings := scope.release m.strings }
    have hfreed : { m.view .plain W with
        scopes := (m.view .plain W).scopes.modifyHub id.global id.hub fun x =>
          { x with maps := x.maps.erase id.map }
        strings := (scope.recast (fun _ => 0) W.stamp).release (m.view .plain W).strings } =
        m'.view .plain W := by
      refine view_released hW m (scope.release_recast _ _) scope.release_plain ?_
      rw [scopes_view hW]
      refine (ScopeTree.recast_modifyHub _ _ (fun x => ?_) id.global id.hub).symm
      simp only [HubScope.recast, OrdMap.mapValues_erase]
    simp only [Option.map_some, hfreed, MapScope.threads_recast]
    have hstop := stopThreads_view (L := .plain) (V := W) m' scope.threads
    exact congrArg (fun x : Machine => (true, x.log .debug s!"freed map scope {id.display}")) hstop

theorem free_view (level : Level) (id : ScopeId) :
    (m.view .plain W).free level id = ((m.free level id).1, (m.free level id).2.view .plain W) := by
  cases level with
  | global => exact freeGlobal_view hW ..
  | hub => exact freeHub_view hW ..
  | module => exact freeMap_view hW ..
  | thread => exact freeMap_view hW ..

/-! ## Modules -/

omit hW in
/-- Registered modules show under their names. -/
theorem registered_view (names : List ModuleName) :
    (m.view .plain W).registered names = (m.registered names).map (LoadedModule.recast fun _ => 0) := by
  have hfind : (m.view .plain W).modules.find? = fun name =>
      (m.modules.find? name).map (LoadedModule.recast fun _ => 0) := by
    funext name
    exact OrdMap.find?_mapValues ..
  rw [registered, registered, hfind, List.map_filterMap]

/-- Adding modules to a map shows. -/
theorem registerAll_view (scope : ScopeId) (modules : List LoadedModule) :
    (m.view .plain W).registerAll scope (modules.map (LoadedModule.recast fun _ => 0)) =
      ((m.registerAll scope modules).1, (m.registerAll scope modules).2.view .plain W) := by
  induction modules generalizing m with
  | nil => rfl
  | cons x rest ih =>
    simp only [List.map_cons, registerAll, map?_view m (hW.sees _)]
    cases m.scopes.map? scope with
    | none => rfl
    | some map =>
      have hset : { m.view .plain W with
          scopes := (m.view .plain W).scopes.modifyMap scope fun _ =>
            (map.addModule x).2.recast (fun _ => 0) W.stamp } =
          { m with scopes := m.scopes.modifyMap scope fun _ => (map.addModule x).2 }.view
            .plain W := by
        refine view_modifyMap (hW.sees _) fun _ => ?_
        rfl
      simp only [Option.map_some, MapScope.addModule_recast, hset, ih]

/-- Adding modules, with the starts that come of it, shows. -/
theorem addModules_view (scope : ScopeId) (modules : List LoadedModule) :
    (m.view .plain W).addModules scope (modules.map (LoadedModule.recast fun _ => 0)) =
      ((m.addModules scope modules).1, (m.addModules scope modules).2.view .plain W) := by
  simp only [addModules, ensureMap_view hW, registerAll_view hW]
  generalize ((m.ensureMap scope).registerAll scope modules).2 = m₁
  have hsettings : (m₁.view .plain W).settings = m₁.settings := rfl
  have htargets : ∀ i, (((m₁.view .plain W).scopes.module? scope i).map fun s =>
      scriptsOfType s i Script.openType) =
      (m₁.scopes.module? scope i).map fun s => scriptsOfType s i Script.openType := by
    intro i
    rw [module?_view m₁ (hW.sees _), Option.map_map]
    rfl
  simp only [hsettings, htargets, startAll_view _ (hW.sees _)]
  split <;> rfl

/-! ## Saving -/

/-- What shows is saved as the machine is. -/
theorem stateBytes_view : (m.view .plain W).stateBytes = m.stateBytes := by
  have hkeys : (m.view .plain W).modules.keys = m.modules.keys := OrdMap.keys_mapValues ..
  have hnumber : (m.view .plain W).moduleNumber = m.moduleNumber := by
    funext name
    rw [moduleNumber, moduleNumber, hkeys]
  have hglobals : Writer.list (GlobalScope.write m.moduleNumber)
      (m.view .plain W).scopes.globals.entries =
      Writer.list (GlobalScope.write m.moduleNumber) m.scopes.globals.entries := by
    simp only [scopes_view hW, ScopeTree.recast, OrdMap.entries_mapValues, Writer.list,
      List.length_map, List.flatMap_map, GlobalScope.write_recast]
  have hstrings : (m.view .plain W).strings.write = m.strings.write := StringTable.write_plain ..
  rw [stateBytes, stateBytes, hkeys, hnumber, hglobals, hstrings]
  rfl

/-- Saving shows. -/
theorem save_view : (m.view .plain W).save = (m.save.1, m.save.2.view .plain W) := by
  have hextra : (m.view .plain W).hooks.has .saveExtra = m.hooks.has .saveExtra :=
    m.hooks.has_bare (by decide)
  have hsize : (m.view .plain W).strings.size = m.strings.size := StringTable.size_plain ..
  have hmodules : (m.view .plain W).modules.size = m.modules.size := List.length_map ..
  have hglobals : (m.view .plain W).scopes.globals.size = m.scopes.globals.size := by
    rw [scopes_view hW]
    exact List.length_map ..
  have hbusy : (m.view .plain W).executing = m.executing := rfl
  have hanswer : (m.view .plain W).hooks.saveExtra = m.hooks.saveExtra := rfl
  simp only [save, stateBytes_view hW, hextra, hbusy]
  split
  · rfl
  · split
    · simp only [emit, hanswer, hsize, hmodules, hglobals]
      split <;> rfl
    · simp only [hsize, hmodules, hglobals]
      rfl

/-! ## Strings -/

/-- The words that keep strings in a collection. -/
def heldWords (m : Machine) : List Word :=
  m.modules.values.flatMap (·.strings) ++ m.scopes.references ++
    if m.hooks.has .references then m.hooks.references else []

/-- What is held shows. -/
theorem heldWords_view : (m.view .plain W).heldWords = m.heldWords := by
  have hmodules : (m.view .plain W).modules.values.flatMap (·.strings) =
      m.modules.values.flatMap (·.strings) := by
    simp only [view, Lens.plain, OrdMap.values_mapValues, List.flatMap_map]
    rfl
  have hscopes : (m.view .plain W).scopes.references = m.scopes.references := by
    rw [scopes_view hW, ScopeTree.references_recast]
  have hhas : (m.view .plain W).hooks.has .references = m.hooks.has .references :=
    m.hooks.has_bare (by decide)
  rw [heldWords, heldWords, hmodules, hscopes, hhas]
  rfl

/-- The end of a collection that freed so many strings and left this table. -/
def swept (m : Machine) (freed : Nat) (t : StringTable) : Except Error Nat × Machine :=
  let m := { m.report .references .references with strings := t }
  let m := m.log .trace s!"string collection freed {freed}, {t.capacity} slots remain"
  (.ok freed, m.log .debug s!"string collection freed {freed} strings")

omit hW in
/-- A collection at rest. -/
theorem collectStrings_eq (h : m.executing = false) : m.collectStrings =
    m.swept (m.strings.collected m.heldWords).1 (m.strings.collected m.heldWords).2 := by
  have hhooks : (m.report .references .references).hooks = m.hooks := by
    unfold report
    split <;> rfl
  have hmarks : (if m.hooks.has .references then
        ((m.strings.beginCollection.markAll (m.modules.values.flatMap (·.strings))).markAll
          m.scopes.references).markAll m.hooks.references
      else (m.strings.beginCollection.markAll (m.modules.values.flatMap (·.strings))).markAll
        m.scopes.references) = m.strings.beginCollection.markAll m.heldWords := by
    unfold heldWords
    split <;> simp [StringTable.markAll]
  unfold collectStrings
  rw [if_neg (by rw [h]; decide)]
  simp only [hhooks, hmarks, swept]
  rfl

variable {W' : Vantage} (hW' : W'.Wide) {m} {m' : Machine} (h : m.view .plain W = m'.view .plain W')
include hW' h

/-- Machines that show the same lose the same strings, and show the same then. -/
theorem collectStrings_congr :
    m.collectStrings.1 = m'.collectStrings.1 ∧
      m.collectStrings.2.view .plain W = m'.collectStrings.2.view .plain W' := by
  have hbusy := executing_of_view h
  cases hrest : m'.executing with
  | true =>
    rw [collectStrings, collectStrings, if_pos hrest, if_pos (hbusy.trans hrest)]
    exact ⟨rfl, h⟩
  | false =>
    have hheld : m.heldWords = m'.heldWords := by
      rw [← heldWords_view hW m, h, heldWords_view hW']
    obtain ⟨hfreed, htable⟩ := StringTable.plain_collected (t := m'.strings) (u := m.strings)
      (congrArg strings h) m'.heldWords
    have hcapacity : (m.strings.collected m'.heldWords).2.capacity =
        (m'.strings.collected m'.heldWords).2.capacity := by
      rw [← StringTable.capacity_plain, htable, StringTable.capacity_plain]
    have hreport : (m.report .references .references).view .plain W =
        (m'.report .references .references).view .plain W' := by
      have hasked : ∀ (x : Machine) (V : Vantage), (x.view .plain V).report .references .references =
          (x.report .references .references).view .plain V :=
        fun x V => report_view x (k := .references) (by decide) .references
      rw [← hasked, ← hasked, h]
    rw [collectStrings_eq m' hrest, collectStrings_eq m (hbusy.trans hrest), hheld, hfreed]
    refine ⟨rfl, ?_⟩
    -- the view of a machine with another table is the view of the machine with the plain table
    have hswept : ∀ (x : Machine) (V : Vantage) (freed : Nat) (t : StringTable),
        (x.swept freed t).2.view .plain V =
        (({ (x.report .references .references).view .plain V with strings := t.plain }.log .trace
          s!"string collection freed {freed}, {t.capacity} slots remain").log .debug
          s!"string collection freed {freed} strings") := fun _ _ _ _ => rfl
    rw [hswept, hswept, hreport, htable, hcapacity]

omit hW hW' in
/-- Well-formed machines that show the same give a string the same index, and show the same then. -/
theorem intern_congr (hm : m.strings.Wellformed) (hm' : m'.strings.Wellformed) (bytes : Bytes) :
    (m.strings.intern bytes).1 = (m'.strings.intern bytes).1 ∧
      { m with strings := (m.strings.intern bytes).2 }.view .plain W =
        { m' with strings := (m'.strings.intern bytes).2 }.view .plain W' := by
  obtain ⟨hindex, htable⟩ := StringTable.plain_intern (t := m'.strings) (u := m.strings) hm' hm
    (congrArg strings h) bytes
  have hset := congr (congrArg (fun (x : Machine) t => { x with strings := t }) h) htable
  exact ⟨hindex, hset⟩

/-- What commutes with views does the same with machines that show the same. -/
theorem congr_of_view {α : Type} {F : Machine → α × Machine} (hview : ∀ V : Vantage, V.Wide →
    ∀ x : Machine, F (x.view .plain V) = ((F x).1, (F x).2.view .plain V)) :
    (F m).1 = (F m').1 ∧ (F m).2.view .plain W = (F m').2.view .plain W' := by
  have heq := (hview W hW m).symm.trans ((congrArg F h).trans (hview W' hW' m'))
  exact Prod.mk.inj heq

/-- Machines that show the same get the same modules by name, and show the same then. -/
theorem addNamed_congr (scope : ScopeId) (names : List ModuleName) :
    (m.addNamed scope names).1 = (m'.addNamed scope names).1 ∧
      (m.addNamed scope names).2.view .plain W = (m'.addNamed scope names).2.view .plain W' :=
  congr_of_view (F := fun x => x.addNamed scope names) hW hW' h fun V hV x => by
    simp only [addNamed, registered_view, addModules_view hV]

/-- **Requests**: well-formed machines that show the same answer the same, and show the same then. -/
theorem serve_congr (hm : m.strings.Wellformed) (hm' : m'.strings.Wellformed) (r : Request) :
    (m.serve r).1 = (m'.serve r).1 ∧
      (m.serve r).2.view .plain W = (m'.serve r).2.view .plain W' := by
  have hleaf := congr_of_view (F := fun x => x.serve r) hW hW' h
  cases r with
  | start scope name args info =>
    exact hleaf fun V hV x => by simp only [serve, startScript_view _ (hV.sees _)]
  | startForced scope name args info =>
    exact hleaf fun V hV x => by simp only [serve, startForced_view _ (hV.sees _)]
  | startType scope type args info =>
    exact hleaf fun V hV x => by simp only [serve, startType_view _ (hV.sees _)]
  | stop scope name =>
    exact hleaf fun V hV x => by simp only [serve, stopScript, setScriptState_view _ (hV.sees _)]
  | pause scope name =>
    exact hleaf fun V hV x => by simp only [serve, pauseScript, setScriptState_view _ (hV.sees _)]
  | ensure level id => exact hleaf fun V hV x => by simp only [serve, ensure_view hV]
  | setActive level id active => exact hleaf fun V hV x => by simp only [serve, setActive_view hV]
  | free level id => exact hleaf fun V hV x => by simp only [serve, free_view hV]
  | save => exact hleaf fun V hV x => by simp only [serve, save_view hV]
  | intern bytes =>
    obtain ⟨hindex, hview⟩ := intern_congr h hm hm' bytes
    exact ⟨congrArg Answer.index hindex, hview⟩
  | collect =>
    obtain ⟨hfreed, hview⟩ := collectStrings_congr hW hW' h
    exact ⟨congrArg Answer.freed hfreed, hview⟩

end Machine

end ScriptMachine
