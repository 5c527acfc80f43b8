import ScriptMachine.Proofs.Machine.Stirring

/-!
# What happens to a machine

As long as no thread is taken out of the tree or put back, and no module comes or goes, a machine
evolves: its settings stay, the strings of its modules stay where they are, its maps go on step by
step, and its trace grows (`Machine.Evolves`).  This module goes through the functions of the machine
once and shows that each of them lets the machine evolve; what is invariant is then proved from
`Evolves` alone.  Where maps get modules as well, as they do from the host, `Machine.Advances` says
what becomes of the tree.
-/

namespace ScriptMachine.Machine

/-- A thread was started with the last id, so that the ids of its map go round. -/
def Exhausted (m : Machine) : Prop :=
  ∃ shown place, Event.log .debug (startText shown place 0xFFFFFFFF) ∈ m.trace

/-- The module is registered under its name. -/
def Knows (m : Machine) (x : LoadedModule) : Prop := m.modules.find? x.name = some x

/-- The index is one of the strings of a registered module. -/
def Uses (m : Machine) (i : Word) : Prop := ∃ x ∈ m.modules.values, i ∈ x.strings

/-- What happens to a machine whose modules stay, those in the registry and those of the maps. -/
structure Evolves (m m' : Machine) : Prop where
  settings : m'.settings = m.settings
  codeTable : m'.codeTable = m.codeTable
  modules : m'.modules = m.modules
  nextSerial : m'.nextSerial = m.nextSerial
  tick : m'.tick = m.tick
  executing : m'.executing = m.executing
  trace : m.trace <:+ m'.trace
  strings : StringTable.Keeps m.Uses m.strings m'.strings
  scopes : m.scopes.Evolves (fun _ => False) m'.tick m'.Exhausted m'.scopes

/-- What happens to a machine whose maps get modules that are `known`, as far as its tree shows it. -/
structure Advances (known : LoadedModule → Prop) (m m' : Machine) : Prop where
  tick : m'.tick = m.tick
  executing : m'.executing = m.executing
  trace : m.trace <:+ m'.trace
  scopes : m.scopes.Evolves known m'.tick m'.Exhausted m'.scopes

/-- A trace that grew still says that ids went round. -/
theorem Exhausted.mono {m m' : Machine} (htrace : m.trace <:+ m'.trace) (h : m.Exhausted) :
    m'.Exhausted := by
  obtain ⟨shown, place, hmem⟩ := h
  exact ⟨shown, place, htrace.subset hmem⟩

namespace Evolves

variable {m m' m'' : Machine}

/-- Neither the tree nor the strings change. -/
theorem quiet (settings : m'.settings = m.settings) (codeTable : m'.codeTable = m.codeTable)
    (modules : m'.modules = m.modules) (nextSerial : m'.nextSerial = m.nextSerial)
    (tick : m'.tick = m.tick) (executing : m'.executing = m.executing) (trace : m.trace <:+ m'.trace)
    (strings : m'.strings = m.strings) (scopes : m'.scopes = m.scopes) : m.Evolves m' :=
  ⟨settings, codeTable, modules, nextSerial, tick, executing, trace, strings ▸ .refl _,
    scopes ▸ .refl _⟩

/-- A machine that stays as it is evolves. -/
theorem refl (m : Machine) : m.Evolves m :=
  quiet rfl rfl rfl rfl rfl rfl (List.suffix_refl _) rfl rfl

theorem trans (h : m.Evolves m') (h' : m'.Evolves m'') : m.Evolves m'' where
  settings := h'.settings.trans h.settings
  codeTable := h'.codeTable.trans h.codeTable
  modules := h'.modules.trans h.modules
  nextSerial := h'.nextSerial.trans h.nextSerial
  tick := h'.tick.trans h.tick
  executing := h'.executing.trans h.executing
  trace := h.trace.trans h'.trace
  strings := by
    have huses : m'.Uses = m.Uses := by
      funext i
      rw [Uses, Uses, h.modules]
    exact h.strings.trans (huses ▸ h'.strings)
  scopes :=
    (h.scopes.mono (fun _ hx => hx) (Nat.le_of_eq h'.tick.symm) (Exhausted.mono h'.trace)).trans
      h'.scopes

/-- An event in the trace. -/
theorem emit (m : Machine) (e : Event) : m.Evolves (m.emit e) :=
  quiet rfl rfl rfl rfl rfl rfl (List.suffix_cons ..) rfl rfl

/-- A message in the trace. -/
theorem log (m : Machine) (level : LogLevel) (text : String) : m.Evolves (m.log level text) :=
  emit m _

/-- A report is an event in the trace, if the host asks for it. -/
theorem report (m : Machine) (k : Hook) (e : Event) : m.Evolves (m.report k e) := by
  unfold Machine.report
  split
  · exact emit m e
  · exact refl m

/-- The tree changes, and nothing else. -/
theorem setScopes {s : ScopeTree} (h : m.scopes.Evolves (fun _ => False) m.tick m.Exhausted s) :
    m.Evolves { m with scopes := s } :=
  ⟨rfl, rfl, rfl, rfl, rfl, rfl, List.suffix_refl _, .refl _, h⟩

/-- The tree changes and a message is left. -/
theorem setScopesLog {s : ScopeTree} {level : LogLevel} {text : String}
    (h : m.scopes.Evolves (fun _ => False) m.tick ({ m with scopes := s }.log level text).Exhausted
      s) :
    m.Evolves ({ m with scopes := s }.log level text) :=
  ⟨rfl, rfl, rfl, rfl, rfl, rfl, List.suffix_cons .., .refl _, h⟩

/-- The strings change, and nothing else. -/
theorem setStrings {t : StringTable} (h : StringTable.Keeps m.Uses m.strings t) :
    m.Evolves { m with strings := t } :=
  ⟨rfl, rfl, rfl, rfl, rfl, rfl, List.suffix_refl _, h, .refl _⟩

/-- A machine that evolves advances, whatever modules are known. -/
theorem advances {known : LoadedModule → Prop} (h : m.Evolves m') : m.Advances known m' :=
  ⟨h.tick, h.executing, h.trace, h.scopes.mono (fun _ hx => hx.elim) (Nat.le_refl _) fun he => he⟩

end Evolves

namespace Advances

variable {known : LoadedModule → Prop} {m m' m'' : Machine}

/-- One thing after another. -/
theorem trans (h : m.Advances known m') (h' : m'.Advances known m'') : m.Advances known m'' where
  tick := h'.tick.trans h.tick
  executing := h'.executing.trans h.executing
  trace := h.trace.trans h'.trace
  scopes :=
    (h.scopes.mono (fun _ hx => hx) (Nat.le_of_eq h'.tick.symm) (Exhausted.mono h'.trace)).trans
      h'.scopes

/-- The tree stays as it is. -/
theorem aside (hscopes : m'.scopes = m.scopes) (htick : m'.tick = m.tick)
    (hexecuting : m'.executing = m.executing) (htrace : m.trace <:+ m'.trace) : m.Advances known m' :=
  ⟨htick, hexecuting, htrace, hscopes ▸ .refl _⟩

end Advances

variable {m m' : Machine} {t t' : Thread}

/-! ## Scripts -/

/-- A new thread. -/
theorem evolves_spawn {map : MapScope} {place : ModuleScope} {scope : ScopeId} {i j : Nat}
    {args : List Word} {info : ThreadInfo} (hmap : m.scopes.map? scope = some map)
    (hplace : map.modules[i]? = some place)
    (ht : Thread.make? map.nextThreadId place.module scope i j args info = some t)
    (takesName : Bool) : m.Evolves (m.spawn scope i j args info takesName).2 := by
  have hstart : ∀ shown, m.Evolves
      ({ m with scopes := m.scopes.modifyMap scope fun _ => withThread map i t takesName }.log
        .debug (startText shown scope.display map.nextThreadId)) := by
    intro shown
    refine .setScopesLog (.modifyMap scope fun map' hmap' => ?_)
    cases hmap.symm.trans hmap'
    have hslots := slotsWithin_withThread map i t takesName
    refine .spawn hplace ht (withThread_modules ..) hslots (withThread_nextThreadId ..)
      fun hlast => ⟨shown, scope.display, ?_⟩
    rw [hlast]
    exact List.mem_cons_self
  rw [spawn_eq hmap hplace ht]
  simp only
  split
  · exact (hstart _).trans (.report ..)
  · exact hstart _

/-- Where the last id was given away, it is in the trace. -/
theorem exhausted_spawn {map : MapScope} {place : ModuleScope} {scope : ScopeId} {i j : Nat}
    {args : List Word} {info : ThreadInfo} (hmap : m.scopes.map? scope = some map)
    (hplace : map.modules[i]? = some place)
    (ht : Thread.make? map.nextThreadId place.module scope i j args info = some t)
    (takesName : Bool) (hlast : map.nextThreadId = 0xFFFFFFFF) :
    (m.spawn scope i j args info takesName).2.Exhausted := by
  refine ⟨(t.scriptName?.map (·.display)).getD "?", scope.display, ?_⟩
  rw [spawn_eq hmap hplace ht, hlast]
  simp only
  split
  · exact (Evolves.report ..).trace.subset List.mem_cons_self
  · exact List.mem_cons_self

/-- Variables change. -/
theorem evolves_modifyVars (level : Level) (id : ScopeId) (i : Nat) (f : Vars → Vars) :
    m.Evolves { m with scopes := m.scopes.modifyVars level id i f } :=
  .setScopes (.modifyVars level id i f)

/-- Threads of a module are put into states. -/
theorem evolves_restate (m : Machine) (scope : ScopeId) (i : Nat) {f : List Thread → List Thread}
    (hf : ∀ ts, List.Forall₂ Thread.Restates ts (f ts)) :
    m.Evolves { m with scopes := m.scopes.modifyModule scope i fun s =>
      { s with threads := f s.threads } } := by
  refine .setScopes (.modifyModule scope i (fun x _ => ?_) (fun x _ t' ht' => ?_))
  · exact map_id_of_restates (hf x.threads)
  · obtain ⟨k, hk, rfl⟩ := List.getElem_of_mem ht'
    have hlen := (hf x.threads).length_eq
    refine ⟨x.threads[k], List.getElem_mem _, ?_⟩
    exact ((hf x.threads).get (hlen ▸ hk) hk).restated m.tick

/-- **The pieces of scripts** let a machine evolve. -/
theorem Stirs.evolves (h : m.Stirs m') : m.Evolves m' := by
  induction h with
  | refl m => exact .refl m
  | trans _ _ ih ih' => exact ih.trans ih'
  | note m _ => exact .emit m _
  | aside m rng running h =>
    have hquiet : m.Evolves { m with rng, running } :=
      .quiet rfl rfl rfl rfl rfl rfl (List.suffix_refl _) rfl rfl
    exact hquiet.trans (.setStrings (.of_same h))
  | vars m level id i f => exact evolves_modifyVars level id i f
  | restate m scope i hf => exact evolves_restate m scope i hf
  | spawn hmap hplace ht hname => exact evolves_spawn hmap hplace ht _
  | stray hmap hslot hstray =>
    refine .setScopes (.modifyMap _ fun map' hmap' => ?_)
    cases hmap.symm.trans hmap'
    exact .skip hslot hstray

/-! ## Ticks -/

/-- A thread that has ended is removed. -/
theorem evolves_reap (scope : ScopeId) (i j : Nat) : m.Evolves (m.reap scope i j) := by
  unfold reap
  split
  · exact .refl m
  · rename_i t _
    refine (Evolves.trans (.setScopes (.modifyMap scope fun map _ => ?_)) (.log ..)).trans (.report ..)
    simp only [MapScope.releaseSlot]
    split
    · exact .reap i j rfl (.refl _) rfl
    · refine .reap i j rfl (.modify _ _ fun s => ?_) rfl
      split <;> exact ⟨rfl, rfl⟩

/-- A thread is restated at its place. -/
theorem evolves_modifyThreadAt (scope : ScopeId) (i j : Nat) {f : Thread → Thread}
    (hf : ∀ t, (m.scopes.module? scope i).bind (·.threads[j]?) = some t → t.Restated m.tick (f t)) :
    m.Evolves (m.modifyThreadAt scope i j f) := by
  refine .setScopes (.modifyThread scope i (j := fun _ => j) fun x t hx ht => hf t ?_)
  rw [hx]
  exact ht

/-! ## Scopes -/

theorem sameStrings_releaseVars (v : Vars) (t : StringTable) :
    StringTable.SameStrings t (v.release t).2 := by
  unfold Vars.release
  have hfold : ∀ (is : List Word) (p : Vars × StringTable),
      StringTable.SameStrings p.2 (is.foldl Vars.releaseArray p).2 := by
    intro is
    induction is with
    | nil => exact fun p => .refl p.2
    | cons i is ih =>
      intro p
      refine StringTable.SameStrings.trans ?_ (ih (Vars.releaseArray p i))
      unfold Vars.releaseArray
      split
      · exact .refl p.2
      · exact StringTable.sameStrings_unlockAll ..
  exact hfold _ (v, t)

theorem sameStrings_releaseMap (x : MapScope) (t : StringTable) :
    StringTable.SameStrings t (x.release t) :=
  StringTable.sameStrings_foldl (f := fun t (s : ModuleScope) => (s.vars.release t).2)
    (fun t s => sameStrings_releaseVars s.vars t) x.modules t

theorem sameStrings_releaseHub (x : HubScope) (t : StringTable) :
    StringTable.SameStrings t (x.release t) :=
  (sameStrings_releaseVars x.vars t).trans
    (StringTable.sameStrings_foldl (fun t m => sameStrings_releaseMap m t) x.maps.values _)

theorem sameStrings_releaseGlobal (x : GlobalScope) (t : StringTable) :
    StringTable.SameStrings t (x.release t) :=
  (sameStrings_releaseVars x.vars t).trans
    (StringTable.sameStrings_foldl (fun t h => sameStrings_releaseHub h t) x.hubs.values _)

/-- Threads are reported as stopped. -/
theorem evolves_stopThreads (m : Machine) (threads : List Thread) :
    m.Evolves (m.stopThreads threads) := by
  unfold stopThreads
  generalize threads.filter (fun t => !t.isPlaceholder) = ts
  induction ts generalizing m with
  | nil => exact .refl m
  | cons t ts ih => exact (Evolves.report ..).trans (ih _)

/-- Reporting threads as stopped leaves the tree alone. -/
theorem stopThreads_scopes (m : Machine) (threads : List Thread) :
    (m.stopThreads threads).scopes = m.scopes := by
  unfold stopThreads
  generalize threads.filter (fun t => !t.isPlaceholder) = ts
  induction ts generalizing m with
  | nil => rfl
  | cons t ts ih => exact (ih _).trans (report_scopes ..)

/-- Scopes go with everything below them, and their locks are given back. -/
theorem evolves_freed {s : ScopeTree} {t : StringTable} (threads : List Thread) (text : String)
    (hs : ∀ id map, s.map? id = some map → m.scopes.map? id = some map)
    (ht : StringTable.SameStrings m.strings t) :
    m.Evolves (({ m with scopes := s, strings := t }.stopThreads threads).log .debug text) :=
  (((Evolves.setScopes (.of_map? fun id map h => .inl (hs id map h))).trans
    (.setStrings (.of_same ht))).trans (evolves_stopThreads ..)).trans (.log ..)

theorem evolves_freeGlobal (g : Word) : m.Evolves (m.freeGlobal g).2 := by
  unfold freeGlobal
  split
  · exact .refl m
  · exact evolves_freed _ _ (fun _ _ => ScopeTree.map?_of_eraseGlobal) (sameStrings_releaseGlobal ..)

theorem evolves_freeHub (g h : Word) : m.Evolves (m.freeHub g h).2 := by
  unfold freeHub
  split
  · exact .refl m
  · exact evolves_freed _ _ (fun _ _ => ScopeTree.map?_of_eraseHub) (sameStrings_releaseHub ..)

theorem evolves_freeMap (id : ScopeId) : m.Evolves (m.freeMap id).2 := by
  unfold freeMap
  split
  · exact .refl m
  · exact evolves_freed _ _ (fun _ _ => ScopeTree.map?_of_eraseMap) (sameStrings_releaseMap ..)

theorem evolves_free (level : Level) (id : ScopeId) : m.Evolves (m.free level id).2 := by
  cases level with
  | global => exact evolves_freeGlobal ..
  | hub => exact evolves_freeHub ..
  | _ => exact evolves_freeMap ..

theorem evolves_ensureGlobal (g : Word) : m.Evolves (m.ensureGlobal g) := by
  unfold ensureGlobal
  split
  · exact .refl m
  · exact (Evolves.log m .debug _).trans
      (.setScopes (.of_map? fun _ _ hmap => .inl (ScopeTree.map?_of_insertGlobal hmap)))

theorem evolves_ensureHub (g h : Word) : m.Evolves (m.ensureHub g h) := by
  refine (evolves_ensureGlobal g).trans ?_
  simp only [ensureHub]
  split
  · exact .refl _
  · exact (Evolves.log _ .debug _).trans
      (.setScopes (.of_map? fun _ _ hmap => .inl (ScopeTree.map?_of_insertHub hmap)))

theorem evolves_ensureMap (id : ScopeId) : m.Evolves (m.ensureMap id) := by
  refine (evolves_ensureHub id.global id.hub).trans ?_
  simp only [ensureMap]
  split
  · exact .refl _
  · exact (Evolves.log _ .debug _).trans
      (.setScopes (.of_map? fun _ _ hmap => ScopeTree.map?_of_insertMap hmap))

theorem evolves_ensure (level : Level) (id : ScopeId) : m.Evolves (m.ensure level id) := by
  cases level with
  | global => exact evolves_ensureGlobal ..
  | hub => exact evolves_ensureHub ..
  | _ => exact evolves_ensureMap ..

theorem evolves_setActive (level : Level) (id : ScopeId) (active : Bool) :
    m.Evolves (m.setActive level id active) := by
  refine (evolves_ensure level id).trans ?_
  have hmap : (m.ensure level id).Evolves { m.ensure level id with
      scopes := (m.ensure level id).scopes.modifyMap id fun x => { x with active } } :=
    .setScopes (.modifyMap id fun map _ => .of_modules rfl (.refl _) rfl)
  cases level with
  | global =>
    refine .setScopes (.of_map? fun id' map hmap => .inl ?_)
    rwa [ScopeTree.map?_modifyGlobal_of_hubs] at hmap
    exact fun _ => rfl
  | hub =>
    refine .setScopes (.of_map? fun id' map hmap => .inl ?_)
    rwa [ScopeTree.map?_modifyHub_of_maps] at hmap
    exact fun _ => rfl
  | _ => exact hmap

/-- The slots of a map that got a module. -/
theorem find?_giveSlots {i : Nat} {scripts : List Script} {k : Nat}
    {slots : OrdMap ScriptName ScriptSlot} {name : ScriptName} {slot : ScriptSlot}
    (h : ((scripts.zipIdx k).foldl (MapScope.giveSlot i) slots).find? name = some slot) :
    slots.find? name = some slot ∨
      (slot.moduleIndex = i ∧ slot.scriptIndex < k + scripts.length) := by
  induction scripts generalizing slots k with
  | nil => exact .inl h
  | cons s scripts ih =>
    rw [List.zipIdx_cons, List.foldl_cons] at h
    rcases ih h with h | h
    · unfold MapScope.giveSlot at h
      split at h
      · exact .inl h
      · rw [OrdMap.find?_insert] at h
        split at h
        · cases h
          exact .inr ⟨rfl, by simp⟩
        · exact .inl h
    · exact .inr ⟨h.1, by simp only [List.length_cons]; omega⟩

/-- Module scopes are added. -/
theorem evolves_registerAll_scopes {known : LoadedModule → Prop} {now : Nat} {wraps : Prop} (m : Machine)
    (scope : ScopeId) {modules : List LoadedModule} (hknown : ∀ x ∈ modules, known x) :
    m.scopes.Evolves known now wraps (m.registerAll scope modules).2.scopes := by
  induction modules generalizing m with
  | nil => exact .refl _
  | cons x rest ih =>
    unfold registerAll
    split
    · exact .refl _
    · rename_i map hmap
      have hadd : m.scopes.Evolves known now wraps
          (m.scopes.modifyMap scope fun _ => (map.addModule x).2) := by
        refine .modifyMap scope fun map' hmap' => ?_
        cases hmap.symm.trans hmap'
        unfold MapScope.addModule
        split
        · exact .refl map
        · refine .add (hknown x List.mem_cons_self) rfl (fun name s' hs' => ?_) rfl
          rcases find?_giveSlots hs' with h | h
          · exact .inl ⟨s', h, rfl, rfl⟩
          · exact .inr (by simpa using h)
      exact hadd.trans (ih { m with scopes := m.scopes.modifyMap scope fun _ => (map.addModule x).2 }
        fun y hy => hknown y (List.mem_cons_of_mem _ hy))

/-- Adding modules changes the tree only. -/
theorem registerAll_eq (m : Machine) (scope : ScopeId) (modules : List LoadedModule) :
    (m.registerAll scope modules).2 = { m with scopes := (m.registerAll scope modules).2.scopes } := by
  induction modules generalizing m with
  | nil => rfl
  | cons x rest ih =>
    unfold registerAll
    split
    · rfl
    · exact ih _

/-- Once modules are registered, scripts start at most. -/
theorem stirs_addModules (m : Machine) (scope : ScopeId) (modules : List LoadedModule) :
    ((m.ensureMap scope).registerAll scope modules).2.Stirs (m.addModules scope modules).2 := by
  simp only [addModules]
  split
  · exact stirs_startAll ..
  · exact .refl _

/-- **Modules are added** to a map, and their scripts may start. -/
theorem advances_addModules {known : LoadedModule → Prop} (scope : ScopeId)
    {modules : List LoadedModule} (hknown : ∀ x ∈ modules, known x) :
    m.Advances known (m.addModules scope modules).2 := by
  have hensure : m.Advances known (m.ensureMap scope) := (evolves_ensureMap scope).advances
  have hregister : (m.ensureMap scope).Advances known ((m.ensureMap scope).registerAll scope modules).2 := by
    rw [registerAll_eq]
    exact ⟨rfl, rfl, List.suffix_refl _, evolves_registerAll_scopes _ scope hknown⟩
  exact (hensure.trans hregister).trans (stirs_addModules m scope modules).evolves.advances

/-! ## Strings -/

/-- Reports leave the strings alone. -/
theorem report_strings (m : Machine) (k : Hook) (e : Event) : (m.report k e).strings = m.strings := by
  unfold report
  split <;> rfl

theorem markAll_append (t : StringTable) (is js : List Word) :
    (t.markAll is).markAll js = t.markAll (is ++ js) := (List.foldl_append ..).symm

/-- Collecting strings leaves the tree alone and keeps the strings that are held. -/
theorem evolves_collectStrings : m.Evolves m.collectStrings.2 := by
  unfold collectStrings
  split
  · exact .refl m
  · have hkeeps : ∀ js, StringTable.Keeps m.Uses m.strings
        (((m.strings.beginCollection.markAll (m.modules.values.flatMap (·.strings))).markAll
          js).endCollection).2 := by
      intro js
      have huses : m.Uses = (· ∈ m.modules.values.flatMap (·.strings)) := by
        funext i
        simp [Uses]
      exact huses ▸ StringTable.keeps_collection m.strings _ js
    have hreport := Evolves.report m .references .references
    have huses : (m.report .references .references).Uses = m.Uses := by
      funext i
      rw [Uses, Uses, hreport.modules]
    simp only
    refine ((hreport.trans (.setStrings ?_)).trans (.log ..)).trans (.log ..)
    rw [huses, report_strings]
    split
    · rw [markAll_append _ m.scopes.references]
      exact hkeeps _
    · exact hkeeps _

/-- Collecting strings leaves the tree alone. -/
theorem collectStrings_scopes (m : Machine) : m.collectStrings.2.scopes = m.scopes := by
  unfold collectStrings
  split
  · rfl
  · exact report_scopes m .references .references

end ScriptMachine.Machine
