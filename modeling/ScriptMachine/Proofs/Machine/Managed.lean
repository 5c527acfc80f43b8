import ScriptMachine.Proofs.Machine.RoundTrip
import ScriptMachine.Proofs.Machine.Unaided

/-!
# Machines whose scripts call built-in functions

`Machine.Managed` is every machine that comes about from a new one by what a host does between ticks,
by ticks and starts for a result in which scripts call built-in functions only, and by loading states
that were saved by such machines.  In all of them names and threads are in order, as long as no map
gives away its last thread id (`Managed.map_inOrder`): names lead to the first scripts that have them,
they are held by threads that run these scripts, thread ids tell the threads of a map apart and grow
along each module scope, and every thread stands where it belongs.
-/

namespace ScriptMachine

namespace MapScope

variable {id : ScopeId} {m : MapScope}

/-- A map that comes back is as coherent as it was saved. -/
theorem Coherent.recast (h : m.Coherent id) (σ : ModuleName → Nat) (g : Nat → Nat) :
    (m.recast σ g).Coherent id := by
  have hget : ∀ {i : Nat} {s' : ModuleScope}, (m.recast σ g).modules[i]? = some s' →
      ∃ s, m.modules[i]? = some s ∧ s' = s.recast σ g := by
    intro i s' hs'
    simp only [MapScope.recast, List.getElem?_map] at hs'
    obtain ⟨s, hs, rfl⟩ := Option.map_eq_some_iff.1 hs'
    exact ⟨s, hs, rfl⟩
  refine ⟨fun s' hs' => ?_, fun s' hs' t' ht' => ?_, fun i s' hs' t' ht' hreal => ?_⟩
  · obtain ⟨i, hi⟩ := List.getElem?_of_mem hs'
    obtain ⟨s, hs, rfl⟩ := hget hi
    have hids : (s.recast σ g).threads.map (·.id) = s.threads.map (·.id) := by
      simp [ModuleScope.recast, Thread.recast, Function.comp_def]
    rw [hids]
    exact h.distinct s (List.mem_of_getElem? hs)
  · obtain ⟨i, hi⟩ := List.getElem?_of_mem hs'
    obtain ⟨s, hs, rfl⟩ := hget hi
    obtain ⟨t, ht, rfl⟩ := List.mem_map.1 ht'
    exact h.below s (List.mem_of_getElem? hs) t ht
  · obtain ⟨s, hs, rfl⟩ := hget hs'
    obtain ⟨t, ht, rfl⟩ := List.mem_map.1 ht'
    have howned := h.owned i s hs t ht (by simpa [Thread.isPlaceholder, Thread.recast] using hreal)
    refine ⟨⟨?_, howned.fits.scope, howned.fits.index, howned.fits.script, howned.fits.bases⟩,
      howned.frames⟩
    have hmodule : (t.module.map (LoadedModule.recast σ)).map (·.toModule) =
        t.module.map (·.toModule) := by
      rw [Option.map_map]
      rfl
    exact hmodule.trans howned.fits.module

/-! ## What the order comes to -/

/-- The numbers of the first script of a name, in the first module that declares one. -/
def declaration? (m : MapScope) (name : ScriptName) : Option (Nat × Nat) := do
  let i ← m.modules.findIdx? fun s => s.module.scripts.toList.any (·.name == name)
  let s ← m.modules[i]?
  let j ← s.module.scripts.toList.findIdx? (·.name == name)
  pure (i, j)

/-- Names and threads of the map `id` are in order. -/
structure InOrder (id : ScopeId) (m : MapScope) : Prop where
  /-- A name has a slot if and only if a module declares it, and the slot leads to the first script of
  that name in the first such module. -/
  declared : ∀ name, (m.slots.find? name).map (fun s => (s.moduleIndex, s.scriptIndex)) =
    m.declaration? name
  /-- A thread that holds a name is the only one with its id; it is in the module scope of the slot and
  runs the script of the slot, which is not one to run several times at once. -/
  held : ∀ name slot k, m.slots.find? name = some slot → slot.thread = some k →
    ∃ s t x, m.modules[slot.moduleIndex]? = some s ∧ m.threads.filter (·.id == k) = [t] ∧
      t ∈ s.threads ∧ t.scriptIndex = slot.scriptIndex ∧
      s.module.scripts[slot.scriptIndex]? = some x ∧ t.script? = some x ∧ x.multi = false
  distinct : (m.threads.map (·.id)).Nodup
  increasing : ∀ s ∈ m.modules, (s.threads.map (·.id)).Pairwise (· < ·)
  below : ∀ t ∈ m.threads, t.id < m.nextThreadId
  /-- Every thread knows where it stands. -/
  own : ∀ (i : Nat) (s : ModuleScope), m.modules[i]? = some s → ∀ t ∈ s.threads, t.scope = id ∧
    t.moduleIndex = i ∧ t.scriptIndex < s.module.scripts.size ∧
    t.module.map (·.toModule) = some s.module.toModule

/-- The plan has the modules of the map, each with its threads. -/
theorem getElem?_of_plan {i : Nat} {q : Module × List (Word × Option Post)} (h : m.plan[i]? = some q) :
    ∃ s, m.modules[i]? = some s ∧ q = s.plan := by
  rw [plan, List.getElem?_map] at h
  obtain ⟨s, hs, rfl⟩ := Option.map_eq_some_iff.1 h
  exact ⟨s, hs, rfl⟩

/-- Slots lead to the first scripts. -/
theorem Declared.find?_eq (h : m.Declared) (name : ScriptName) :
    (m.slots.find? name).map (fun s => (s.moduleIndex, s.scriptIndex)) = m.declaration? name := by
  cases hslot : m.slots.find? name with
  | none =>
    -- a script of the name would have a slot
    symm
    rw [Option.map_none, declaration?, Option.bind_eq_bind, Option.bind_eq_none_iff]
    intro i hi
    obtain ⟨hlt, hany, -⟩ := List.findIdx?_eq_some_iff_getElem.1 hi
    obtain ⟨x, hx, hname⟩ := List.any_eq_true.1 hany
    obtain ⟨j, hj⟩ := List.getElem?_of_mem hx
    rw [Array.getElem?_toList] at hj
    obtain ⟨slot, hfind, -⟩ := h.first i _ j x (getElem?_plan (List.getElem?_eq_getElem hlt)) hj
    rw [beq_iff_eq.1 hname, hslot] at hfind
    cases hfind
  | some slot =>
    obtain ⟨q, x, hq, hx, hname⟩ := h.leads name slot hslot
    obtain ⟨s, hs, rfl⟩ := getElem?_of_plan hq
    obtain ⟨hlt, hget⟩ := List.getElem?_eq_some_iff.1 hs
    have hx : s.module.scripts.toList[slot.scriptIndex]? = some x := (Array.getElem?_toList).trans hx
    obtain ⟨hlt', hget'⟩ := List.getElem?_eq_some_iff.1 hx
    have hfirst : ∀ (i j : Nat) (s' : ModuleScope) (y : Script), m.modules[i]? = some s' →
        s'.module.scripts[j]? = some y → y.name = name →
        slot.moduleIndex < i ∨ slot.moduleIndex = i ∧ slot.scriptIndex ≤ j := by
      intro i j s' y hs' hy hyname
      obtain ⟨slot', hslot', hle⟩ := h.first i _ j y (getElem?_plan hs') hy
      rw [hyname, hslot] at hslot'
      cases hslot'
      exact hle
    have hmodule : m.modules.findIdx? (fun s => s.module.scripts.toList.any (·.name == name)) =
        some slot.moduleIndex := by
      refine List.findIdx?_eq_some_iff_getElem.2 ⟨hlt, ?_, fun i hi hany => ?_⟩
      · rw [hget, List.any_eq_true]
        exact ⟨x, List.mem_of_getElem? hx, beq_iff_eq.2 hname⟩
      · obtain ⟨y, hy, hyname⟩ := List.any_eq_true.1 hany
        obtain ⟨j, hj⟩ := List.getElem?_of_mem hy
        have := hfirst i j _ y (List.getElem?_eq_getElem (Nat.lt_trans hi hlt))
          ((Array.getElem?_toList).symm.trans hj) (beq_iff_eq.1 hyname)
        omega
    have hscript : s.module.scripts.toList.findIdx? (·.name == name) = some slot.scriptIndex := by
      refine List.findIdx?_eq_some_iff_getElem.2 ⟨hlt', ?_, fun j hj hyname => ?_⟩
      · rw [hget', beq_iff_eq]
        exact hname
      · have hj' := List.getElem?_eq_getElem (Nat.lt_trans hj hlt')
        have := hfirst slot.moduleIndex j s _ hs ((Array.getElem?_toList).symm.trans hj')
          (beq_iff_eq.1 hyname)
        omega
    rw [declaration?, hmodule]
    simp only [Option.map_some, Option.bind_eq_bind, Option.bind_some, hs, hscript]
    rfl

/-- No two threads of the map share an id. -/
theorem Staffed.nodup_threads (h : m.Staffed id) : (m.threads.map (·.id)).Nodup := by
  rw [threads, List.map_flatMap, List.nodup_flatMap]
  refine ⟨fun s hs => ?_, List.pairwise_iff_getElem.2 fun i k hi hk hlt a ha hb => ?_⟩
  · obtain ⟨i, hi⟩ := List.getElem?_of_mem hs
    exact h.nodup_ids hi
  · obtain ⟨t, ht, rfl⟩ := List.mem_map.1 ha
    obtain ⟨u, hu, hid⟩ := List.mem_map.1 hb
    have hsame := h.apart i k _ _ (getElem?_plan (List.getElem?_eq_getElem hi))
      (getElem?_plan (List.getElem?_eq_getElem hk)) t.role (List.mem_map_of_mem ht) u.role
      (List.mem_map_of_mem hu) hid.symm
    omega

/-- Where ids differ, one thread has the id of a thread. -/
theorem filter_id_eq {ts : List Thread} {t : Thread} (hids : (ts.map (·.id)).Nodup) (ht : t ∈ ts) :
    ts.filter (·.id == t.id) = [t] := by
  induction ts with
  | nil => cases ht
  | cons u ts ih =>
    rw [List.map_cons, List.nodup_cons] at hids
    rcases List.mem_cons.1 ht with rfl | hmem
    · rw [List.filter_cons_of_pos (by simp), List.cons.injEq]
      refine ⟨rfl, List.filter_eq_nil_iff.2 fun u hu hid => hids.1 ?_⟩
      exact beq_iff_eq.1 hid ▸ List.mem_map_of_mem hu
    · rw [List.filter_cons_of_neg, ih hids.2 hmem]
      intro hid
      exact hids.1 (beq_iff_eq.1 hid ▸ List.mem_map_of_mem hmem)

/-- **A map in order**, with no thread out of it, seen from its slots and threads. -/
theorem Ordered.inOrder (h : m.Ordered id) (hfilled : m.Filled) : m.InOrder id := by
  have hrole : ∀ {i : Nat} {s : ModuleScope}, m.modules[i]? = some s → ∀ t ∈ s.threads, ∃ x,
      t.module = some x ∧ (Post.mk x.toModule t.scope t.moduleIndex t.scriptIndex).At id i
        s.module.toModule ∧ t.role = (t.id, some ⟨x.toModule, t.scope, t.moduleIndex, t.scriptIndex⟩) := by
    intro i s hs t ht
    obtain ⟨x, hx, hrole⟩ :=
      role_eq_of_not_placeholder (hfilled s (List.mem_of_getElem? hs) t ht)
    refine ⟨x, hx, h.staffed.own i _ (getElem?_plan hs) t.role (List.mem_map_of_mem ht) _ ?_, hrole⟩
    rw [hrole]
  have hnodup := h.staffed.nodup_threads
  refine ⟨h.declared.find?_eq, fun name slot k hslot hk => ?_, hnodup, fun s hs => ?_, fun t ht => ?_,
    fun i s hs t ht => ?_⟩
  · obtain ⟨q, p, x, hq, hmem, hpost, hx, hmulti⟩ := h.staffed.holder name slot k hslot hk
    obtain ⟨s, hs, rfl⟩ := getElem?_of_plan hq
    obtain ⟨t, ht, hp⟩ := List.mem_map.1 hmem
    obtain ⟨y, hy, hat, hrole⟩ := hrole hs t ht
    rw [hrole, Prod.mk.injEq] at hp
    obtain ⟨rfl, rfl⟩ := hp
    have hindex : t.scriptIndex = slot.scriptIndex := hpost _ rfl
    have hall : t ∈ m.threads := List.mem_flatMap.2 ⟨s, List.mem_of_getElem? hs, ht⟩
    refine ⟨s, t, x, hs, filter_id_eq hnodup hall, ht, hindex, hx, ?_, hmulti⟩
    have hmodule : y.toModule = s.module.toModule := hat.module
    rw [Thread.script?, hy, Option.bind_some, hmodule, hindex]
    exact hx
  · obtain ⟨i, hi⟩ := List.getElem?_of_mem hs
    have hincreasing := h.staffed.increasing s.plan (List.mem_of_getElem? (getElem?_plan hi))
    rwa [ModuleScope.plan, List.map_map] at hincreasing
  · obtain ⟨s, hs, ht⟩ := List.mem_flatMap.1 ht
    obtain ⟨i, hi⟩ := List.getElem?_of_mem hs
    exact h.staffed.below s.plan (List.mem_of_getElem? (getElem?_plan hi)) t.role
      (List.mem_map_of_mem ht)
  · obtain ⟨x, hx, hat, -⟩ := hrole hs t ht
    refine ⟨hat.scope, hat.index, hat.script, ?_⟩
    rw [hx, Option.map_some]
    exact congrArg some hat.module

end MapScope

namespace Machine

variable {sources sources₀ : Nat → Bytes} {m m' X Y Y' : Machine}

/-! ## Requests -/

/-- Every map of the machine is as `P` says. -/
def Throughout (P : ScopeId → MapScope → Prop) (m : Machine) : Prop :=
  ∀ id map, m.scopes.map? id = some map → P id map

section Throughout

variable {P : ScopeId → MapScope → Prop}

/-- One map changes. -/
theorem Throughout.modifyMap {scope : ScopeId} {f : MapScope → MapScope} (h : m.Throughout P)
    (hscopes : m'.scopes = m.scopes.modifyMap scope f)
    (hf : ∀ map, m.scopes.map? scope = some map → P scope (f map)) : m'.Throughout P := by
  intro id map hmap
  rw [hscopes] at hmap
  exact ScopeTree.forall_modifyMap h hf id map hmap

/-- Freeing leaves maps as they were, or takes them away. -/
theorem Throughout.free (h : m.Throughout P) (level : Level) (id : ScopeId) :
    (m.free level id).2.Throughout P := by
  have hfreed : ∀ {s : ScopeTree} (strings : StringTable) (threads : List Thread) (text : String),
      (∀ id map, s.map? id = some map → m.scopes.map? id = some map) →
      (({ m with scopes := s, strings }.stopThreads threads).log .debug text).Throughout P := by
    intro s strings threads text hs id' map hmap
    refine h id' map (hs id' map ?_)
    exact (congrArg (·.map? id') (stopThreads_scopes { m with scopes := s, strings } threads)).symm.trans
      hmap
  have hmap : (m.freeMap id).2.Throughout P := by
    unfold freeMap
    split
    · exact h
    · exact hfreed _ _ _ fun _ _ => ScopeTree.map?_of_eraseMap
  cases level with
  | global =>
    simp only [Machine.free, freeGlobal]
    split
    · exact h
    · exact hfreed _ _ _ fun _ _ => ScopeTree.map?_of_eraseGlobal
  | hub =>
    simp only [Machine.free, freeHub]
    split
    · exact h
    · exact hfreed _ _ _ fun _ _ => ScopeTree.map?_of_eraseHub
  | module => exact hmap
  | thread => exact hmap

/-- No map comes with a global scope. -/
theorem Throughout.ensureGlobal (h : m.Throughout P) (g : Word) : (m.ensureGlobal g).Throughout P := by
  unfold Machine.ensureGlobal
  split
  · exact h
  · exact fun id map hmap => h id map (ScopeTree.map?_of_insertGlobal hmap)

/-- No map comes with a hub. -/
theorem Throughout.ensureHub (h : m.Throughout P) (g k : Word) : (m.ensureHub g k).Throughout P := by
  simp only [Machine.ensureHub]
  split
  · exact h.ensureGlobal g
  · exact fun id map hmap => h.ensureGlobal g id map (ScopeTree.map?_of_insertHub hmap)

/-- A map that is made has no modules. -/
theorem Throughout.ensureMap (h : m.Throughout P) (hempty : ∀ id, P id {}) (id : ScopeId) :
    (m.ensureMap id).Throughout P := by
  simp only [Machine.ensureMap]
  split
  · exact h.ensureHub id.global id.hub
  · intro id' map hmap
    rcases ScopeTree.map?_of_insertMap hmap with hmap | rfl
    · exact h.ensureHub id.global id.hub id' map hmap
    · exact hempty id'

/-- The only map that comes is one without modules. -/
theorem Throughout.ensure (h : m.Throughout P) (hempty : ∀ id, P id {}) (level : Level) (id : ScopeId) :
    (m.ensure level id).Throughout P := by
  cases level with
  | global => exact h.ensureGlobal id.global
  | hub => exact h.ensureHub id.global id.hub
  | module => exact h.ensureMap hempty id
  | thread => exact h.ensureMap hempty id

/-- Whether a scope is active does not matter. -/
theorem Throughout.setActive (h : m.Throughout P) (hempty : ∀ id, P id {})
    (hactive : ∀ {id map}, P id map → ∀ active, P id { map with active }) (level : Level) (id : ScopeId)
    (active : Bool) : (m.setActive level id active).Throughout P := by
  have hthere := h.ensure hempty level id
  have hmap : { m.ensure level id with scopes :=
      (m.ensure level id).scopes.modifyMap id fun x => { x with active } }.Throughout P :=
    hthere.modifyMap rfl fun map hmap => hactive (hthere id map hmap) active
  cases level with
  | global =>
    intro id' map hmap
    simp only [Machine.setActive] at hmap
    rw [ScopeTree.map?_modifyGlobal_of_hubs] at hmap
    · exact hthere id' map hmap
    · exact fun _ => rfl
  | hub =>
    intro id' map hmap
    simp only [Machine.setActive] at hmap
    rw [ScopeTree.map?_modifyHub_of_maps] at hmap
    · exact hthere id' map hmap
    · exact fun _ => rfl
  | module => exact hmap
  | thread => exact hmap

/-- Modules are added to one map, one after another. -/
theorem Throughout.registerAll (h : m.Throughout P)
    (hadd : ∀ {id map}, P id map → ∀ x, P id (map.addModule x).2) (scope : ScopeId)
    (modules : List LoadedModule) : (m.registerAll scope modules).2.Throughout P := by
  induction modules generalizing m with
  | nil => exact h
  | cons x rest ih =>
    unfold Machine.registerAll
    split
    · exact h
    · rename_i map hmap
      refine ih (h.modifyMap rfl fun map' hmap' => ?_)
      cases hmap.symm.trans hmap'
      exact hadd (h scope map hmap) x

end Throughout

/-- **What the host does**, on any terms, keeps the order, while ids do not go round. -/
theorem Ordered.deed {c : Terms} (h : m.Ordered) (hdeed : Deed c m m') (hfresh : ¬ m'.Exhausted) :
    m'.Ordered := by
  have hstirs : m.Stirs m' → m'.Ordered := fun hs => (hs.orderly h hfresh).1
  obtain ⟨r, rfl⟩ | ⟨scope, modules, -, rfl⟩ | ⟨level, id, i, f, rfl⟩ | hscopes := hdeed.on_tree
  · cases r with
    | start scope name args info => exact hstirs (stirs_startScript ..)
    | startForced scope name args info => exact hstirs (stirs_startForced ..)
    | startType scope type args info => exact hstirs (stirs_startType ..)
    | stop scope name => exact hstirs (stirs_setScriptState scope name (by decide))
    | pause scope name => exact hstirs (stirs_setScriptState scope name (by decide))
    | ensure level id => exact Throughout.ensure (m := m) h MapScope.ordered_empty level id
    | setActive level id active =>
      exact Throughout.setActive (m := m) h MapScope.ordered_empty
        (fun hmap _ => hmap.of_plan rfl rfl rfl) level id active
    | free level id => exact Throughout.free (m := m) h level id
    | intern bytes => exact h.of_scopes rfl
    | collect => exact h.of_scopes (collectStrings_scopes m)
    | save => exact h.of_scopes (save_scopes m)
  · have hmade := Throughout.ensureMap (m := m) h MapScope.ordered_empty scope
    have hadded := hmade.registerAll (fun hmap x => hmap.addModule x) scope modules
    exact ((stirs_addModules ..).orderly hadded hfresh).1
  · exact hstirs (.vars m level id i f)
  · exact h.of_scopes hscopes

/-! ## Saved states -/

/-- A saved state is followed by what the host adds. -/
theorem exists_extra {bytes : Bytes} (h : X.save.1 = .ok bytes) : ∃ extra, bytes = X.stateBytes ++ extra := by
  unfold save at h
  split at h
  · cases h
  · simp only at h
    split at h
    · split at h
      · cases h
      · cases h
        exact ⟨_, rfl⟩
    · cases h
      exact ⟨_, rfl⟩

/-- A saved state that is loaded brings its contents back, and then the branch limit and the
generator. -/
theorem load_contents {tail rest : Bytes} (hX : Consistent sources X) (hsized : X.Sized)
    (hintact : X.Intact) (hpolicy : Y.settings.unknownCode = X.settings.unknownCode)
    (htable : Y.codeTable = X.codeTable)
    (hbytes : ∀ name x, X.modules.find? name = some x → (Y.fetch name).1 = .ok (sources x.serial))
    (hload : Y.load (X.stateBytes ++ tail) = (.ok rest, Y')) :
    Y.executing = false ∧ ∃ Y₁ trace, (∃ s, (Y.takeContents s).2 = Y₁) ∧
      StringTable.Alike X.strings Y₁.strings ∧ Y₁.strings.Wellformed ∧
      Y₁.modules = X.modules.mapValues (LoadedModule.recast (newSerial X Y)) ∧
      Y₁.scopes = (X.scopes.recast (newSerial X Y) fun _ => 0) ∧
      Y' = { Y₁ with
        settings := { Y₁.settings with branchLimit := X.settings.branchLimit }
        rng := X.rng
        trace } := by
  obtain ⟨Y₁, htake, -, -, hstrings, hwf, hmodules, hscopes⟩ :=
    takeContents_write hX hsized hintact hpolicy htable hbytes tail
  unfold load at hload
  split at hload
  · cases hload
  rename_i hrest
  simp only [stateBytes, List.append_assoc, readHeader_write, htake] at hload
  split at hload
  · cases hload
  rename_i hextra
  obtain ⟨events, rfl⟩ := takeExtra_eq_ok hextra
  cases hload
  exact ⟨by simpa using hrest, Y₁, _, ⟨_, congrArg Prod.snd htake⟩, hstrings, hwf, hmodules, hscopes, rfl⟩

/-- The tree comes back, with other serial numbers and no ticks noted. -/
theorem load_scopes {tail rest : Bytes} (hX : Consistent sources X) (hsized : X.Sized)
    (hintact : X.Intact) (hpolicy : Y.settings.unknownCode = X.settings.unknownCode)
    (htable : Y.codeTable = X.codeTable)
    (hbytes : ∀ name x, X.modules.find? name = some x → (Y.fetch name).1 = .ok (sources x.serial))
    (hload : Y.load (X.stateBytes ++ tail) = (.ok rest, Y')) :
    Y'.scopes = X.scopes.recast (newSerial X Y) fun _ => 0 := by
  obtain ⟨-, Y₁, trace, -, -, -, -, hscopes, rfl⟩ :=
    load_contents hX hsized hintact hpolicy htable hbytes hload
  exact hscopes

/-- What `X` saved comes back in `Y`.  No map of `X` had given away its last thread id, and the counts of
`X` fit the format.  Settings and code table are the same as far as modules are made by them.  The modules
of `X` are there as their bytes made them, those of the maps registered, and `Y` gets them from the same
bytes. -/
structure Returns (X Y : Machine) : Prop where
  fresh : ¬ X.Exhausted
  sized : X.Sized
  policy : Y.settings.unknownCode = X.settings.unknownCode
  codeTable : Y.codeTable = X.codeTable
  modules : ∃ sources, Consistent sources X ∧
    ∀ name x, X.modules.find? name = some x → (Y.fetch name).1 = .ok (sources x.serial)

section

variable {bytes tail rest : Bytes} (hreturns : Returns X Y) (hX : ¬ X.Exhausted → X.Coherent ∧ X.Whole)
  (hsave : X.save.1 = .ok bytes) (hload : Y.load (bytes ++ tail) = (.ok rest, Y'))
include hreturns hX hsave hload

/-- The tree that a machine saved, whatever the host adds. -/
theorem Returns.scopes_load : Y'.scopes = X.scopes.recast (newSerial X Y) fun _ => 0 := by
  obtain ⟨extra, rfl⟩ := exists_extra hsave
  rw [List.append_assoc] at hload
  obtain ⟨sources, hconsistent, hbytes⟩ := hreturns.modules
  obtain ⟨hcoherent, hwhole⟩ := hX hreturns.fresh
  exact load_scopes hconsistent hreturns.sized (hcoherent.intact hwhole) hreturns.policy
    hreturns.codeTable hbytes hload

/-- Every map of a loaded state was saved. -/
theorem Returns.exists_saved {id : ScopeId} {map' : MapScope} (hmap' : Y'.scopes.map? id = some map') :
    ∃ map, X.scopes.map? id = some map ∧ map.recast (newSerial X Y) (fun _ => 0) = map' := by
  rw [hreturns.scopes_load hX hsave hload, ScopeTree.map?_recast] at hmap'
  exact Option.map_eq_some_iff.1 hmap'

/-- What a coherent machine saved comes back coherent. -/
theorem Returns.coherent : Y'.Coherent := by
  intro id map' hmap'
  obtain ⟨map, hmap, rfl⟩ := hreturns.exists_saved hX hsave hload hmap'
  exact ((hX hreturns.fresh).1 id map hmap).recast _ _

end

/-! ## Runs -/

/-- Scripts call built-in functions only, the host keeps to no terms, and states are loaded that machines
of such runs saved. -/
def Regime.managed : Regime := { Regime.unaided {} with returns := Returns }

/-- The machines that come about where scripts call built-in functions only, so that ticks and starts
for a result are the same whatever host there is.  The host adds any modules to maps, and does what it
likes to what is its own.  States that are loaded were saved by such machines, and the modules come back
with them. -/
def Managed : Machine → Prop := Regime.managed.Run

namespace Managed

/-- A new machine. -/
theorem make (settings : Settings) : Managed (Machine.make settings) := Regime.Run.make settings

/-- A deed of the host. -/
theorem operate (h : Managed m) (hdeed : Deed {} m m') : Managed m' := Regime.Run.handle h (.deed hdeed)

/-- A tick. -/
theorem exec {fuel : Nat} (h : Managed m) (hexec : ∀ host, m.exec host fuel = some m') : Managed m' :=
  Regime.Run.handle h (.exec trivial hexec)

/-- Managed machines are coherent, and no thread of them is out of the tree. -/
theorem coherent (h : Managed m) (hfresh : ¬ m.Exhausted) : m.Coherent ∧ m.Whole :=
  Regime.Run.coherent h (fun _ _ ht => ht.elim)
    (fun hreturns hX hsave hload => Returns.coherent hreturns hX hsave hload) hfresh

/-- At rest no thread is out of the tree. -/
theorem filled (h : Managed m) (hfresh : ¬ m.Exhausted) : m.Filled := by
  obtain ⟨-, hwhole⟩ := h.coherent hfresh
  intro id map hmap s hs t ht
  obtain ⟨i, hi⟩ := List.getElem?_of_mem hs
  cases hplace : t.isPlaceholder with
  | false => rfl
  | true => exact absurd ⟨map, hmap, s, hi, rfl, t, ht, rfl, hplace⟩ (hwhole id i s.module.toModule t.id)

/-- **Managed machines are in order**, while ids do not go round. -/
theorem ordered (h : Managed m) (hfresh : ¬ m.Exhausted) : m.Ordered := by
  induction h with
  | make settings => exact fun id map hmap => by cases hmap
  | @handle occasion m m' h hdo ih =>
    have hfresh' : ¬ m.Exhausted := fun he => hfresh (he.mono hdo.trace)
    cases hdo with
    | deed hdeed => exact (ih hfresh').deed hdeed hfresh
    | exec _ hexec =>
      have hcases := exec_cases (obeys_quietHost Never) tame_never (hexec quietHost)
      rcases hcases with ⟨-, hstirs⟩ | ⟨-, m₁, hticks, rfl⟩
      · exact (hstirs.orderly (ih hfresh') hfresh).1
      · have hfilled := filled h hfresh'
        exact ((hticks.orderly ((ih hfresh').of_scopes rfl) hfilled hfresh).1).of_scopes rfl
    | startResult _ hstart =>
      have hacts : Acts Never _ default _ _ :=
        acts_startResult (acts_turn (obeys_quietHost Never) tame_never) (hstart quietHost)
      exact (hacts.orderly (ih hfresh') hfresh).1
  | load _ _ htakes _ => exact htakes.elim
  | reload hX _ hsave hload hreturns ihX _ =>
    intro id map' hmap'
    obtain ⟨map, hmap, rfl⟩ := Returns.exists_saved hreturns (coherent hX) hsave hload hmap'
    exact (ihX hreturns.fresh id map hmap).of_plan (map.plan_recast _ _) rfl rfl

end Managed

/-- **Names and threads in order.**  In every machine that comes about where scripts call built-in
functions only, and in which no map has given away its last thread id, every map is in order. -/
theorem Managed.map_inOrder (h : Managed m) (hfresh : ¬ m.Exhausted) (id : ScopeId)
    (map : MapScope) (hmap : m.scopes.map? id = some map) : map.InOrder id :=
  (h.ordered hfresh id map hmap).inOrder (h.filled hfresh id map hmap)

/-- A unit is loaded and added to a map, and the host asks for something. -/
theorem Managed.launch (hm : Managed m) (name : ModuleName) (data : Bytes) (scope : ScopeId)
    (names : List ModuleName) (r : Request) :
    Managed (((m.loadModule name data).2.addNamed scope names).2.serve r).2 := by
  have hloaded : Managed (m.loadModule name data).2 :=
    hm.operate (.loading rfl trivial fun _ _ _ => trivial)
  have hadded : Managed ((m.loadModule name data).2.addNamed scope names).2 :=
    hloaded.operate (.adding rfl fun _ _ => trivial)
  exact hadded.operate (.request r trivial)

/-- How the machine with the script started comes about, on any terms. -/
theorem managed_startedMachine : Managed startedMachine := (Managed.make _).launch ..

/-- The thread falls asleep whatever host there is. -/
theorem exec_startedMachine (host : Host) : startedMachine.exec host 9 = some sleepingMachine := by
  have hruns : startedMachine.hostFuncs = #[] ∧ (startedMachine.exec quietHost 9).isSome = true := by
    decide +kernel
  obtain ⟨m, hm⟩ := Option.isSome_iff_exists.1 hruns.2
  rw [exec_eq_of_hostFuncs hruns.1, sleepingMachine, hm, Option.getD_some]

/-- The machine with the thread asleep is managed. -/
theorem managed_sleepingMachine : Managed sleepingMachine :=
  managed_startedMachine.exec exec_startedMachine

/-- The machine that the sleeping thread was loaded into. -/
def reloadedMachine : Machine := (fetchingMachine.load sleepingMachine.stateBytes).2

/-- A host that sets its services only keeps a machine managed. -/
theorem Managed.equip (hm : Managed m) (hooks : Hooks) : Managed { m with hooks } :=
  hm.operate (.adjust m m.settings.branchLimit m.rng m.builtins m.hostFuncs m.held m.snapshots trivial
    trivial trivial)

/-- A thread that slept, was saved and loaded holds its name in a map in order. -/
theorem Managed.map_inOrder_reloaded : Managed reloadedMachine ∧
    ¬ reloadedMachine.Exhausted ∧ ∃ map, reloadedMachine.scopes.map? {} = some map ∧
      map.InOrder {} ∧ (map.threads.map (·.id), map.slots.find? (.number 1)) =
        ([1], some { moduleIndex := 0, scriptIndex := 0, thread := some 1 }) := by
  obtain ⟨hrest, hextra, hsized, hsettings, htable, hlast, hlast', hmap, hview⟩ :
      sleepingMachine.executing = false ∧ sleepingMachine.hooks.has .saveExtra = false ∧
      sleepingMachine.Sized ∧
      { smallMachine.settings with branchLimit := sleepingMachine.settings.branchLimit } =
        sleepingMachine.settings ∧
      smallMachine.codeTable = sleepingMachine.codeTable ∧
      (∀ e ∈ sleepingMachine.trace, logEnd? e ≠ some '5') ∧
      (∀ e ∈ reloadedMachine.trace, logEnd? e ≠ some '5') ∧
      (reloadedMachine.scopes.map? {}).isSome = true ∧
      (reloadedMachine.scopes.map? {}).map (fun map => (map.threads.map (·.id),
        map.slots.find? (.number 1))) =
        some ([1], some { moduleIndex := 0, scriptIndex := 0, thread := some 1 }) := by decide +kernel
  have hfresh : ¬ sleepingMachine.Exhausted := not_exhausted_of_logEnd? hlast
  have hsupplied : SuppliedBy (fun _ => sleepingUnit.write) sleepingMachine fetchingMachine :=
    ⟨hsettings, htable, fun _ _ _ => rfl, rfl, by decide⟩
  have hconsistent := reached_sleepingMachine.consistent
  obtain ⟨Y, hload, -⟩ := load_of_intact hconsistent hsized
    (reached_sleepingMachine.intact (fun _ h => h.elim) hfresh) hsupplied []
  have hY : Y = reloadedMachine := by
    rw [reloadedMachine, ← List.append_nil sleepingMachine.stateBytes, hload]
  rw [hY] at hload
  have hfetching : Managed fetchingMachine := (Managed.make _).equip _
  have hreturns : Returns sleepingMachine fetchingMachine :=
    ⟨hfresh, hsized, by rw [← hsupplied.settings], htable, _, hconsistent, fun _ _ _ => rfl⟩
  have hmanaged : Managed reloadedMachine :=
    Regime.Run.reload managed_sleepingMachine hfetching (save_eq hrest hextra) hload hreturns
  obtain ⟨map, hmap⟩ := Option.isSome_iff_exists.1 hmap
  rw [hmap] at hview
  exact ⟨hmanaged, not_exhausted_of_logEnd? hlast', map, hmap,
    Managed.map_inOrder hmanaged (not_exhausted_of_logEnd? hlast') {} map hmap, Option.some.inj hview⟩

/-! ## Modules that are not registered -/

/-- A unit with a script of one instruction. -/
def listedUnit : Bytecode where
  regCount := 0
  arrCount := 0
  strings := []
  functions := []
  scripts := [{
    name := .number 1, type := 0, flags := 0, argCount := 0, regCount := 0, arrCount := 0
    entry := 0 }]
  code := [2]

/-- A unit with a script of another name, which has a register more and begins further behind. -/
def strayUnit : Bytecode where
  regCount := 0
  arrCount := 0
  strings := []
  functions := []
  scripts := [{
    name := .number 2, type := 0, flags := 0, argCount := 0, regCount := 1, arrCount := 0
    entry := 2 }]
  code := [2, 2, 2]

/-- A new machine whose host has the bytes of the first unit. -/
def listingMachine : Machine :=
  { smallMachine with hooks := { installed := [.loadModule], loadModule := fun _ => .ok listedUnit.write } }

/-- The machine with the first unit loaded. -/
def listedMachine : Machine := (listingMachine.loadModule { name := "listed" } listedUnit.write).2

/-- The machine with both units loaded. -/
def bothMachine : Machine := (listedMachine.loadModule { name := "stray" } strayUnit.write).2

/-- What the machine with the first unit saved is loaded into the one with both, so that the second unit is
not registered any more. -/
def relistedMachine : Machine := (bothMachine.load listedMachine.stateBytes).2

/-- The host held on to the second unit.  It is added to a map, and its script started. -/
def strayMachine : Machine :=
  ((relistedMachine.addModules {} (bothMachine.registered [{ name := "stray" }])).2.serve
    (.start {} (.number 2) [] {})).2

/-- What comes of the saved state of that machine. -/
def astrayMachine : Machine := (listingMachine.load strayMachine.stateBytes).2

/-- How the machine with the stray unit comes about, where hosts may add it. -/
theorem run_strayMachine {R : Regime} (hroom : ∀ t, R.terms.room t)
    (hgives : ∀ n data, R.terms.gives n data) (hoffers : ∀ hooks, R.terms.offers hooks)
    (htables : ∀ m, R.terms.tables m m.codeTable) (hstrings : ∀ t, R.terms.strings t t)
    (hadds : ∀ x ∈ bothMachine.registered [{ name := "stray" }], R.terms.adds relistedMachine x)
    (hreturns : ∀ {X Y}, Returns X Y → R.returns X Y) : R.Run strayMachine := by
  obtain ⟨hcapacity, hnames, hfetch, hlast, hsized, hpolicy, htable, hsave, hload⟩ :
      listedMachine.strings.capacity < UInt32.size ∧
      listedMachine.modules.keys = [{ name := "listed" }] ∧
      (bothMachine.fetch { name := "listed" }).1.toOption = some listedUnit.write ∧
      (∀ e ∈ listedMachine.trace, logEnd? e ≠ some '5') ∧ listedMachine.Sized ∧
      bothMachine.settings.unknownCode = listedMachine.settings.unknownCode ∧
      bothMachine.codeTable = listedMachine.codeTable ∧
      (listedMachine.executing = false ∧ listedMachine.hooks.has .saveExtra = false) ∧
      (bothMachine.load listedMachine.stateBytes).1.toOption = some [] := by decide +kernel
  have hconsistent : Consistent (fun _ => listedUnit.write) listedMachine := by
    have hlisting : Reached (fun _ => listedUnit.write) (fun _ => False) listingMachine :=
      (Reached.make _).operate (.equip smallMachine _ _ _ _ _ _ _)
    exact (hlisting.operate (.loading rfl hcapacity fun _ _ _ => rfl)).consistent
  have hback : Returns listedMachine bothMachine := by
    refine ⟨not_exhausted_of_logEnd? hlast, hsized, hpolicy, htable, _, hconsistent, fun name x hx => ?_⟩
    have hname : name ∈ listedMachine.modules.keys := OrdMap.mem_keys.2 (hx ▸ rfl)
    rw [hnames, List.mem_singleton] at hname
    rw [hname]
    exact eq_ok_of_toOption hfetch
  have hlisting : R.Run listingMachine :=
    .handle (.make _) (.deed (.adjust smallMachine _ _ _ _ _ _ (hoffers _) (htables _) (hstrings _)))
  have hlisted : R.Run listedMachine :=
    .handle hlisting (.deed (.loading rfl (hroom _) fun _ _ _ => hgives _ _))
  have hboth : R.Run bothMachine :=
    .handle hlisted (.deed (.loading rfl (hroom _) fun _ _ _ => hgives _ _))
  have hloaded : bothMachine.load listedMachine.stateBytes = (.ok [], relistedMachine) := by
    rw [relistedMachine, ← eq_ok_of_toOption hload]
  rw [← List.append_nil listedMachine.stateBytes] at hloaded
  have hrelisted : R.Run relistedMachine :=
    .reload hlisted hboth (save_eq hsave.1 hsave.2) hloaded (hreturns hback)
  exact .handle (.handle hrelisted (.deed (.addModules {} hadds))) (.deed (.request _ (hroom _)))

/-- **Why modules of saved maps are registered.**  A host may come to this state, and all that `Returns` asks
for is there but that the module of the map is registered.  The state is loaded, and its thread is one of
the module that is: the name of its script leads nowhere, and the thread stands behind the code. -/
theorem Managed.not_inOrder_astray : Managed strayMachine ∧ Managed listingMachine ∧
    ¬ strayMachine.Exhausted ∧ strayMachine.Sized ∧
    listingMachine.settings.unknownCode = strayMachine.settings.unknownCode ∧
    listingMachine.codeTable = strayMachine.codeTable ∧
    (∀ name x, strayMachine.modules.find? name = some x →
      (listingMachine.fetch name).1 = .ok listedUnit.write) ∧
    listingMachine.load strayMachine.stateBytes = (.ok [], astrayMachine) ∧
    ∃ map, astrayMachine.scopes.map? {} = some map ∧ ¬ map.InOrder {} ∧
      ∃ t ∈ map.threads, ∃ x, t.module = some x ∧ x.code.size < t.codePtr := by
  obtain ⟨hlast, hsized, hpolicy, htable, hload, hslots, hthreads⟩ :
      (∀ e ∈ strayMachine.trace, logEnd? e ≠ some '5') ∧ strayMachine.Sized ∧
      listingMachine.settings.unknownCode = strayMachine.settings.unknownCode ∧
      listingMachine.codeTable = strayMachine.codeTable ∧
      (listingMachine.load strayMachine.stateBytes).1.toOption = some [] ∧
      (astrayMachine.scopes.map? {}).map (fun map =>
        ((map.slots.find? (.number 2)).isSome, map.declaration? (.number 2))) = some (true, none) ∧
      (astrayMachine.scopes.map? {}).map (fun map => map.threads.map fun t =>
        t.module.map fun x => decide (x.code.size < t.codePtr)) = some [some true] := by
    decide +kernel
  have hstray : Managed strayMachine := run_strayMachine (fun _ => trivial) (fun _ _ => trivial)
    (fun _ => trivial) (fun _ => trivial) (fun _ => trivial) (fun _ _ => trivial) fun h => h
  obtain ⟨map, hmap, hslots⟩ := Option.map_eq_some_iff.1 hslots
  rw [hmap, Option.map_some, Option.some.injEq] at hthreads
  obtain ⟨t, hone, hthread⟩ := List.map_eq_singleton_iff.1 hthreads
  obtain ⟨x, hmodule, hbehind⟩ := Option.map_eq_some_iff.1 hthread
  rw [Prod.mk.injEq] at hslots
  refine ⟨hstray, (Managed.make _).equip _, not_exhausted_of_logEnd? hlast, hsized, hpolicy, htable,
    fun _ _ _ => rfl, by rw [astrayMachine, ← eq_ok_of_toOption hload], map, hmap, fun horder => ?_, t,
    hone ▸ List.mem_singleton_self t, x, hmodule, of_decide_eq_true hbehind⟩
  have hdeclared := horder.declared (.number 2)
  rw [hslots.2, Option.map_eq_none_iff] at hdeclared
  rw [hdeclared] at hslots
  cases hslots.1

end Machine

end ScriptMachine
