import ScriptMachine.Proofs.Machine.Operations

/-!
# Machines are consistent

In a consistent machine the string table is well-formed, every registered module stands where its
bytes put it, maps hold registered modules only, and script names lead to scripts
(`Machine.Consistent`).  Every machine that a careful host runs is consistent (`Reached.consistent`):
each of its deeds keeps the property, so does whatever happens in turns, and a saved state that could be
loaded has it.  That script names lead to scripts holds on any terms (`Regime.Run.led`).
-/

namespace ScriptMachine

namespace MapScope

variable {known : LoadedModule → Prop} {now : Nat} {wraps : Prop} {id : ScopeId} {m m' : MapScope}

/-- There are no slots in a new map. -/
theorem led_empty : Led {} := fun _ _ hslot => by cases hslot

/-- Slots still lead to scripts where modules are added and slots stay within. -/
theorem Led.of_within {new : List LoadedModule} (hm : m.Led)
    (hmodules : m'.modules.map (·.module) = m.modules.map (·.module) ++ new)
    (hslots : SlotsWithin m.slots m'.slots) : m'.Led := by
  intro name slot' hslot'
  obtain ⟨slot, hslot, hmodule, hscript⟩ := hslots name slot' hslot'
  exact (hm name slot hslot).of_append hmodules hmodule hscript

/-- Script names go on to lead to scripts. -/
theorem Step.led (h : Step known now wraps id m m') (hm : m.Led) : m'.Led := by
  induction h with
  | @restate m m' houtline hthreads hslots hnext =>
    have hstep : Step known now wraps id m m' := .restate houtline hthreads hslots hnext
    obtain ⟨new, hmodules, -⟩ := hstep.modules
    exact hm.of_within hmodules hslots
  | @spawn m m' _ _ _ _ _ _ hs ht hmodules hslots hnext hwraps =>
    have hstep : Step known now wraps id m m' := .spawn hs ht hmodules hslots hnext hwraps
    obtain ⟨new, hmodules, -⟩ := hstep.modules
    exact hm.of_within hmodules hslots
  | skip hslot hstray => exact hm
  | @reap m m' i j hmodules hslots hnext =>
    have hstep : Step known now wraps id m m' := .reap i j hmodules hslots hnext
    obtain ⟨new, hmodules, -⟩ := hstep.modules
    exact hm.of_within hmodules hslots
  | @add m m' module hknown hmodules hslots hnext =>
    have hstep : Step known now wraps id m m' := .add hknown hmodules hslots hnext
    obtain ⟨new, heq, -⟩ := hstep.modules
    intro name slot' hslot'
    rcases hslots name slot' hslot' with ⟨slot, hslot, hmodule, hscript⟩ | ⟨hlast, hscript⟩
    · exact (hm name slot hslot).of_append heq hmodule hscript
    · refine ⟨ModuleScope.make module, ?_, hscript⟩
      rw [hmodules, hlast]
      simp
  | trans _ _ ih ih' => exact ih' (ih hm)

end MapScope

namespace Machine

/-- Script names lead to scripts. -/
def Led (m : Machine) : Prop := ∀ id map, m.scopes.map? id = some map → map.Led

/-- Strings, modules and maps fit together.  `sources` are the bytes the modules were loaded from. -/
structure Consistent (sources : Nat → Bytes) (m : Machine) : Prop where
  strings : m.strings.Wellformed
  modules : ∀ name x, m.modules.find? name = some x → x.name = name ∧
    x.toModule.Stands m.strings ⟨sources x.serial, m.codeTable, m.settings.unknownCode⟩
  places : ∀ id map, m.scopes.map? id = some map → ∀ s ∈ map.modules, m.Knows s.module
  led : ∀ id map, m.scopes.map? id = some map → map.Led

variable {sources : Nat → Bytes} {m m' : Machine}

/-- Slots lead to scripts along all that a map goes through. -/
theorem Led.evolve {known : LoadedModule → Prop} {now : Nat} {wraps : Prop} (h : m.Led)
    (hm : m.scopes.Evolves known now wraps m'.scopes) : m'.Led :=
  hm.forall_maps (fun hstep hled => hstep.led hled) (fun _ => MapScope.led_empty) h

/-- A new machine is consistent. -/
theorem consistent_make (settings : Settings) : Consistent sources (Machine.make settings) where
  strings := StringTable.wellformed_empty
  modules name x h := by cases h
  places id map h := by cases h
  led id map h := by cases h

/-- Maps of a tree that evolved hold registered modules, if the modules that were added are registered. -/
theorem Consistent.places_evolve {known : LoadedModule → Prop} {now : Nat} {wraps : Prop} {s : ScopeTree}
    (h : Consistent sources m) (hs : m.scopes.Evolves known now wraps s)
    (hknown : ∀ x, known x → m.Knows x) :
    ∀ id map, s.map? id = some map → ∀ p ∈ map.modules, m.Knows p.module := by
  refine hs.forall_maps (fun hstep hmap p' hp' => ?_) (fun _ p hp => by cases hp) h.places
  obtain ⟨new, hmodules, hnew⟩ := hstep.modules
  have hmem := List.mem_map_of_mem (f := (·.module)) hp'
  rw [hmodules] at hmem
  rcases List.mem_append.1 hmem with hmem | hmem
  · obtain ⟨p, hp, heq⟩ := List.mem_map.1 hmem
    exact heq ▸ hmap p hp
  · exact hknown _ (hnew _ hmem)

/-- What lets a machine evolve keeps it consistent. -/
theorem Consistent.evolve (h : Consistent sources m) (hm : m.Evolves m') : Consistent sources m' where
  strings := hm.strings.wellformed h.strings
  modules name x hx := by
    rw [hm.modules] at hx
    obtain ⟨hname, hstands⟩ := h.modules name x hx
    refine ⟨hname, ?_⟩
    rw [hm.codeTable, hm.settings]
    refine hstands.keeps h.strings (hm.strings.mono fun i hi => ?_)
    exact ⟨x, OrdMap.mem_values.2 ⟨name, hx⟩, hi⟩
  places id map hmap p hp := by
    rw [Knows, hm.modules]
    exact h.places_evolve hm.scopes (fun _ hx => hx.elim) id map hmap p hp
  led := Led.evolve h.led hm.scopes

/-- Registered modules are added to a map. -/
theorem Consistent.addModules (h : Consistent sources m) (scope : ScopeId) {modules : List LoadedModule}
    (hknown : ∀ x ∈ modules, m.Knows x) : Consistent sources (m.addModules scope modules).2 := by
  have hensure : m.Evolves (m.ensureMap scope) := evolves_ensureMap scope
  have hmade := h.evolve hensure
  have hscopes : (m.ensureMap scope).scopes.Evolves (m.ensureMap scope).Knows 0 False
      ((m.ensureMap scope).registerAll scope modules).2.scopes := by
    refine evolves_registerAll_scopes _ scope fun x hx => ?_
    rw [Knows, hensure.modules]
    exact hknown x hx
  refine Consistent.evolve ?_ (stirs_addModules m scope modules).evolves
  rw [registerAll_eq]
  exact ⟨hmade.strings, hmade.modules, hmade.places_evolve hscopes fun _ hx => hx,
    Led.evolve hmade.led hscopes⟩

/-- Where threads change, modules and names stay. -/
theorem exists_of_modifyThreads {id id' : ScopeId} {i : Nat} {f : List Thread → List Thread}
    {map' : MapScope}
    (hmap' : (m.scopes.modifyModule id i fun s => { s with threads := f s.threads }).map? id' =
      some map') :
    ∃ map, m.scopes.map? id' = some map ∧ map'.slots = map.slots ∧
      map'.modules.map (·.module) = map.modules.map (·.module) := by
  rw [ScopeTree.modifyModule, ScopeTree.map?_modifyMap] at hmap'
  split at hmap'
  · rename_i hid
    obtain ⟨map, hmap, rfl⟩ := Option.map_eq_some_iff.1 hmap'
    refine ⟨map, hid ▸ hmap, rfl, ?_⟩
    apply List.ext_getElem?
    intro k
    simp only [MapScope.modifyModule, List.getElem?_map, List.getElem?_modify]
    split <;> cases map.modules[k]? <;> rfl
  · exact ⟨map', hmap', rfl, rfl⟩

/-- Slots do not look at threads. -/
theorem Led.modifyThreads (h : m.Led) (id : ScopeId) (i : Nat) (f : List Thread → List Thread) :
    Led { m with scopes := m.scopes.modifyModule id i fun s =>
      { s with threads := f s.threads } } := by
  intro id' map' hmap' name slot hslot
  obtain ⟨map, hmap, hslots, hmodules⟩ := exists_of_modifyThreads hmap'
  rw [hslots] at hslot
  exact (h id' map hmap name slot hslot).of_append (hmodules.trans (List.append_nil _).symm) rfl rfl

/-- Consistency does not look at threads. -/
theorem Consistent.modifyThreads (h : Consistent sources m) (id : ScopeId) (i : Nat)
    (f : List Thread → List Thread) :
    Consistent sources { m with scopes := m.scopes.modifyModule id i fun s =>
      { s with threads := f s.threads } } := by
  refine ⟨h.strings, h.modules, fun id' map' hmap' s' hs' => ?_, Led.modifyThreads h.led id i f⟩
  obtain ⟨map, hmap, -, hmodules⟩ := exists_of_modifyThreads hmap'
  have hmem : s'.module ∈ map.modules.map (·.module) := hmodules ▸ List.mem_map_of_mem hs'
  obtain ⟨s, hs, heq⟩ := List.mem_map.1 hmem
  exact heq ▸ h.places id' map hmap s hs

/-- Taking a thread out leaves a machine consistent. -/
theorem Consistent.detach (h : Consistent sources m) (scope : ScopeId) (i : Nat)
    (j : List Thread → Nat) (id : Word) : Consistent sources (m.detach scope i j id) :=
  h.modifyThreads scope i fun ts => ts.modify (j ts) fun _ => .placeholder id

/-- Taking a thread out leaves slots where they lead. -/
theorem Led.detach (h : m.Led) (scope : ScopeId) (i : Nat) (j : List Thread → Nat) (id : Word) :
    (m.detach scope i j id).Led :=
  h.modifyThreads scope i fun ts => ts.modify (j ts) fun _ => .placeholder id

/-- Putting a thread back leaves slots where they lead. -/
theorem Led.reattach (h : m.Led) (scope : ScopeId) (i : Nat) (t : Thread) :
    (m.reattach scope i t).Led := by
  unfold Machine.reattach
  simp only
  split
  · exact h.modifyThreads scope i _
  · intro id map hmap
    rw [report_scopes] at hmap
    exact h id map hmap

/-- A thread that ran is put back. -/
theorem Consistent.reattach (h : Consistent sources m) (scope : ScopeId) (i : Nat) (t : Thread) :
    Consistent sources (m.reattach scope i t) := by
  unfold Machine.reattach
  simp only
  split
  · exact h.modifyThreads scope i _
  · exact (h.evolve (.log ..)).evolve (.report ..)

/-! ## The registry -/

/-- A module is loaded. -/
theorem Consistent.registers {name : ModuleName} {data : Bytes} {x : LoadedModule}
    (h : Consistent sources m) (hgrows : Grows m m')
    (hr : Registers m name data x m') (hroom : m'.strings.capacity < UInt32.size)
    (hdata : data = sources x.serial) : Consistent sources m' := by
  have hload : Module.load name (sources x.serial) m.codeTable m.settings.unknownCode m.strings =
      .ok (x.toModule, m'.strings) := hdata ▸ hr.load
  let o : Origin := ⟨sources x.serial, m.codeTable, m.settings.unknownCode⟩
  obtain ⟨hstands, hname⟩ := Module.stands_of_load (o := o) hload h.strings hroom
  have hkeeps : ∀ kept, StringTable.Keeps kept m.strings m'.strings := fun kept =>
    Module.keeps_of_load (o := o) hload hroom
  refine ⟨(hkeeps fun _ => True).wellformed h.strings, fun name' y hy => ?_, ?_, ?_⟩
  · rw [hgrows.codeTable, hgrows.settings]
    rw [hr.modules, OrdMap.find?_insert] at hy
    split at hy
    · rename_i hk
      cases hy
      cases Std.LawfulEqOrd.compare_eq_iff_eq.1 hk
      exact ⟨hname, hstands⟩
    · obtain ⟨hname', hstands'⟩ := h.modules name' y hy
      exact ⟨hname', hstands'.keeps h.strings (hkeeps _)⟩
  · rw [hgrows.scopes]
    exact fun id map hmap s hs => hgrows.modules _ _ (h.places id map hmap s hs)
  · rw [hgrows.scopes]
    exact h.led

/-- Nothing comes of a request for a module. -/
theorem Consistent.grows (h : Consistent sources m) (hgrows : Grows m m')
    (hmodules : m'.modules = m.modules) (hstrings : m'.strings = m.strings) :
    Consistent sources m' := by
  refine ⟨hstrings ▸ h.strings, fun name x hx => ?_, ?_, ?_⟩
  · rw [hgrows.codeTable, hgrows.settings, hstrings]
    exact h.modules name x (hmodules ▸ hx)
  · rw [hgrows.scopes]
    exact fun id map hmap s hs => hgrows.modules _ _ (h.places id map hmap s hs)
  · rw [hgrows.scopes]
    exact h.led

/-- A module is asked for, which is made from its bytes if it is new. -/
theorem Consistent.getModule {name : ModuleName} {r : Except ReadError LoadedModule}
    (h : Consistent sources m) (hget : m.getModule name = (r, m'))
    (hroom : m'.strings.capacity < UInt32.size)
    (hgives : ∀ x data, m.modules.find? name = none → m'.modules.find? name = some x →
      (m.fetch name).1 = .ok data → data = sources x.serial) : Consistent sources m' := by
  cases hfind : m.modules.find? name with
  | some x =>
    unfold Machine.getModule at hget
    rw [hfind] at hget
    cases hget
    exact h
  | none =>
    obtain ⟨hgrows, hcases⟩ := getModule_cases hfind hget
    rcases hcases with ⟨e, -, -, hmodules, hstrings⟩ | ⟨data, x, hfetch, -, hr⟩
    · exact h.grows hgrows hmodules hstrings
    · refine h.registers hgrows hr hroom (hgives x data hfind ?_ hfetch)
      rw [hr.modules, OrdMap.find?_insert, if_pos Std.ReflCmp.compare_self]

/-- A module is loaded from its bytes. -/
theorem Consistent.loadModule {name : ModuleName} {data : Bytes}
    {r : Except ReadError LoadedModule} (h : Consistent sources m)
    (hload : m.loadModule name data = (r, m')) (hroom : m'.strings.capacity < UInt32.size)
    (hdata : ∀ x, m.modules.find? name = none → m'.modules.find? name = some x →
      data = sources x.serial) : Consistent sources m' := by
  unfold Machine.loadModule at hload
  cases hfind : m.modules.find? name with
  | some x =>
    rw [hfind] at hload
    cases hload
    exact h
  | none =>
    rw [hfind] at hload
    simp only at hload
    split at hload
    · rename_i e m₁ hregister
      cases hload
      obtain ⟨hgrows, ⟨e', -, -, hmodules, hstrings⟩ | ⟨x, hx, -⟩⟩ := register_cases hfind hregister
      · exact h.grows hgrows hmodules hstrings
      · cases hx
    · rename_i x m₁ hregister
      cases hload
      obtain ⟨hgrows, ⟨e', he, -⟩ | ⟨y, hy, hr⟩⟩ := register_cases hfind hregister
      · cases he
      · cases hy
        have hx : m₁.modules.find? name = some x := by
          rw [hr.modules, OrdMap.find?_insert, if_pos Std.ReflCmp.compare_self]
        have hm₁ := h.registers hgrows hr hroom (hdata x hfind hx)
        exact hm₁.evolve (.quiet rfl rfl rfl rfl rfl rfl (List.suffix_refl _) rfl rfl)

/-- A module goes that nobody refers to. -/
theorem Consistent.freeModule (h : Consistent sources m) (name : ModuleName) :
    Consistent sources (m.freeModule name).2 := by
  unfold Machine.freeModule
  split
  · exact h
  · rename_i x hx
    split
    · exact h
    · rename_i hfree
      refine Consistent.evolve (m := { m with
        modules := m.modules.erase name
        strings := x.releaseStrings m.strings
        sources := m.sources.erase name }) ?_ (.log ..)
      have hsame : StringTable.SameStrings m.strings (x.releaseStrings m.strings) :=
        StringTable.sameStrings_unlockAll ..
      refine ⟨hsame.wellformed h.strings, fun name' y hy => ?_, fun id map hmap s hs => ?_, h.led⟩
      · rw [OrdMap.find?_erase] at hy
        split at hy
        · cases hy
        · obtain ⟨hname, hstands⟩ := h.modules name' y hy
          exact ⟨hname, hstands.keeps h.strings (.of_same hsame)⟩
      · have hknown := h.places id map hmap s hs
        rw [Knows, OrdMap.find?_erase, if_neg]
        · exact hknown
        · -- the module is the one of the map, so it is referred to
          intro hk
          have hname := Std.LawfulEqOrd.compare_eq_iff_eq.1 hk
          have hsame : s.module = x := by
            have := hknown.symm.trans (hname ▸ hx)
            exact Option.some.inj this
          refine hfree ?_
          have hany : m.scopes.maps.any (fun map => map.modules.any fun s =>
              s.module.serial == x.serial || s.threads.any (·.module.any (·.serial == x.serial))) :=
            List.any_eq_true.2 ⟨map, ScopeTree.mem_maps hmap,
              List.any_eq_true.2 ⟨s, hs, by rw [hsame, beq_self_eq_true, Bool.true_or]⟩⟩
          rw [isReferenced, hany]
          rfl

/-! ## Runs -/

/-- **What a careful host does** keeps a machine consistent. -/
theorem Consistent.operation (h : Consistent sources m) (hop : Operation sources m m') :
    Consistent sources m' := by
  cases hop with
  | request r hroom => exact h.evolve (evolves_serve r fun _ _ => hroom)
  | addModules scope hadds => exact h.addModules scope hadds
  | @adjust branchLimit rng hooks codeTable strings builtins hostFuncs held snapshots _ htables
      hstrings =>
    have hsame : StringTable.SameStrings m.strings strings := by
      obtain rfl | ⟨i, rfl | rfl⟩ := hstrings
      · exact .refl _
      · exact StringTable.sameStrings_lock ..
      · exact StringTable.sameStrings_unlock ..
    refine ⟨hsame.wellformed h.strings, fun name x hx => ?_, h.places, h.led⟩
    obtain ⟨hname, hstands⟩ := h.modules name x hx
    refine ⟨hname, ?_⟩
    obtain rfl | hempty := htables
    · exact hstands.keeps h.strings (.of_same hsame)
    · have hnone : m.modules.find? name = some x := hx
      rw [hempty] at hnone
      cases hnone
  | note _ => exact h.evolve (.emit ..)
  | getModule hget hroom hgives => exact h.getModule hget hroom hgives
  | loadModule hload hroom hgives => exact h.loadModule hload hroom hgives
  | freeModule name => exact h.freeModule name
  | modifyVars level id i f => exact h.evolve (evolves_modifyVars ..)

/-- What happens in turns keeps a machine consistent. -/
theorem Goes.consistent {t t' : Thread} (hgoes : Goes (HostRule sources) m t m' t')
    (h : Consistent sources m) : Consistent sources m' := by
  induction hgoes with
  | evolve hm => exact h.evolve hm
  | proceed _ => exact h
  | host hA =>
    rcases hA.2 with rfl | hop
    · exact h
    · exact h.operation hop
  | busy _ _ => exact ⟨h.strings, h.modules, h.places, h.led⟩
  | trans _ _ ih ih' => exact ih' (ih h)
  | turn hx hu hu₁ _ ih => exact (ih (h.detach ..)).reattach ..

/-- Fetching modules by name keeps a machine consistent. -/
theorem Consistent.fetchModules {n : Nat} {s rest : Bytes} {modules : List LoadedModule}
    (h : Consistent sources m) (hfetch : fetchModules n m s = (.ok (modules, rest), m'))
    (hroom : m'.strings.capacity < UInt32.size)
    (hdata : ∀ name x, m.modules.find? name = none → m'.modules.find? name = some x →
      (m.fetch name).1 = .ok (sources x.serial)) : Consistent sources m' := by
  induction n generalizing m s modules with
  | zero =>
    cases hfetch
    exact h
  | succ n ih =>
    unfold Machine.fetchModules at hfetch
    split at hfetch
    · cases hfetch
    · rename_i name s₁ _
      split at hfetch
      · cases hfetch
      · rename_i x m₁ hget
        split at hfetch
        · cases hfetch
        · rename_i xs s₂ m₂ hrest
          cases hfetch
          have hgrows := (fetchModules_eq_ok hrest).1
          have hfirst := grows_getModule hget
          have hm₁ : Consistent sources m₁ :=
            h.getModule hget (Nat.lt_of_le_of_lt hgrows.capacity hroom) fun y data hnew hy hfetched => by
              cases hfetched.symm.trans (hdata name y hnew (hgrows.modules name y hy))
              rfl
          refine ih hm₁ hrest fun name' y hnew hy => ?_
          have hbefore : m.modules.find? name' = none := by
            cases hz : m.modules.find? name' with
            | none => rfl
            | some z => cases hnew.symm.trans (hfirst.modules name' z hz)
          rw [fetch_congr hfirst.sources hfirst.hooks]
          exact hdata name' y hbefore hy

/-- A machine that a saved state was loaded into is consistent. -/
theorem consistent_of_load {s rest : Bytes} (hload : m.load s = (.ok rest, m'))
    (hroom : m'.strings.capacity < UInt32.size)
    (hdata : ∀ name x, m'.modules.find? name = some x →
      (m.fetch name).1 = .ok (sources x.serial)) : Consistent sources m' := by
  obtain ⟨strings, modules, m₁, hl⟩ := exists_loaded hload
  obtain ⟨n, s₁, rest₁, hfetch⟩ := hl.fetch
  obtain ⟨s₂, rest₂, hread⟩ := hl.read
  have hsame : StringTable.SameStrings m₁.strings m'.strings := by
    rw [hl.restored]
    exact StringTable.sameStrings_restoreLocks ..
  have hstart : Consistent sources { m with scopes := {}, modules := {}, strings } :=
    ⟨StringTable.wellformed_of_read hread, nofun, nofun, nofun⟩
  have hbytes : ∀ name, (fetch { m with scopes := {}, modules := {}, strings } name).1 =
      (m.fetch name).1 := fetch_congr rfl rfl
  have hroom₁ : m₁.strings.capacity < UInt32.size := by
    rw [StringTable.capacity, ← hsame.size_eq]
    exact hroom
  have hm₁ : Consistent sources m₁ := hstart.fetchModules hfetch hroom₁ fun name x _ hx =>
    (hbytes name).trans (hdata name x (hl.registry ▸ hx))
  obtain ⟨branchLimit, hsettings⟩ := hl.settings
  refine ⟨hsame.wellformed hm₁.strings, fun name x hx => ?_, fun id map hmap s hs => ?_,
    fun id map hmap => (hl.scopes id map hmap).led⟩
  · obtain ⟨hname, hstands⟩ := hm₁.modules name x (hl.registry ▸ hx)
    rw [hl.codeTable, hsettings]
    exact ⟨hname, hstands.keeps hm₁.strings (.of_same hsame)⟩
  · obtain ⟨name, hname⟩ := (fetchModules_eq_ok hfetch).2 _ ((hl.scopes id map hmap).modules s hs)
    rw [Knows, hl.registry, (hm₁.modules name _ hname).1]
    exact hname

/-- **Every machine that a careful host runs is consistent.** -/
theorem Reached.consistent {L : Machine → Prop} (h : Reached sources L m) : Consistent sources m := by
  induction h with
  | make settings => exact consistent_make settings
  | handle _ hdo ih =>
    have hgoes : Goes (HostRule sources) _ default _ default := hdo.goes
    exact hgoes.consistent ih
  | load _ hload htakes _ => exact consistent_of_load hload htakes.1 htakes.2.1
  | reload _ _ _ _ hreturns _ _ => exact hreturns.elim

/-- A careful host adds modules by their names. -/
theorem Reached.addNamed {L : Machine → Prop} (h : Reached sources L m) (scope : ScopeId)
    (names : List ModuleName) : Reached sources L (m.addNamed scope names).2 :=
  h.operate (.adding rfl (knows_registered fun name x hx => (h.consistent.modules name x hx).1))

/-- Acts of a careful host lead from machine to machine. -/
theorem Reached.of_performAll {L : Machine → Prop} {host : Host} {fuel : Nat} {acts : List HostAct}
    {answers : List Answer} (h : Reached sources L m) (hhost : host.Obeys (HostRule sources))
    (hrun : performAll host fuel acts m = some (answers, m')) : Reached sources L m' := by
  induction acts generalizing m answers with
  | nil =>
    cases hrun
    exact h
  | cons d rest ih =>
    unfold Machine.performAll at hrun
    split at hrun
    · cases hrun
    · rename_i a m₁ hfirst
      obtain ⟨⟨as, m₂⟩, hrest, heq⟩ := Option.map_eq_some_iff.1 hrun
      cases heq
      refine ih ?_ hrest
      cases d with
      | ask r =>
        simp only [perform] at hfirst
        split at hfirst
        · rename_i hroom
          have hserve : (m.serve r).2 = m₁ := congrArg Prod.snd (Option.some.inj hfirst)
          rw [← hserve]
          exact h.operate (.request r hroom)
        · cases hfirst
      | addModules scope names =>
        cases hfirst
        exact h.addNamed scope names
      | exec =>
        obtain ⟨x, hexec, heq⟩ := Option.map_eq_some_iff.1 hfirst
        cases heq
        exact h.exec hhost hexec
      | startResult scope name args info =>
        obtain ⟨⟨r, x⟩, hstart, heq⟩ := Option.map_eq_some_iff.1 hfirst
        cases heq
        exact h.startResult hhost hstart

/-! ## Names in runs -/

/-- Whatever happens in turns, script names go on to lead to scripts. -/
theorem Goes.led {c : Terms} {t t' : Thread} (hgoes : Goes c.rule m t m' t') (h : m.Led) : m'.Led := by
  induction hgoes with
  | evolve hm => exact h.evolve hm.scopes
  | proceed _ => exact h
  | host hA =>
    rcases hA.2 with rfl | hdeed
    · exact h
    · exact h.evolve hdeed.advances.scopes
  | busy _ _ => exact h
  | trans _ _ ih ih' => exact ih' (ih h)
  | turn _ _ _ _ ih => exact (ih (h.detach _ _ _ _)).reattach _ _ _

/-- The names of a loaded state lead to scripts. -/
theorem led_of_load {s rest : Bytes} (hload : m.load s = (.ok rest, m')) : m'.Led := by
  obtain ⟨strings, modules, m₁, hl⟩ := exists_loaded hload
  exact fun id map hmap => (hl.scopes id map hmap).led

/-- **Script names lead to scripts** in all runs. -/
theorem Regime.Run.led {R : Regime} (h : R.Run m) : m.Led := by
  induction h with
  | make settings => exact fun id map hmap => by cases hmap
  | handle _ hdo ih => exact (hdo.goes (t := default)).led ih
  | load _ hload _ _ => exact led_of_load hload
  | reload _ _ _ hload _ _ _ => exact led_of_load hload

end Machine

end ScriptMachine
