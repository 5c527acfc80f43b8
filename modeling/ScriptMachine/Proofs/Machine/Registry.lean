import ScriptMachine.Machine.SaveState
import ScriptMachine.Proofs.Machine.Evolution
import ScriptMachine.Proofs.Module.Origin
import ScriptMachine.Proofs.Scope.RoundTrip
import ScriptMachine.Proofs.StringTable.RoundTrip

/-!
# How modules come into the registry

A module is registered by loading its bytes (`Registers`); asking for modules adds to the registry
and to the strings, and touches neither scopes nor settings (`Grows`).  A saved state is loaded by
reading its strings, asking for its modules and reading its scopes (`load_eq_ok`).
-/

namespace ScriptMachine.Machine

/-- The module `x` is loaded and registered. -/
structure Registers (m : Machine) (name : ModuleName) (data : Bytes) (x : LoadedModule)
    (m' : Machine) : Prop where
  load : Module.load name data m.codeTable m.settings.unknownCode m.strings =
    .ok (x.toModule, m'.strings)
  serial : x.serial = m.nextSerial
  modules : m'.modules = m.modules.insert name x
  nextSerial : m'.nextSerial = m.nextSerial + 1

/-- Modules and strings are added, and nothing else happens but messages. -/
structure Grows (m m' : Machine) : Prop where
  settings : m'.settings = m.settings
  codeTable : m'.codeTable = m.codeTable
  hooks : m'.hooks = m.hooks
  sources : m'.sources = m.sources
  scopes : m'.scopes = m.scopes
  tick : m'.tick = m.tick
  executing : m'.executing = m.executing
  rng : m'.rng = m.rng
  trace : m.trace <:+ m'.trace
  reports : m'.reports = m.reports
  capacity : m.strings.capacity ≤ m'.strings.capacity
  modules : ∀ name x, m.modules.find? name = some x → m'.modules.find? name = some x

namespace Grows

variable {m m' m'' : Machine}

theorem trans (h : Grows m m') (h' : Grows m' m'') : Grows m m'' where
  settings := h'.settings.trans h.settings
  codeTable := h'.codeTable.trans h.codeTable
  hooks := h'.hooks.trans h.hooks
  sources := h'.sources.trans h.sources
  scopes := h'.scopes.trans h.scopes
  tick := h'.tick.trans h.tick
  executing := h'.executing.trans h.executing
  rng := h'.rng.trans h.rng
  trace := h.trace.trans h'.trace
  reports := h'.reports.trans h.reports
  capacity := Nat.le_trans h.capacity h'.capacity
  modules name x hx := h'.modules name x (h.modules name x hx)

/-- Messages are left. -/
theorem append (m : Machine) {events : List Event} (h : ∀ e ∈ events, e.isLife = false) :
    Grows m { m with trace := events ++ m.trace } :=
  ⟨rfl, rfl, rfl, rfl, rfl, rfl, rfl, rfl, List.suffix_append .., reports_append m h, Nat.le_refl _,
    fun _ _ h => h⟩

theorem refl (m : Machine) : Grows m m := append m (List.forall_mem_nil _)

end Grows

variable {m m' : Machine} {name : ModuleName} {data : Bytes} {r : Except ReadError LoadedModule}

/-- Messages one after another make a longer trace. -/
theorem foldl_log {α : Type} (level : LogLevel) (f : α → String) (l : List α) (m : Machine) :
    l.foldl (fun m a => m.log level (f a)) m =
      { m with trace := (l.map fun a => .log level (f a)).reverse ++ m.trace } := by
  induction l generalizing m with
  | nil => rfl
  | cons a l ih =>
    rw [List.foldl_cons, ih]
    simp [log, emit]

/-- **Registering.**  The module is loaded with the strings there are; whatever comes of it,
messages are left. -/
theorem register_eq (m : Machine) (name : ModuleName) (data : Bytes) :
    ∃ events, (∀ e ∈ events, Event.isLife e = false) ∧ m.register name data =
      match Module.load name data m.codeTable m.settings.unknownCode m.strings with
      | .error e => (.error e, { m with trace := events ++ m.trace })
      | .ok (x, strings) => (.ok { x with serial := m.nextSerial },
        { m with
          trace := events ++ m.trace
          strings
          nextSerial := m.nextSerial + 1
          modules := m.modules.insert name { x with serial := m.nextSerial } }) := by
  unfold register
  simp only [foldl_log (f := fun p : Word × Nat =>
    s!"unknown opcode {p.1} at offset {p.2} translated to a kill")]
  have hlogs : ∀ (f : Word × Nat → String) (l : List (Word × Nat)),
      ∀ e ∈ (l.map fun p => Event.log .debug (f p)).reverse, e.isLife = false := by
    intro f l e he
    obtain ⟨p, -, rfl⟩ := List.mem_map.1 (List.mem_reverse.1 he)
    rfl
  cases Module.load name data m.codeTable m.settings.unknownCode m.strings with
  | error e => exact ⟨_, hlogs _ _, rfl⟩
  | ok p => exact ⟨_ :: _, List.forall_mem_cons.2 ⟨rfl, hlogs _ _⟩, rfl⟩

/-- Loading a module makes no strings free. -/
theorem capacity_le_of_load {t t' : StringTable} {x : Module} {table : CodeTable}
    {policy : UnknownPolicy} (h : Module.load name data table policy t = .ok (x, t')) :
    t.capacity ≤ t'.capacity := by
  obtain ⟨unit, -, h⟩ := bind_eq_ok h
  obtain ⟨l, -, h⟩ := bind_eq_ok h
  cases h
  exact StringTable.size_le_internLocked ..

/-- What becomes of a registration. -/
theorem register_cases (hnew : m.modules.find? name = none) (h : m.register name data = (r, m')) :
    Grows m m' ∧ ((∃ e, r = .error e ∧
        Module.load name data m.codeTable m.settings.unknownCode m.strings = .error e ∧
        m'.modules = m.modules ∧ m'.strings = m.strings) ∨
      ∃ x, r = .ok x ∧ Registers m name data x m') := by
  obtain ⟨events, hquiet, heq⟩ := register_eq m name data
  rw [heq] at h
  split at h
  · rename_i e hload
    cases h
    exact ⟨.append m hquiet, .inl ⟨e, rfl, hload, rfl, rfl⟩⟩
  · rename_i x strings hload
    cases h
    refine ⟨⟨rfl, rfl, rfl, rfl, rfl, rfl, rfl, rfl, List.suffix_append .., reports_append m hquiet,
      capacity_le_of_load hload, fun k y hy => ?_⟩, .inr ⟨_, rfl, hload, rfl, rfl, rfl⟩⟩
    rw [OrdMap.find?_insert, if_neg, hy]
    rintro hk
    cases Std.LawfulEqOrd.compare_eq_iff_eq.1 hk
    cases hnew.symm.trans hy

/-- Asking the host for bytes leaves a message at most. -/
theorem fetch_eq (m : Machine) (name : ModuleName) : ∃ events, (∀ e ∈ events, Event.isLife e = false) ∧
    (m.fetch name).2 = { m with trace := events ++ m.trace } := by
  unfold fetch
  split
  · exact ⟨[], nofun, rfl⟩
  · split
    · exact ⟨[_], List.forall_mem_singleton.2 rfl, rfl⟩
    · exact ⟨[], nofun, rfl⟩

/-- The bytes come from the host alone. -/
theorem fetch_congr (hsources : m'.sources = m.sources) (hhooks : m'.hooks = m.hooks)
    (name : ModuleName) : (m'.fetch name).1 = (m.fetch name).1 := by
  unfold fetch
  rw [hsources, hhooks]
  split
  · rfl
  · split <;> rfl

/-- **Asking for a module** that is not there loads it from the bytes the host has. -/
theorem getModule_cases (hnew : m.modules.find? name = none) (h : m.getModule name = (r, m')) :
    Grows m m' ∧ ((∃ e, r = .error e ∧ (∀ data, (m.fetch name).1 = .ok data →
        Module.load name data m.codeTable m.settings.unknownCode m.strings = .error e) ∧
        m'.modules = m.modules ∧ m'.strings = m.strings) ∨
      ∃ data x, (m.fetch name).1 = .ok data ∧ r = .ok x ∧ Registers m name data x m') := by
  obtain ⟨events, hquiet, hfetch⟩ := fetch_eq m name
  unfold getModule at h
  rw [hnew] at h
  simp only at h
  split at h
  · rename_i e m₁ heq
    cases h
    cases (congrArg Prod.snd heq).symm.trans hfetch
    refine ⟨.append m hquiet, .inl ⟨e, rfl, fun data hdata => ?_, rfl, rfl⟩⟩
    rw [heq] at hdata
    cases hdata
  · rename_i data m₁ heq
    cases (congrArg Prod.snd heq).symm.trans hfetch
    obtain ⟨hgrows, hcases⟩ := register_cases (m := { m with trace := events ++ m.trace }) hnew h
    refine ⟨(Grows.append m hquiet).trans hgrows, hcases.imp ?_ ?_⟩
    · rintro ⟨e, rfl, hload, hmodules, hstrings⟩
      refine ⟨e, rfl, fun data' hdata => ?_, hmodules, hstrings⟩
      rw [heq] at hdata
      cases hdata
      exact hload
    · rintro ⟨x, rfl, hr⟩
      exact ⟨data, x, by rw [heq], rfl, hr.load, hr.serial, hr.modules, hr.nextSerial⟩

/-- Asking for a module lets the registry grow. -/
theorem grows_getModule (h : m.getModule name = (r, m')) : Grows m m' := by
  cases hfind : m.modules.find? name with
  | none => exact (getModule_cases hfind h).1
  | some x =>
    unfold getModule at h
    rw [hfind] at h
    cases h
    exact .refl m

/-- A module that was asked for is registered. -/
theorem find?_of_getModule {x : LoadedModule} (h : m.getModule name = (.ok x, m')) :
    m'.modules.find? name = some x := by
  cases hfind : m.modules.find? name with
  | none =>
    rcases (getModule_cases hfind h).2 with ⟨e, he, -⟩ | ⟨data, y, -, hy, hr⟩
    · cases he
    · cases hy
      rw [hr.modules, OrdMap.find?_insert, if_pos (Std.ReflCmp.compare_self)]
  | some y =>
    unfold getModule at h
    rw [hfind] at h
    cases h
    exact hfind

/-- Loading a module leaves the tree alone and adds to the trace at most. -/
theorem loadModule_scopes (h : m.loadModule name data = (r, m')) :
    m.trace <:+ m'.trace ∧ m'.scopes = m.scopes ∧ m'.tick = m.tick ∧
      m'.executing = m.executing ∧ m'.reports = m.reports := by
  unfold loadModule at h
  cases hfind : m.modules.find? name with
  | some x =>
    rw [hfind] at h
    cases h
    exact ⟨List.suffix_refl _, rfl, rfl, rfl, rfl⟩
  | none =>
    rw [hfind] at h
    simp only at h
    split at h
    · rename_i hregister
      cases h
      have hgrows := (register_cases hfind hregister).1
      exact ⟨hgrows.trace, hgrows.scopes, hgrows.tick, hgrows.executing, hgrows.reports⟩
    · rename_i hregister
      cases h
      have hgrows := (register_cases hfind hregister).1
      exact ⟨hgrows.trace, hgrows.scopes, hgrows.tick, hgrows.executing, hgrows.reports⟩

/-- Freeing a module leaves the tree alone and adds to the trace at most. -/
theorem freeModule_scopes (m : Machine) (name : ModuleName) :
    m.trace <:+ (m.freeModule name).2.trace ∧ (m.freeModule name).2.scopes = m.scopes ∧
      (m.freeModule name).2.tick = m.tick ∧ (m.freeModule name).2.executing = m.executing ∧
      (m.freeModule name).2.reports = m.reports := by
  unfold freeModule
  split
  · exact ⟨List.suffix_refl _, rfl, rfl, rfl, rfl⟩
  · split
    · exact ⟨List.suffix_refl _, rfl, rfl, rfl, rfl⟩
    · exact ⟨List.suffix_cons .., rfl, rfl, rfl, rfl⟩

/-! ## Loading a saved state -/

/-- Scopes that are taken in have what the readers check. -/
theorem takeGlobals_eq_ok {modules : List LoadedModule} {n : Nat} {s rest : Bytes}
    (h : takeGlobals modules n m s = (.ok rest, m'))
    (hm : ∀ id map, m.scopes.map? id = some map → map.Restored modules id) :
    m' = { m with scopes := m'.scopes } ∧
      ∀ id map, m'.scopes.map? id = some map → map.Restored modules id := by
  induction n generalizing m s with
  | zero =>
    cases h
    exact ⟨rfl, hm⟩
  | succ n ih =>
    unfold takeGlobals at h
    split at h
    · cases h
    · rename_i g scope s₁ hread
      have hstep : ∀ id map, ScopeTree.map? ⟨m.scopes.globals.insert g scope⟩ id = some map →
          map.Restored modules id := by
        intro id map hmap
        simp only [ScopeTree.map?, ScopeTree.hub?, ScopeTree.global?, OrdMap.find?_insert] at hmap
        split at hmap
        · rename_i hg
          simp only [Option.bind_eq_bind, Option.bind_some] at hmap
          obtain ⟨x, hx, hmap⟩ := Option.bind_eq_some_iff.1 hmap
          have := yields_global modules s (g, scope) s₁ hread id.hub x hx id.map map hmap
          cases Std.LawfulEqOrd.compare_eq_iff_eq.1 hg
          exact this
        · exact hm id map hmap
      obtain ⟨heq, hrestored⟩ := ih h hstep
      exact ⟨heq, hrestored⟩

/-- Modules that are fetched are registered. -/
theorem fetchModules_eq_ok {n : Nat} {s rest : Bytes} {modules : List LoadedModule}
    (h : fetchModules n m s = (.ok (modules, rest), m')) :
    Grows m m' ∧ ∀ x ∈ modules, ∃ name, m'.modules.find? name = some x := by
  induction n generalizing m s modules with
  | zero =>
    cases h
    exact ⟨.refl _, by simp⟩
  | succ n ih =>
    unfold fetchModules at h
    split at h
    · cases h
    · rename_i name s₁ _
      split at h
      · cases h
      · rename_i x m₁ hget
        split at h
        · cases h
        · rename_i xs s₂ m₂ hfetch
          cases h
          obtain ⟨hgrows, hxs⟩ := ih hfetch
          refine ⟨(grows_getModule hget).trans hgrows, fun y hy => ?_⟩
          rcases List.mem_cons.1 hy with rfl | hy
          · exact ⟨name, hgrows.modules _ _ (find?_of_getModule hget)⟩
          · exact hxs y hy

/-- A saved state was loaded: `strings` was read, `modules` were fetched, which led to `m₁`, and
scopes were read. -/
structure Loaded (m : Machine) (strings : StringTable) (modules : List LoadedModule)
    (m₁ m' : Machine) : Prop where
  read : ∃ s rest, StringTable.read s = (strings, .ok rest)
  fetch : ∃ n s rest, fetchModules n { m with scopes := {}, modules := {}, strings } s =
    (.ok (modules, rest), m₁)
  scopes : ∀ id map, m'.scopes.map? id = some map → map.Restored modules id
  restored : m'.strings = m₁.strings.restoreLocks strings.lockCounts
  registry : m'.modules = m₁.modules
  settings : ∃ branchLimit, m'.settings = { m₁.settings with branchLimit }
  codeTable : m'.codeTable = m₁.codeTable
  tick : m'.tick = m₁.tick
  trace : m₁.trace <:+ m'.trace

/-- What the host makes of its own bytes shows in the trace only. -/
theorem takeExtra_eq_ok {s rest : Bytes} (h : m.takeExtra s = (.ok rest, m')) :
    ∃ events, m' = { m with trace := events ++ m.trace } := by
  unfold takeExtra at h
  split at h
  · split at h
    · cases h
    · cases h
      exact ⟨[_], rfl⟩
  · cases h
    exact ⟨[], rfl⟩

/-- Contents that are taken without failure were loaded. -/
theorem takeContents_eq_ok {s rest : Bytes} {count : Nat}
    (h : m.takeContents s = (.ok (count, rest), m')) :
    ∃ strings modules m₁, Loaded m strings modules m₁ m' := by
  unfold takeContents at h
  simp only at h
  split at h
  · cases h
  rename_i rest₁ hstrings
  split at h
  · cases h
  split at h
  · cases h
  rename_i modules rest₂ m₁ hfetch
  split at h
  · cases h
  split at h
  · cases h
  rename_i rest₃ m₂ htree
  cases h
  obtain ⟨heq, hrestored⟩ := takeGlobals_eq_ok htree fun id map hmap => by
    rw [(fetchModules_eq_ok hfetch).1.scopes] at hmap
    cases hmap
  refine ⟨_, modules, m₁, ⟨s, rest₁, Prod.ext rfl hstrings⟩, ⟨_, _, _, hfetch⟩, hrestored, ?_, ?_, ?_,
    ?_, ?_, ?_⟩
  · rw [heq]
  · rw [heq]
  · exact ⟨m₁.settings.branchLimit, by rw [heq]⟩
  · rw [heq]
  · rw [heq]
  · have htrace : m₂.trace = m₁.trace := by rw [heq]
    simp only [htrace, List.suffix_refl]

/-- **Loading** reads the strings, fetches the modules and takes in the scopes. -/
theorem exists_loaded {s rest : Bytes} (h : m.load s = (.ok rest, m')) :
    ∃ strings modules m₁, Loaded m strings modules m₁ m' := by
  unfold load at h
  split at h
  · cases h
  split at h
  · cases h
  rename_i limit rng s₁ _
  split at h
  · cases h
  rename_i count s₂ m₂ htake
  simp only at h
  split at h
  · cases h
  rename_i s₃ m₃ hextra
  cases h
  obtain ⟨events, rfl⟩ := takeExtra_eq_ok hextra
  obtain ⟨strings, modules, m₁, hl⟩ := takeContents_eq_ok htake
  obtain ⟨branchLimit, hsettings⟩ := hl.settings
  refine ⟨strings, modules, m₁, hl.read, hl.fetch, hl.scopes, hl.restored, hl.registry, ⟨limit, ?_⟩,
    hl.codeTable, hl.tick, ?_⟩
  · simp only [log, emit, hsettings]
  · exact hl.trace.trans ((List.suffix_append ..).trans (List.suffix_cons ..))

end ScriptMachine.Machine
