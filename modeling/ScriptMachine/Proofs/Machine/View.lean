import ScriptMachine.Machine.SaveState
import ScriptMachine.Proofs.Machine.Evolution
import ScriptMachine.Proofs.Scope.Naturality
import ScriptMachine.Proofs.StringTable.Plain

/-!
# What a machine shows

Serial numbers of modules, who is running, what the host keeps and how modules are fetched make no
difference to what scripts do; the number of ticks makes one only by telling which threads had a turn
in the current tick.  `Machine.view` forgets all of this.  What else it forgets is up to two parameters.
A `Lens` says what is kept of the string table, the generator and the registry.  A `Vantage` says which
part of the tree is in sight, whether threads show that they had their turn in the current tick, and
what is taken to have happened before the first event of the trace.

Every function that the scheduler is made of commutes with the view, where it is applied to a scope in
sight: applied to the view of a machine it answers what it answers for the machine, and leaves the view
of what it leaves.
-/

namespace ScriptMachine

/-- What is kept of the tick noted with a thread: with `b`, whether it is the current one. -/
def stamp (b : Bool) (now n : Nat) : Nat := if b = true ∧ 0 < now ∧ n = now then 1 else 0

/-- No tick noted looks the same from every tick. -/
@[simp] theorem stamp_zero (b : Bool) (now : Nat) : stamp b now 0 = 0 := by
  unfold stamp
  split
  · omega
  · rfl

/-- A tick under way can tell its own threads. -/
theorem stamp_eq_iff {now n : Nat} (h : 0 < now) : stamp true now n = stamp true now now ↔ n = now := by
  have hnow : stamp true now now = 1 := if_pos ⟨rfl, h, rfl⟩
  rw [hnow, stamp]
  split
  · rename_i hn
    simp [hn.2.2]
  · rename_i hn
    have hne : n ≠ now := fun heq => hn ⟨rfl, h, heq⟩
    simp [hne]

/-- The event with other serial numbers and noted ticks. -/
def Event.recast (σ : ModuleName → Nat) (g : Nat → Nat) : Event → Event
  | .threadStart t => .threadStart (t.recast σ g)
  | .threadStop t => .threadStop (t.recast σ g)
  | e => e

/-- The services but for the fetching of modules. -/
def Hooks.bare (h : Hooks) : Hooks :=
  { h with
    installed := h.installed.filter (· != .loadModule)
    loadModule := fun n => .error (.malformed (.noLoader n)) }

/-- The bare services have all but the loader. -/
theorem Hooks.has_bare (h : Hooks) {k : Hook} (hk : k ≠ .loadModule) : h.bare.has k = h.has k := by
  simp [Hooks.has, bare, hk]

/-- What is kept of the strings, the generator and the registry.  The contents of strings are always
kept; what is kept of locks stays the same if tables of which the same is kept are locked alike. -/
structure Lens where
  table : StringTable → StringTable
  seed : Word → Word
  registry : OrdMap ModuleName LoadedModule → OrdMap ModuleName LoadedModule
  bytes?_table : ∀ t i, (table t).bytes? i = t.bytes? i
  lock_congr : ∀ {t u} i, table t = table u → table (t.lock i) = table (u.lock i)
  unlock_congr : ∀ {t u} i, table t = table u → table (t.unlock i) = table (u.unlock i)

/-- Where a machine is looked at from. -/
structure Vantage where
  /-- Whether threads show that they had their turn in the current tick. -/
  told : Bool
  /-- The current tick. -/
  now : Nat
  /-- What happened before the first event of the trace, the newest first. -/
  past : List Event
  /-- What is kept of the tree. -/
  tree : ScopeTree → ScopeTree
  /-- The global scopes in sight. -/
  sees : Word → Prop
  global?_tree : ∀ {g} s, sees g → (tree s).global? g = s.global? g
  tree_modifyGlobal : ∀ {g} s f, sees g → tree (s.modifyGlobal g f) = (tree s).modifyGlobal g f

namespace Vantage

variable (V : Vantage)

/-- What is kept of a noted tick. -/
def stamp (n : Nat) : Nat := ScriptMachine.stamp V.told V.now n

/-- A thread as it shows. -/
def face (t : Thread) : Thread := t.recast (fun _ => 0) V.stamp

/-- An event as it shows. -/
def event (e : Event) : Event := e.recast (fun _ => 0) V.stamp

@[simp] theorem stamp_zero : V.stamp 0 = 0 := ScriptMachine.stamp_zero ..

/-! ## The part of the tree in sight -/

variable {V} {id : ScopeId} (hs : V.sees id.global) (s : ScopeTree)
include hs

/-- The vantage shows the hubs of its global scopes. -/
theorem hub?_tree (k : Word) : (V.tree s).hub? id.global k = s.hub? id.global k := by
  simp only [ScopeTree.hub?, V.global?_tree s hs]

/-- The vantage shows the maps of its global scopes. -/
theorem map?_tree : (V.tree s).map? id = s.map? id := by
  simp only [ScopeTree.map?, hub?_tree hs]

/-- The vantage shows the module scopes of its global scopes. -/
theorem module?_tree (i : Nat) : (V.tree s).module? id i = s.module? id i := by
  simp only [ScopeTree.module?, map?_tree hs]

/-- The vantage shows the variables of its global scopes. -/
theorem vars?_tree (level : Level) (i : Nat) : (V.tree s).vars? level id i = s.vars? level id i := by
  cases level with
  | thread => rfl
  | module => simp only [ScopeTree.vars?, module?_tree hs]
  | hub => simp only [ScopeTree.vars?, hub?_tree hs]
  | global => simp only [ScopeTree.vars?, V.global?_tree s hs]

/-- Whether a map in sight is active shows. -/
theorem isActive_tree : (V.tree s).isActive id = s.isActive id := by
  simp only [ScopeTree.isActive, V.global?_tree s hs]

/-- What changes a map in sight changes what shows. -/
theorem tree_modifyMap (f : MapScope → MapScope) :
    V.tree (s.modifyMap id f) = (V.tree s).modifyMap id f :=
  V.tree_modifyGlobal s _ hs

/-- What changes variables in sight changes what shows. -/
theorem tree_modifyVars (level : Level) (i : Nat) (f : Vars → Vars) :
    V.tree (s.modifyVars level id i f) = (V.tree s).modifyVars level id i f := by
  cases level with
  | thread => rfl
  | module => exact tree_modifyMap hs s _
  | hub => exact V.tree_modifyGlobal s _ hs
  | global => exact V.tree_modifyGlobal s _ hs

end Vantage

namespace Machine

/-- The machine without what makes no difference. -/
def view (L : Lens) (V : Vantage) (m : Machine) : Machine :=
  { m with
    hooks := m.hooks.bare
    strings := L.table m.strings
    scopes := (V.tree m.scopes).recast (fun _ => 0) V.stamp
    modules := L.registry m.modules
    sources := {}
    rng := L.seed m.rng
    tick := V.stamp m.tick
    nextSerial := 0
    running := []
    held := []
    snapshots := {}
    trace := m.trace.map V.event ++ V.past }

variable {L : Lens} {V : Vantage} (m : Machine)

/-! ## What can be seen in the view -/

section

variable {m} {V' : Vantage} {m' : Machine} (h : m.view L V = m'.view L V')
include h

/-- Whether scripts run shows. -/
theorem executing_of_view : m.executing = m'.executing := by
  have hview : (m.view L V).executing = (m'.view L V').executing := by rw [h]
  exact hview

/-- The settings show. -/
theorem settings_of_view : m.settings = m'.settings := by
  have hview : (m.view L V).settings = (m'.view L V').settings := by rw [h]
  exact hview

/-- The numbers of built-in functions show. -/
theorem builtins_of_view : m.builtins = m'.builtins := by
  have hview : (m.view L V).builtins = (m'.view L V').builtins := by rw [h]
  exact hview

/-- The numbers of host functions show. -/
theorem hostFuncs_of_view : m.hostFuncs = m'.hostFuncs := by
  have hview : (m.view L V).hostFuncs = (m'.view L V').hostFuncs := by rw [h]
  exact hview

/-- The strings show as the lens has them. -/
theorem table_of_view : L.table m.strings = L.table m'.strings := by
  have hview : (m.view L V).strings = (m'.view L V').strings := by rw [h]
  exact hview

end

/-! ## Events -/

@[simp] theorem log_view (level : LogLevel) (text : String) :
    (m.view L V).log level text = (m.log level text).view L V := rfl

/-- A report shows, but for that of the loader. -/
theorem report_view {k : Hook} (hk : k ≠ .loadModule) (e : Event) :
    (m.view L V).report k (V.event e) = (m.report k e).view L V := by
  have hhas : (m.view L V).hooks.has k = m.hooks.has k := m.hooks.has_bare hk
  unfold report
  rw [hhas]
  split
  · rfl
  · rfl

/-! ## Looking things up -/

variable {scope : ScopeId} (hs : V.sees scope.global)
include hs

/-- A map in sight shows as it is, but for serial numbers and ticks. -/
theorem map?_view : (m.view L V).scopes.map? scope =
    (m.scopes.map? scope).map (MapScope.recast (fun _ => 0) V.stamp) := by
  rw [← Vantage.map?_tree hs m.scopes]
  exact ScopeTree.map?_recast ..

/-- A module scope in sight shows as it is, but for serial numbers and ticks. -/
theorem module?_view (i : Nat) : (m.view L V).scopes.module? scope i =
    (m.scopes.module? scope i).map (ModuleScope.recast (fun _ => 0) V.stamp) := by
  rw [← Vantage.module?_tree hs m.scopes]
  exact ScopeTree.module?_recast ..

/-- The name of a script leads to the same one in what shows. -/
theorem resolveScript?_view (name : ScriptName) :
    (m.view L V).resolveScript? scope name = m.resolveScript? scope name := by
  simp only [resolveScript?, map?_view m hs]
  cases m.scopes.map? scope <;> rfl

/-- Whether a script is active shows. -/
theorem scriptActive_view (name : ScriptName) :
    (m.view L V).scriptActive scope name = m.scriptActive scope name := by
  simp only [scriptActive, map?_view m hs, Option.map_map]
  congr 2
  funext map
  exact map.scriptActive_recast ..

/-- The thread at a place. -/
theorem threadAt_view (i j : Nat) :
    ((m.view L V).scopes.module? scope i).bind (·.threads[j]?) =
      ((m.scopes.module? scope i).bind (·.threads[j]?)).map V.face := by
  rw [module?_view m hs]
  cases m.scopes.module? scope i with
  | none => rfl
  | some s => exact List.getElem?_map ..

/-- The thread with an id. -/
theorem threadNamed_view (i : Nat) (id : Word) :
    ((m.view L V).scopes.module? scope i).bind (·.thread? id) =
      ((m.scopes.module? scope i).bind (·.thread? id)).map V.face := by
  rw [module?_view m hs]
  cases m.scopes.module? scope i with
  | none => rfl
  | some s => exact s.thread?_recast ..

/-! ## Changing the tree -/

section

variable {m}

/-- A change to a map is one to what shows of it. -/
theorem view_modifyMap {f g : MapScope → MapScope}
    (h : ∀ x, (f x).recast (fun _ => 0) V.stamp = g (x.recast (fun _ => 0) V.stamp)) :
    { m.view L V with scopes := (m.view L V).scopes.modifyMap scope g } =
      { m with scopes := m.scopes.modifyMap scope f }.view L V := by
  have hscopes := ScopeTree.recast_modifyMap (s := V.tree m.scopes) _ _ h scope
  simp only [view, Vantage.tree_modifyMap hs, hscopes]

/-- A change to a module scope is one to what shows of it. -/
theorem view_modifyModule {f g : ModuleScope → ModuleScope}
    (h : ∀ x, (f x).recast (fun _ => 0) V.stamp = g (x.recast (fun _ => 0) V.stamp)) (i : Nat) :
    { m.view L V with scopes := (m.view L V).scopes.modifyModule scope i g } =
      { m with scopes := m.scopes.modifyModule scope i f }.view L V :=
  view_modifyMap hs fun x => MapScope.recast_modifyModule _ _ h x i

/-- A change to a thread is one to what shows of it. -/
theorem view_modifyThread {f g : Thread → Thread} (h : ∀ t, V.face (f t) = g (V.face t)) (i : Nat)
    (k : Word) :
    { m.view L V with
        scopes := (m.view L V).scopes.modifyModule scope i fun x => x.modifyThread k g } =
      { m with scopes := m.scopes.modifyModule scope i fun x => x.modifyThread k f }.view L V :=
  view_modifyModule hs (fun x => ModuleScope.recast_modifyThread _ _ h x k) i

/-- Every thread of a module scope is changed on its own. -/
theorem view_mapThreads {f h : Thread → Thread} (hf : ∀ t, V.face (f t) = h (V.face t)) (i : Nat) :
    { m.view L V with scopes := (m.view L V).scopes.modifyModule scope i fun x =>
        { x with threads := x.threads.map h } } =
      { m with scopes := m.scopes.modifyModule scope i fun x =>
        { x with threads := x.threads.map f } }.view L V := by
  refine view_modifyModule hs (fun x => ?_) i
  simp only [ModuleScope.recast, List.map_map]
  congr 2
  funext t
  exact hf t

end

/-! ## Starting and stopping scripts -/

omit hs in
/-- A new thread shows as one that is new in what shows. -/
theorem recast_withThread (σ : ModuleName → Nat) (g : Nat → Nat) (map : MapScope) (i : Nat)
    (t : Thread) (takesName : Bool) :
    (withThread map i t takesName).recast σ g =
      withThread (map.recast σ g) i (t.recast σ g) takesName := by
  have hadd : (map.takeThreadId.2.modifyModule i fun s =>
      { s with threads := s.threads ++ [t] }).recast σ g =
      (map.recast σ g).takeThreadId.2.modifyModule i fun s =>
        { s with threads := s.threads ++ [t.recast σ g] } := by
    rw [MapScope.takeThreadId_recast]
    refine MapScope.recast_modifyModule σ g (fun s => ?_) _ i
    simp only [ModuleScope.recast, List.map_append, List.map_cons, List.map_nil]
  unfold withThread
  simp only [Thread.scriptName?_recast, ← hadd]
  cases takesName with
  | false => rfl
  | true => cases t.scriptName? <;> rfl

/-- Spawning shows. -/
theorem spawn_view (i j : Nat) (args : List Word) (info : ThreadInfo) (takesName : Bool) :
    (m.view L V).spawn scope i j args info takesName =
      ((m.spawn scope i j args info takesName).1,
        (m.spawn scope i j args info takesName).2.view L V) := by
  have hset : ∀ map : MapScope, { m.view L V with
      scopes := (m.view L V).scopes.modifyMap scope fun _ => map.recast (fun _ => 0) V.stamp } =
      { m with scopes := m.scopes.modifyMap scope fun _ => map }.view L V := by
    intro map
    refine view_modifyMap hs fun _ => ?_
    rfl
  have hmap' := map?_view (L := L) m hs
  cases hmap : m.scopes.map? scope with
  | none =>
    rw [hmap] at hmap'
    simp only [spawn, hmap, hmap', Option.map_none]
  | some map =>
    rw [hmap, Option.map_some] at hmap'
    have hplace' := map.getElem?_recast (fun _ => 0) V.stamp i
    cases hplace : map.modules[i]? with
    | none =>
      rw [hplace, Option.map_none] at hplace'
      simp only [spawn, hmap, hmap', MapScope.takeThreadId, hplace, hplace']
      exact congrArg (Prod.mk none) (hset map.takeThreadId.2)
    | some place =>
      rw [hplace, Option.map_some] at hplace'
      have hmake' := Thread.make?_recast (fun _ => 0) V.stamp_zero map.nextThreadId
        place.module scope i j args info
      cases hmake : Thread.make? map.nextThreadId place.module scope i j args info with
      | none =>
        rw [hmake, Option.map_none] at hmake'
        have hmodule : (place.recast (fun _ => 0) V.stamp).module =
          place.module.recast fun _ => 0 := rfl
        have hnext : (map.recast (fun _ => 0) V.stamp).nextThreadId = map.nextThreadId := rfl
        simp only [spawn, hmap, hmap', MapScope.takeThreadId, hplace, hplace', hmodule, hnext, hmake,
          hmake']
        exact congrArg (Prod.mk none) (hset map.takeThreadId.2)
      | some t =>
        rw [hmake, Option.map_some] at hmake'
        rw [spawn_eq hmap hplace hmake, spawn_eq hmap' hplace' hmake', ← recast_withThread]
        have hplaced := ((withThread map i t takesName).getElem?_recast (fun _ => 0) V.stamp i)
        simp only [hplaced, Thread.scriptName?_recast, hset]
        have hnext : (map.recast (fun _ => 0) V.stamp).nextThreadId = map.nextThreadId := rfl
        rw [hnext]
        cases (withThread map i t takesName).modules[i]? with
        | none => rfl
        | some s =>
          simp only [Option.map_some, Option.bind_some, ModuleScope.thread?_recast]
          cases s.thread? map.nextThreadId with
          | none => rfl
          | some u =>
            simp only [Option.map_some, log_view]
            exact congrArg (Prod.mk _) (report_view _ (k := .threadStart) (by decide) (.threadStart u))

theorem startAt_view (i j : Nat) (args : List Word) (info : ThreadInfo) (forced : Bool) :
    (m.view L V).startAt scope i j args info forced =
      ((m.startAt scope i j args info forced).1, (m.startAt scope i j args info forced).2.view L V) := by
  have hset : ∀ (k : Word) (state : ThreadState), { m.view L V with
      scopes := (m.view L V).scopes.modifyModule scope i fun s =>
        s.modifyThread k fun t => { t with state } } =
      { m with scopes := m.scopes.modifyModule scope i fun s =>
        s.modifyThread k fun t => { t with state } }.view L V := by
    intro k state
    refine view_modifyThread hs (fun t => ?_) i k
    rfl
  simp only [startAt, map?_view m hs]
  cases m.scopes.map? scope with
  | none => rfl
  | some map =>
    have howns : ∀ name, ownsName (map.recast (fun _ => 0) V.stamp) name i j =
      ownsName map name i j := fun _ => rfl
    simp only [Option.map_some, MapScope.script?_recast]
    cases map.script? i j with
    | none => rfl
    | some script =>
      simp only [howns, MapScope.scriptThread?_recast]
      have hholder : (if (ownsName map script.name i j && !script.multi) = true then
            (map.scriptThread? script.name).map (Thread.recast (fun _ => 0) V.stamp)
          else none) =
          (if (ownsName map script.name i j && !script.multi) = true then
            map.scriptThread? script.name else none).map V.face := by
        split <;> rfl
      rw [hholder]
      cases (if (ownsName map script.name i j && !script.multi) = true then
        map.scriptThread? script.name else none) with
      | none => simp only [Option.map_none, spawn_view _ hs]
      | some t =>
        have hid : (V.face t).id = t.id := rfl
        have hstate : (V.face t).state = t.state := rfl
        simp only [Option.map_some, hid, hstate, hset, spawn_view _ hs]
        split
        · rfl
        · split
          · rfl
          · split <;> rfl

theorem startScript_view (name : ScriptName) (args : List Word) (info : ThreadInfo) :
    (m.view L V).startScript scope name args info =
      ((m.startScript scope name args info).1, (m.startScript scope name args info).2.view L V) := by
  simp only [startScript, resolveScript?_view m hs, startAt_view m hs]
  cases m.resolveScript? scope name <;> rfl

theorem startForced_view (name : ScriptName) (args : List Word) (info : ThreadInfo) :
    (m.view L V).startForced scope name args info =
      ((m.startForced scope name args info).1, (m.startForced scope name args info).2.view L V) := by
  simp only [startForced, resolveScript?_view m hs, startAt_view m hs]
  cases m.resolveScript? scope name <;> rfl

theorem startAll_view (args : List Word) (info : ThreadInfo) (targets : List (Nat × Nat)) :
    (m.view L V).startAll scope args info targets =
      ((m.startAll scope args info targets).1, (m.startAll scope args info targets).2.view L V) := by
  induction targets generalizing m with
  | nil => rfl
  | cons p rest ih => simp only [startAll, startAt_view _ hs, ih]

theorem startType_view (type : Word) (args : List Word) (info : ThreadInfo) :
    (m.view L V).startType scope type args info =
      ((m.startType scope type args info).1, (m.startType scope type args info).2.view L V) := by
  simp only [startType, map?_view m hs]
  cases m.scopes.map? scope with
  | none => rfl
  | some map =>
    have htargets : ((map.recast (fun _ => 0) V.stamp).modules.zipIdx.flatMap
        fun p => scriptsOfType p.1 p.2 type) =
        map.modules.zipIdx.flatMap fun p => scriptsOfType p.1 p.2 type := by
      simp only [MapScope.recast, List.zipIdx_map, List.flatMap_map]
      rfl
    simp only [Option.map_some, htargets, startAll_view m hs]

theorem setScriptState_view (name : ScriptName) (state : ThreadState) :
    (m.view L V).setScriptState scope name state =
      ((m.setScriptState scope name state).1, (m.setScriptState scope name state).2.view L V) := by
  simp only [setScriptState, resolveScript?_view m hs]
  cases m.resolveScript? scope name with
  | none => rfl
  | some slot =>
    simp only [module?_view m hs]
    cases m.scopes.module? scope slot.moduleIndex with
    | none => rfl
    | some place =>
      have hreach : ∀ t, reaches slot.scriptIndex slot.thread (V.face t) =
          reaches slot.scriptIndex slot.thread t := by
        intro t
        simp only [reaches, Vantage.face, Thread.isPlaceholder_recast]
        rfl
      have hany : (place.recast (fun _ => 0) V.stamp).threads.any
          (reaches slot.scriptIndex slot.thread) =
          place.threads.any (reaches slot.scriptIndex slot.thread) := by
        rw [ModuleScope.recast, List.any_map]
        exact congrArg place.threads.any (funext hreach)
      have hset := view_mapThreads (L := L) (m := m) hs
        (f := fun t => if reaches slot.scriptIndex slot.thread t then { t with state } else t)
        (h := fun t => if reaches slot.scriptIndex slot.thread t then { t with state } else t)
        (fun t => by rw [hreach]; split <;> rfl) slot.moduleIndex
      simp only [Option.map_some, hany, hset]
      split <;> rfl

theorem reattach_view (i : Nat) (t : Thread) :
    (m.view L V).reattach scope i (V.face t) = (m.reattach scope i t).view L V := by
  have hset : ∀ u : Thread, { m.view L V with
      scopes := (m.view L V).scopes.modifyModule scope i fun s =>
        s.modifyThread t.id fun _ => V.face u } =
      { m with scopes := m.scopes.modifyModule scope i fun s =>
        s.modifyThread t.id fun _ => u }.view L V := by
    intro u
    refine view_modifyThread hs (fun _ => ?_) i t.id
    rfl
  have hid : (V.face t).id = t.id := rfl
  have hplaced : (((m.view L V).scopes.module? scope i).bind (·.thread? t.id)).filter
      Thread.isPlaceholder =
      (((m.scopes.module? scope i).bind (·.thread? t.id)).filter Thread.isPlaceholder).map V.face := by
    rw [threadNamed_view m hs]
    cases (m.scopes.module? scope i).bind (·.thread? t.id) with
    | none => rfl
    | some u =>
      simp only [Option.map_some, Option.filter_some, Vantage.face, Thread.isPlaceholder_recast]
      split <;> rfl
  simp only [reattach, hid, hplaced]
  cases ((m.scopes.module? scope i).bind (·.thread? t.id)).filter Thread.isPlaceholder with
  | none => exact report_view (m.log .debug _) (by decide) (.threadStop { t with state := .stopped })
  | some p =>
    have hp : (V.face p).state = p.state := rfl
    have ht : (V.face t).state = t.state := rfl
    simp only [Option.map_some, hp, ht]
    cases p.state with
    | stopped => exact hset { t with state := .stopped }
    | paused =>
      simp only
      split
      · exact hset t
      · exact hset { t with state := .paused }
    | inactive => exact hset t
    | running => exact hset t
    | waitNumber n => exact hset t
    | waitName s => exact hset t
    | waitTag type tag => exact hset t

end Machine

end ScriptMachine
