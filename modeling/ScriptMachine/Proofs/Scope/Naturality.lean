import ScriptMachine.Proofs.Scope.Recast
import ScriptMachine.Scope.Codec

/-!
# Changes go the same way in a recast tree

What the machine does to a tree depends neither on the serial numbers of modules nor on the ticks
noted with threads.  So changing a tree and recasting it is recasting it and changing it in the same
way, and a recast tree answers, writes and releases what the tree does.  New threads have no tick
noted, so ticks are put through a function that keeps 0.
-/

namespace ScriptMachine

variable (σ : ModuleName → Nat) (g : Nat → Nat)

/-! ## Threads -/

namespace Thread

variable {g}

@[simp] theorem recast_id (t : Thread) : (t.recast σ g).id = t.id := rfl

@[simp] theorem recast_state (t : Thread) : (t.recast σ g).state = t.state := rfl

@[simp] theorem recast_lastTick (t : Thread) : (t.recast σ g).lastTick = g t.lastTick := rfl

/-- What a thread runs is seen without serial numbers and ticks. -/
@[simp] theorem isPlaceholder_recast (t : Thread) :
    (t.recast σ g).isPlaceholder = t.isPlaceholder := by
  simp [isPlaceholder, recast]

/-- The name of a script is seen without serial numbers and ticks. -/
@[simp] theorem scriptName?_recast (t : Thread) : (t.recast σ g).scriptName? = t.scriptName? := by
  simp only [scriptName?, script?, recast]
  cases t.module <;> rfl

/-- Placeholders have no serial number, and note no tick. -/
theorem recast_placeholder (hg : g 0 = 0) (id : Word) :
    (placeholder id).recast σ g = placeholder id := by
  simp [placeholder, recast, hg]

/-- New threads are alike but for serial numbers and ticks. -/
theorem make?_recast (hg : g 0 = 0) (id : Word) (x : LoadedModule) (scope : ScopeId) (i j : Nat)
    (args : List Word) (info : ThreadInfo) :
    make? id (x.recast σ) scope i j args info =
      (make? id x scope i j args info).map (recast σ g) := by
  unfold make?
  rw [Option.map_map]
  refine congrArg (Option.map · x.scripts[j]?) (funext fun s => ?_)
  simp [reset, recast, hg]

end Thread

/-! ## Module scopes -/

/-- What is done to an element can be done before or after a walk over the list. -/
theorem map_modify {α β : Type} {f : α → α} {g : β → β} {h : α → β} (hf : ∀ a, h (f a) = g (h a))
    (l : List α) (i : Nat) : (l.modify i f).map h = (l.map h).modify i g := by
  apply List.ext_getElem?
  intro k
  simp only [List.getElem?_map, List.getElem?_modify]
  cases l[k]? with
  | none => rfl
  | some a =>
    simp only [Option.map_eq_map, Option.map_some]
    split
    · rw [hf]
    · rfl

/-- What is done to the first element with a property can be done before or after a walk over the
list. -/
theorem map_updateFirst {α β : Type} {p : α → Bool} {q : β → Bool} {f : α → α} {f' : β → β}
    {h : α → β} (hp : ∀ a, q (h a) = p a) (hf : ∀ a, h (f a) = f' (h a)) (l : List α) :
    (updateFirst p f l).map h = updateFirst q f' (l.map h) := by
  induction l with
  | nil => rfl
  | cons a l ih =>
    simp only [updateFirst, List.map_cons, hp]
    split
    · rw [List.map_cons, hf]
    · rw [List.map_cons, ih]

namespace ModuleScope

@[simp] theorem thread?_recast (s : ModuleScope) (id : Word) :
    (s.recast σ g).thread? id = (s.thread? id).map (Thread.recast σ g) := by
  simp only [thread?, recast, List.find?_map]
  rfl

/-- Changes to a thread commute with recasting. -/
theorem recast_modifyThread {f f' : Thread → Thread}
    (h : ∀ t, (f t).recast σ g = f' (t.recast σ g)) (s : ModuleScope) (id : Word) :
    (s.modifyThread id f).recast σ g = (s.recast σ g).modifyThread id f' := by
  have hthreads := map_updateFirst (p := fun t : Thread => t.id == id) (q := fun t => t.id == id)
    (fun _ => rfl) h s.threads
  simp only [modifyThread, recast, hthreads]

@[simp] theorem references_recast (s : ModuleScope) :
    (s.recast σ g).references = s.references := by
  simp only [references, recast, List.flatMap_map]
  rfl

end ModuleScope

/-! ## Maps -/

namespace MapScope

theorem getElem?_recast (m : MapScope) (i : Nat) :
    (m.recast σ g).modules[i]? = (m.modules[i]?).map (ModuleScope.recast σ g) :=
  List.getElem?_map ..

@[simp] theorem findModule?_recast (m : MapScope) (name : ModuleName) :
    (m.recast σ g).findModule? name = m.findModule? name := by
  simp only [findModule?, recast, List.findIdx?_map]
  rfl

theorem addModule_recast (m : MapScope) (x : LoadedModule) :
    (m.recast σ g).addModule (x.recast σ) = ((m.addModule x).1, (m.addModule x).2.recast σ g) := by
  have hname : (x.recast σ).name = x.name := rfl
  simp only [addModule, findModule?_recast, hname]
  split
  · rfl
  · simp only [recast, List.length_map, List.map_append]
    rfl

/-- Changes to a module scope commute with recasting. -/
theorem recast_modifyModule {f f' : ModuleScope → ModuleScope}
    (h : ∀ s, (f s).recast σ g = f' (s.recast σ g)) (m : MapScope) (i : Nat) :
    (m.modifyModule i f).recast σ g = (m.recast σ g).modifyModule i f' := by
  simp only [modifyModule, recast, map_modify h]

@[simp] theorem scriptThread?_recast (m : MapScope) (name : ScriptName) :
    (m.recast σ g).scriptThread? name = (m.scriptThread? name).map (Thread.recast σ g) := by
  have hslots : (m.recast σ g).slots = m.slots := rfl
  simp only [scriptThread?, hslots, getElem?_recast]
  cases m.slots.find? name with
  | none => rfl
  | some slot =>
    obtain ⟨i, j, holder⟩ := slot
    cases holder with
    | none => rfl
    | some id => cases h : m.modules[i]? <;> simp [h]

@[simp] theorem scriptActive_recast (m : MapScope) (name : ScriptName) :
    (m.recast σ g).scriptActive name = m.scriptActive name := by
  simp only [scriptActive, scriptThread?_recast]
  cases m.scriptThread? name <;> rfl

@[simp] theorem script?_recast (m : MapScope) (i j : Nat) :
    (m.recast σ g).script? i j = m.script? i j := by
  simp only [script?, getElem?_recast]
  cases m.modules[i]? <;> rfl

theorem takeThreadId_recast (m : MapScope) :
    (m.recast σ g).takeThreadId = (m.takeThreadId.1, m.takeThreadId.2.recast σ g) := rfl

theorem recast_releaseSlot (m : MapScope) (t : Thread) :
    (m.releaseSlot t).recast σ g = (m.recast σ g).releaseSlot (t.recast σ g) := by
  simp only [releaseSlot, Thread.scriptName?_recast]
  split <;> rfl

theorem threads_recast (m : MapScope) :
    (m.recast σ g).threads = m.threads.map (Thread.recast σ g) := by
  simp only [threads, recast, List.flatMap_map, List.map_flatMap]
  rfl

@[simp] theorem references_recast (m : MapScope) : (m.recast σ g).references = m.references := by
  simp only [references, recast, List.flatMap_map, ModuleScope.references_recast]

@[simp] theorem release_recast (m : MapScope) (t : StringTable) :
    (m.recast σ g).release t = m.release t := by
  simp only [release, recast, List.foldl_map]
  rfl

end MapScope

/-! ## The levels above -/

theorem HubScope.threads_recast (h : HubScope) :
    (h.recast σ g).threads = h.threads.map (Thread.recast σ g) := by
  simp only [threads, recast, OrdMap.values_mapValues, List.flatMap_map, List.map_flatMap,
    MapScope.threads_recast]

@[simp] theorem HubScope.references_recast (h : HubScope) :
    (h.recast σ g).references = h.references := by
  simp only [references, recast, OrdMap.values_mapValues, List.flatMap_map,
    MapScope.references_recast]

@[simp] theorem HubScope.release_recast (h : HubScope) (t : StringTable) :
    (h.recast σ g).release t = h.release t := by
  simp only [release, recast, OrdMap.values_mapValues, List.foldl_map, MapScope.release_recast]

theorem GlobalScope.threads_recast (x : GlobalScope) :
    (x.recast σ g).threads = x.threads.map (Thread.recast σ g) := by
  simp only [threads, recast, OrdMap.values_mapValues, List.flatMap_map, List.map_flatMap,
    HubScope.threads_recast]

@[simp] theorem GlobalScope.references_recast (x : GlobalScope) :
    (x.recast σ g).references = x.references := by
  simp only [references, recast, OrdMap.values_mapValues, List.flatMap_map,
    HubScope.references_recast]

@[simp] theorem GlobalScope.release_recast (x : GlobalScope) (t : StringTable) :
    (x.recast σ g).release t = x.release t := by
  simp only [release, recast, OrdMap.values_mapValues, List.foldl_map, HubScope.release_recast]

namespace ScopeTree

variable (s : ScopeTree)

@[simp] theorem module?_recast (id : ScopeId) (i : Nat) :
    (s.recast σ g).module? id i = (s.module? id i).map (ModuleScope.recast σ g) := by
  simp only [module?, map?_recast]
  cases s.map? id with
  | none => rfl
  | some map => exact MapScope.getElem?_recast σ g map i

@[simp] theorem vars?_recast (level : Level) (id : ScopeId) (i : Nat) :
    (s.recast σ g).vars? level id i = s.vars? level id i := by
  cases level <;>
    simp only [vars?, module?_recast, hub?_recast, global?_recast, Option.map_map] <;> rfl

@[simp] theorem isActive_recast (id : ScopeId) : (s.recast σ g).isActive id = s.isActive id := by
  simp only [isActive, global?_recast]
  cases s.global? id.global with
  | none => rfl
  | some x =>
    simp only [Option.map_some, GlobalScope.recast, OrdMap.find?_mapValues]
    cases x.hubs.find? id.hub with
    | none => rfl
    | some h =>
      simp only [Option.map_some, HubScope.recast, OrdMap.find?_mapValues]
      cases h.maps.find? id.map <;> rfl

@[simp] theorem mapIds_recast : (s.recast σ g).mapIds = s.mapIds := by
  simp only [mapIds, recast, OrdMap.entries_mapValues, List.flatMap_map, GlobalScope.recast,
    HubScope.recast, OrdMap.keys_mapValues]

@[simp] theorem references_recast : (s.recast σ g).references = s.references := by
  simp only [references, recast, OrdMap.values_mapValues, List.flatMap_map,
    GlobalScope.references_recast]

variable {s}

/-- Changes to a global scope commute with recasting. -/
theorem recast_modifyGlobal {f f' : GlobalScope → GlobalScope}
    (h : ∀ x, (f x).recast σ g = f' (x.recast σ g)) (k : Word) :
    (s.modifyGlobal k f).recast σ g = (s.recast σ g).modifyGlobal k f' := by
  simp only [modifyGlobal, recast, OrdMap.mapValues_modify h]

/-- Changes to a hub commute with recasting. -/
theorem recast_modifyHub {f f' : HubScope → HubScope}
    (h : ∀ x, (f x).recast σ g = f' (x.recast σ g)) (k n : Word) :
    (s.modifyHub k n f).recast σ g = (s.recast σ g).modifyHub k n f' := by
  refine recast_modifyGlobal σ g (fun x => ?_) k
  simp only [GlobalScope.recast, OrdMap.mapValues_modify h]

/-- Changes to a map commute with recasting. -/
theorem recast_modifyMap {f f' : MapScope → MapScope}
    (h : ∀ m, (f m).recast σ g = f' (m.recast σ g)) (id : ScopeId) :
    (s.modifyMap id f).recast σ g = (s.recast σ g).modifyMap id f' := by
  refine recast_modifyHub σ g (fun x => ?_) id.global id.hub
  simp only [HubScope.recast, OrdMap.mapValues_modify h]

/-- Changes to a module scope of the tree commute with recasting. -/
theorem recast_modifyModule {f f' : ModuleScope → ModuleScope}
    (h : ∀ x, (f x).recast σ g = f' (x.recast σ g)) (id : ScopeId) (i : Nat) :
    (s.modifyModule id i f).recast σ g = (s.recast σ g).modifyModule id i f' :=
  recast_modifyMap σ g (fun m => MapScope.recast_modifyModule σ g h m i) id

/-- Changes to variables commute with recasting. -/
theorem recast_modifyVars (level : Level) (id : ScopeId) (i : Nat) (f : Vars → Vars) :
    (s.modifyVars level id i f).recast σ g = (s.recast σ g).modifyVars level id i f := by
  cases level with
  | thread => rfl
  | module =>
    refine recast_modifyModule σ g (fun x => ?_) id i
    rfl
  | hub =>
    refine recast_modifyHub σ g (fun x => ?_) id.global id.hub
    rfl
  | global =>
    refine recast_modifyGlobal σ g (fun x => ?_) id.global
    rfl

end ScopeTree

/-! ## Saved states -/

/-- Serial numbers and noted ticks are not written. -/
theorem ModuleScope.write_recast (number : ModuleName → Nat) (s : ModuleScope) :
    (s.recast σ g).write number = s.write number := by
  simp only [write, recast, Writer.list, List.length_map, List.flatMap_map]
  rfl

/-- A map is written without serial numbers and ticks. -/
theorem MapScope.write_recast (number : ModuleName → Nat) (k : Word) (m : MapScope) :
    MapScope.write number (k, m.recast σ g) = MapScope.write number (k, m) := by
  simp only [write, recast, Writer.list, List.length_map, List.flatMap_map,
    ModuleScope.write_recast]

/-- A hub is written without serial numbers and ticks. -/
theorem HubScope.write_recast (number : ModuleName → Nat) (k : Word) (h : HubScope) :
    HubScope.write number (k, h.recast σ g) = HubScope.write number (k, h) := by
  simp only [write, recast, Writer.list, OrdMap.entries_mapValues, List.length_map,
    List.flatMap_map, MapScope.write_recast]

/-- A global scope is written without serial numbers and ticks. -/
theorem GlobalScope.write_recast (number : ModuleName → Nat) (k : Word) (x : GlobalScope) :
    GlobalScope.write number (k, x.recast σ g) = GlobalScope.write number (k, x) := by
  simp only [write, recast, Writer.list, OrdMap.entries_mapValues, List.length_map,
    List.flatMap_map, HubScope.write_recast]

end ScriptMachine
