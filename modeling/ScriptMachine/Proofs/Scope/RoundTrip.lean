import ScriptMachine.Proofs.Scope.Evolution
import ScriptMachine.Proofs.Scope.Recast
import ScriptMachine.Proofs.Thread.RoundTrip
import ScriptMachine.Scope.Codec

/-!
# Saved scopes come back

Scopes are read back level by level, as they were but for the serial numbers of modules and the ticks
noted with threads (`recast`).  The readers ask three things of a map: every module has to stand in
the list of modules under its number, every script name has to lead to a script (`MapScope.Led`), and
every thread has to fit its place (`MapScope.Intact`).  Conversely every map that is read from
whatever bytes has these properties (`MapScope.Restored`).
-/

namespace ScriptMachine

open Reader

/-- Module names come back, as long as they fit the format. -/
@[mk_iff]
structure ModuleName.Sized (n : ModuleName) : Prop where
  name : (Utf8.encode n.name).length < 2 ^ 64
  aux : n.aux < 2 ^ 64
  num : n.num < 2 ^ 64

instance (n : ModuleName) : Decidable n.Sized := decidable_of_iff _ n.sized_iff.symm

/-- The name of a module is read back. -/
theorem reads_moduleName {n : ModuleName} (h : n.Sized) : Reads ModuleName.read n.write n := by
  intro rest
  have hname := fun rest => reads_string h.name rest
  have haux := fun rest => Varint.reads_size h.aux rest
  have hnum := fun rest => Varint.reads_size h.num rest
  simp only [ModuleName.read, ModuleName.write, List.append_assoc, bind_apply, hname,
    Utf8.decode_encode, haux, hnum]
  rfl

/-- The counts of variables fit the format. -/
@[mk_iff]
structure Vars.Sized (v : Vars) : Prop where
  regs : v.regs.size < 2 ^ 64
  arrs : v.arrs.size < 2 ^ 64
  arr : ∀ a ∈ v.arrs, a.size < 2 ^ 64
  stringArrays : (OrdSet.members v.stringArrays).length < 2 ^ 64

instance (v : Vars) : Decidable v.Sized := decidable_of_iff _ v.sized_iff.symm

/-- Variables are read back. -/
theorem reads_vars {v : Vars} (h : v.Sized) : Reads Vars.read v.write v := by
  intro rest
  have hregs : ∀ rest, words (Writer.words v.regs.toList ++ rest) = .ok (v.regs.toList, rest) :=
    reads_words (by simpa using h.regs)
  have harrs : ∀ rest, list Sparse.read (Writer.list Sparse.write v.arrs.toList ++ rest) =
      .ok (v.arrs.toList, rest) :=
    Reads.listSelf (by simpa using h.arrs) fun a ha => reads_sparse (h.arr a (by simpa using ha))
  have hstrings := fun rest => reads_words h.stringArrays rest
  simp only [Vars.read, Vars.write, List.append_assoc, bind_apply, hregs, harrs, hstrings,
    Array.toArray_toList, OrdSet.ofList_members]
  rfl

/-! ## Threads in their places -/

/-- The thread is one of a module's threads, at this place of the tree. -/
structure Thread.Fits (t : Thread) (x : Module) (scope : ScopeId) (i : Nat) : Prop where
  module : t.module.map (·.toModule) = some x
  scope : t.scope = scope
  index : t.moduleIndex = i
  script : t.scriptIndex < x.scripts.size
  bases : t.BasesWithin

/-- Recasting looks at what a module is, not at its serial number. -/
theorem LoadedModule.recast_eq_of_toModule {x y : LoadedModule} (h : x.toModule = y.toModule)
    (σ : ModuleName → Nat) : x.recast σ = y.recast σ := by
  cases x
  cases y
  cases h
  rfl

/-- A thread that fits its place comes back as it was. -/
theorem Thread.Fits.renewed {t : Thread} {x : LoadedModule} {scope : ScopeId} {i : Nat}
    (h : t.Fits x.toModule scope i) (σ : ModuleName → Nat) :
    t.renewed (x.recast σ) scope i = t.recast σ fun _ => 0 := by
  obtain ⟨y, hy, heq⟩ := Option.map_eq_some_iff.1 h.module
  rw [Thread.renewed, Thread.recast, hy, ← h.scope, ← h.index, Option.map_some,
    LoadedModule.recast_eq_of_toModule heq]

/-- A thread that fits its place is read back for the module that is there. -/
theorem reads_thread {t : Thread} {x : LoadedModule} {scope : ScopeId} {i : Nat} (hsized : t.Sized)
    (h : t.Fits x.toModule scope i) (σ : ModuleName → Nat) :
    Reads (Thread.read (x.recast σ) scope i) t.write (t.recast σ fun _ => 0) := by
  intro rest
  have hscript : ¬ (x.recast σ).scripts.size ≤ t.scriptIndex := Nat.not_le_of_lt h.script
  rw [Thread.read_write hsized, if_neg hscript, if_pos h.bases, h.renewed]

/-- Every thread that is read fits the place it is read for, and had no turn yet. -/
theorem yields_thread (x : LoadedModule) (scope : ScopeId) (i : Nat) :
    Yields (Thread.read x scope i) fun t => t.Fits x.toModule scope i ∧ t.lastTick = 0 := by
  unfold Thread.read
  refine (Yields.trivial _).bind fun id _ => (Yields.trivial _).bind fun scriptIndex _ => ?_
  split
  · exact (Yields.malformed _).bind (P := fun _ => False) fun _ h => h.elim
  rename_i hscript
  refine (Yields.trivial _).bind fun codePtr _ => (Yields.trivial _).bind fun stack _ => ?_
  refine (Yields.trivial _).bind fun frames _ => (Yields.trivial _).bind fun regs _ => ?_
  refine (Yields.trivial _).bind fun arrs _ => (Yields.trivial _).bind fun regBase _ => ?_
  refine (Yields.trivial _).bind fun arrBase _ => ?_
  split
  · exact (Yields.malformed _).bind (P := fun _ => False) fun _ h => h.elim
  rename_i hbase
  refine (Yields.trivial _).bind fun result _ => (Yields.trivial _).bind fun delay _ => ?_
  refine (Yields.trivial _).bind fun state _ => (Yields.trivial _).bind fun info _ => ?_
  refine (Yields.trivial _).bind fun printed _ => (Yields.trivial _).bind fun args _ => ?_
  refine .pure ⟨⟨rfl, rfl, rfl, ?_, ?_⟩, rfl⟩
  · exact Nat.lt_of_not_le hscript
  · simp only [Thread.BasesWithin, List.size_toArray]
    omega

/-! ## Module scopes and slots -/

/-- The counts of a module scope fit the format. -/
@[mk_iff]
structure ModuleScope.Sized (s : ModuleScope) : Prop where
  vars : s.vars.Sized
  count : s.threads.length < 2 ^ 64
  thread : ∀ t ∈ s.threads, t.Sized

instance (s : ModuleScope) : Decidable s.Sized := decidable_of_iff _ s.sized_iff.symm

/-- Modules stand in the list under their numbers, as they are recast. -/
def Listed (modules : List LoadedModule) (number σ : ModuleName → Nat) (x : LoadedModule) : Prop :=
  modules[number x.name]? = some (x.recast σ)

variable {modules : List LoadedModule} {number σ : ModuleName → Nat}

/-- A module scope is read back, where its threads fit. -/
theorem reads_moduleScope {s : ModuleScope} {scope : ScopeId} {i : Nat} (hsized : s.Sized)
    (hcount : modules.length < 2 ^ 64) (hlisted : Listed modules number σ s.module)
    (hfits : ∀ t ∈ s.threads, t.Fits s.module.toModule scope i) :
    Reads (ModuleScope.read modules scope i) (s.write number) (s.recast σ fun _ => 0) := by
  intro rest
  have hlt : number s.module.name < modules.length := (List.getElem?_eq_some_iff.1 hlisted).1
  have hnumber := fun rest => Varint.reads_size (Nat.lt_trans hlt hcount) rest
  have hvars := fun rest => reads_vars hsized.vars rest
  have hthreads : ∀ rest, list (Thread.read (s.module.recast σ) scope i)
      (Writer.list Thread.write s.threads ++ rest) =
      .ok (s.threads.map (Thread.recast σ fun _ => 0), rest) :=
    Reads.list hsized.count fun t ht => reads_thread (hsized.thread t ht) (hfits t ht) σ
  have hmodule : modules[number s.module.name]? = some (s.module.recast σ) := hlisted
  simp only [ModuleScope.read, ModuleScope.write, List.append_assoc, bind_apply, hnumber, hmodule,
    hvars, hthreads]
  rfl

/-- What is read as a module scope is one of a listed module, with threads that fit. -/
theorem yields_moduleScope (modules : List LoadedModule) (scope : ScopeId) (i : Nat) :
    Yields (ModuleScope.read modules scope i) fun s =>
      s.module ∈ modules ∧ ∀ t ∈ s.threads, t.Fits s.module.toModule scope i ∧ t.lastTick = 0 := by
  unfold ModuleScope.read
  refine (Yields.trivial _).bind fun saved _ => ?_
  split
  · exact .malformed _
  · rename_i x hx
    refine (Yields.trivial _).bind fun vars _ => ?_
    refine (Yields.list (yields_thread x scope i)).bind fun threads hthreads => .pure ?_
    exact ⟨List.mem_of_getElem? hx, hthreads⟩

/-- The numbers and the name of a slot fit the format. -/
@[mk_iff]
structure ScriptSlot.Sized (p : ScriptName × ScriptSlot) : Prop where
  name : p.1.Sized
  moduleIndex : p.2.moduleIndex < 2 ^ 64
  scriptIndex : p.2.scriptIndex < 2 ^ 64

instance (p : ScriptName × ScriptSlot) : Decidable (ScriptSlot.Sized p) :=
  decidable_of_iff _ (ScriptSlot.sized_iff p).symm

/-- A slot is read back. -/
theorem reads_slot {places : List ModuleScope} {p : ScriptName × ScriptSlot}
    (hsized : ScriptSlot.Sized p) {s : ModuleScope} (hs : places[p.2.moduleIndex]? = some s)
    (hscript : p.2.scriptIndex < s.module.scripts.size) :
    Reads (ScriptSlot.read places) (ScriptSlot.write p) p := by
  intro rest
  have hname := fun rest => reads_scriptName hsized.name rest
  have hmodule := fun rest => Varint.reads_size hsized.moduleIndex rest
  have hindex := fun rest => Varint.reads_size hsized.scriptIndex rest
  have hbool := fun b rest => reads_bool b rest
  have hw := fun w rest => Varint.reads_writeWord w rest
  simp only [ScriptSlot.read, ScriptSlot.write, List.append_assoc, bind_apply, hname, hmodule,
    hindex, hbool, hw, hs, if_neg (Nat.not_le_of_lt hscript), pure_apply]
  obtain ⟨name, moduleIndex, scriptIndex, thread⟩ := p
  cases thread <;> rfl

/-- What is read as a slot leads to a script. -/
theorem yields_slot (places : List ModuleScope) :
    Yields (ScriptSlot.read places) fun p =>
      ∃ s, places[p.2.moduleIndex]? = some s ∧ p.2.scriptIndex < s.module.scripts.size := by
  unfold ScriptSlot.read
  refine (Yields.trivial _).bind fun name _ => (Yields.trivial _).bind fun moduleIndex _ => ?_
  refine (Yields.trivial _).bind fun scriptIndex _ => (Yields.trivial _).bind fun held _ => ?_
  refine (Yields.trivial _).bind fun thread _ => ?_
  split
  · exact .malformed _
  · rename_i s hs
    split
    · exact .malformed _
    · rename_i hscript
      exact .pure ⟨s, hs, Nat.lt_of_not_le hscript⟩

/-! ## Maps -/

namespace MapScope

/-- Every thread of the map fits its place. -/
def Intact (id : ScopeId) (m : MapScope) : Prop :=
  ∀ (i : Nat) (s : ModuleScope), m.modules[i]? = some s →
    ∀ t ∈ s.threads, t.Fits s.module.toModule id i

/-- What a thread fits does not depend on serial numbers and noted ticks. -/
theorem Intact.recast {id : ScopeId} {m : MapScope} (h : m.Intact id) (σ : ModuleName → Nat)
    (g : Nat → Nat) : (m.recast σ g).Intact id := by
  intro i s' hs' t' ht'
  rw [MapScope.recast, List.getElem?_map] at hs'
  obtain ⟨s, hs, rfl⟩ := Option.map_eq_some_iff.1 hs'
  obtain ⟨t, ht, rfl⟩ := List.mem_map.1 ht'
  obtain ⟨hmodule, hscope, hindex, hscript, hbases⟩ := h i s hs t ht
  refine ⟨?_, hscope, hindex, hscript, hbases⟩
  rw [Thread.recast, Option.map_map]
  exact hmodule

/-- What fits after recasting fitted before. -/
theorem Intact.of_recast {id : ScopeId} {m : MapScope} {σ : ModuleName → Nat} {g : Nat → Nat}
    (h : (m.recast σ g).Intact id) : m.Intact id := by
  intro i s hs t ht
  have hs' : (m.recast σ g).modules[i]? = some (s.recast σ g) := by
    rw [MapScope.recast, List.getElem?_map, hs]
    rfl
  obtain ⟨hmodule, hscope, hindex, hscript, hbases⟩ :=
    h i _ hs' (t.recast σ g) (List.mem_map_of_mem ht)
  refine ⟨?_, hscope, hindex, hscript, hbases⟩
  rw [Thread.recast, Option.map_map] at hmodule
  exact hmodule

/-- Every script name of the map leads to a script. -/
def Led (m : MapScope) : Prop := ∀ name slot, m.slots.find? name = some slot → m.Leads slot

/-- The counts of a map fit the format. -/
@[mk_iff]
structure Sized (m : MapScope) : Prop where
  count : m.modules.length < 2 ^ 64
  module : ∀ s ∈ m.modules, s.Sized
  slots : m.slots.size < 2 ^ 64
  slot : ∀ p ∈ m.slots.entries, ScriptSlot.Sized p

instance (m : MapScope) : Decidable m.Sized := decidable_of_iff _ m.sized_iff.symm

/-- What holds of every map that was read. -/
structure Restored (modules : List LoadedModule) (id : ScopeId) (m : MapScope) : Prop where
  intact : m.Intact id
  led : m.Led
  modules : ∀ s ∈ m.modules, s.module ∈ modules
  fresh : ∀ s ∈ m.modules, ∀ t ∈ s.threads, t.lastTick = 0

/-- What reading a map back takes. -/
structure Writable (modules : List LoadedModule) (number σ : ModuleName → Nat) (id : ScopeId)
    (m : MapScope) : Prop where
  sized : m.Sized
  intact : m.Intact id
  led : m.Led
  listed : ∀ s ∈ m.modules, Listed modules number σ s.module

end MapScope

/-- A map is read back, where its threads fit. -/
theorem reads_map {global hub : Word} {p : Word × MapScope} (hcount : modules.length < 2 ^ 64)
    (h : p.2.Writable modules number σ ⟨global, hub, p.1⟩) :
    Reads (MapScope.read modules global hub) (MapScope.write number p)
      (p.1, p.2.recast σ fun _ => 0) := by
  intro rest
  have hw := fun w rest => Varint.reads_writeWord w rest
  have hbool := fun b rest => reads_bool b rest
  have hmodules : Reads (listFrom (ModuleScope.read modules ⟨global, hub, p.1⟩))
      (Writer.list (ModuleScope.write number) p.2.modules)
      (p.2.modules.map (ModuleScope.recast σ fun _ => 0)) :=
    .listFrom h.sized.count fun i s hs => reads_moduleScope
      (h.sized.module s (List.mem_of_getElem? hs)) hcount (h.listed s (List.mem_of_getElem? hs))
      (h.intact i s hs)
  have hmodules' := fun rest => hmodules rest
  have hslots : ∀ rest, list (ScriptSlot.read (p.2.modules.map (ModuleScope.recast σ fun _ => 0)))
      (Writer.list ScriptSlot.write p.2.slots.entries ++ rest) = .ok (p.2.slots.entries, rest) := by
    refine Reads.listSelf h.sized.slots fun q hq => ?_
    obtain ⟨s, hs, hscript⟩ := h.led q.1 q.2 (OrdMap.mem_entries.1 hq)
    refine reads_slot (h.sized.slot q hq) (s := s.recast σ fun _ => 0) ?_ hscript
    rw [List.getElem?_map, hs]
    rfl
  simp only [MapScope.read, MapScope.write, List.append_assoc, bind_apply, hw, hbool, hmodules',
    hslots, pure_apply, OrdMap.ofList_entries]
  rfl

/-- What is read as a map is restored. -/
theorem yields_map (modules : List LoadedModule) (global hub : Word) :
    Yields (MapScope.read modules global hub) fun p =>
      p.2.Restored modules ⟨global, hub, p.1⟩ := by
  unfold MapScope.read
  refine (Yields.trivial _).bind fun id _ => (Yields.trivial _).bind fun active _ => ?_
  refine (Yields.trivial _).bind fun nextThreadId _ => ?_
  refine (Yields.listFrom (yields_moduleScope modules ⟨global, hub, id⟩)).bind fun scopes hscopes => ?_
  refine (Yields.list (yields_slot scopes)).bind fun slots hslots => .pure ⟨?_, ?_, ?_, ?_⟩
  · exact fun i s hs t ht => ((hscopes i s hs).2 t ht).1
  · exact fun name slot hslot => hslots _ (OrdMap.mem_of_find?_ofList hslot)
  · intro s hs
    obtain ⟨i, hi⟩ := List.getElem?_of_mem hs
    exact (hscopes i s hi).1
  · intro s hs t ht
    obtain ⟨i, hi⟩ := List.getElem?_of_mem hs
    exact ((hscopes i s hi).2 t ht).2

/-! ## Hubs and global scopes -/

/-- The counts of a hub fit the format. -/
@[mk_iff]
structure HubScope.Sized (h : HubScope) : Prop where
  vars : h.vars.Sized
  count : h.maps.size < 2 ^ 64
  map : ∀ m ∈ h.maps.values, m.Sized

instance (h : HubScope) : Decidable h.Sized := decidable_of_iff _ h.sized_iff.symm

/-- The counts of a global scope fit the format. -/
@[mk_iff]
structure GlobalScope.Sized (g : GlobalScope) : Prop where
  vars : g.vars.Sized
  count : g.hubs.size < 2 ^ 64
  hub : ∀ h ∈ g.hubs.values, h.Sized

instance (g : GlobalScope) : Decidable g.Sized := decidable_of_iff _ g.sized_iff.symm

/-- The counts of a tree fit the format. -/
@[mk_iff]
structure ScopeTree.Sized (s : ScopeTree) : Prop where
  count : s.globals.size < 2 ^ 64
  global : ∀ g ∈ s.globals.values, g.Sized

instance (s : ScopeTree) : Decidable s.Sized := decidable_of_iff _ s.sized_iff.symm

/-- A hub is read back, where the threads of its maps fit. -/
theorem reads_hub {global : Word} {p : Word × HubScope} (hcount : modules.length < 2 ^ 64)
    (hsized : p.2.Sized)
    (h : ∀ k m, p.2.maps.find? k = some m → m.Writable modules number σ ⟨global, p.1, k⟩) :
    Reads (HubScope.read modules global) (HubScope.write number p)
      (p.1, p.2.recast σ fun _ => 0) := by
  intro rest
  have hw := fun w rest => Varint.reads_writeWord w rest
  have hbool := fun b rest => reads_bool b rest
  have hvars := fun rest => reads_vars hsized.vars rest
  have hread : ∀ rest, list (MapScope.read modules global p.1)
      (Writer.list (MapScope.write number) p.2.maps.entries ++ rest) =
      .ok ((p.2.maps.mapValues (MapScope.recast σ fun _ => 0)).entries, rest) := by
    rw [OrdMap.entries_mapValues]
    exact Reads.list hsized.count fun q hq => reads_map hcount (h q.1 q.2 (OrdMap.mem_entries.1 hq))
  simp only [HubScope.read, HubScope.write, List.append_assoc, bind_apply, hw, hbool, hvars, hread,
    pure_apply, OrdMap.ofList_entries]
  rfl

/-- What is read as a hub is restored, map by map. -/
theorem yields_hub (modules : List LoadedModule) (global : Word) :
    Yields (HubScope.read modules global) fun p =>
      ∀ k m, p.2.maps.find? k = some m → m.Restored modules ⟨global, p.1, k⟩ := by
  unfold HubScope.read
  refine (Yields.trivial _).bind fun id _ => (Yields.trivial _).bind fun active _ => ?_
  refine (Yields.trivial _).bind fun vars _ => ?_
  refine (Yields.list (yields_map modules global id)).bind fun maps hmaps => .pure ?_
  exact fun k m hm => hmaps _ (OrdMap.mem_of_find?_ofList hm)

/-- A global scope is read back, where the threads of its maps fit. -/
theorem reads_global {p : Word × GlobalScope} (hcount : modules.length < 2 ^ 64)
    (hsized : p.2.Sized)
    (hmaps : ∀ h x, p.2.hubs.find? h = some x → ∀ k m, x.maps.find? k = some m →
      m.Writable modules number σ ⟨p.1, h, k⟩) :
    Reads (GlobalScope.read modules) (GlobalScope.write number p)
      (p.1, p.2.recast σ fun _ => 0) := by
  intro rest
  have hw := fun w rest => Varint.reads_writeWord w rest
  have hbool := fun b rest => reads_bool b rest
  have hvars := fun rest => reads_vars hsized.vars rest
  have hread : ∀ rest, list (HubScope.read modules p.1)
      (Writer.list (HubScope.write number) p.2.hubs.entries ++ rest) =
      .ok ((p.2.hubs.mapValues (HubScope.recast σ fun _ => 0)).entries, rest) := by
    rw [OrdMap.entries_mapValues]
    refine Reads.list hsized.count fun q hq => ?_
    exact reads_hub hcount (hsized.hub q.2 (List.mem_map_of_mem hq))
      (hmaps q.1 q.2 (OrdMap.mem_entries.1 hq))
  simp only [GlobalScope.read, GlobalScope.write, List.append_assoc, bind_apply, hw, hbool, hvars,
    hread, pure_apply, OrdMap.ofList_entries]
  rfl

/-- What is read as a global scope is restored, map by map. -/
theorem yields_global (modules : List LoadedModule) :
    Yields (GlobalScope.read modules) fun p => ∀ h x, p.2.hubs.find? h = some x →
      ∀ k m, x.maps.find? k = some m → m.Restored modules ⟨p.1, h, k⟩ := by
  unfold GlobalScope.read
  refine (Yields.trivial _).bind fun id _ => (Yields.trivial _).bind fun active _ => ?_
  refine (Yields.trivial _).bind fun vars _ => ?_
  refine (Yields.list (yields_hub modules id)).bind fun hubs hhubs => .pure ?_
  exact fun h x hx => hhubs _ (OrdMap.mem_of_find?_ofList hx)

/-- The global scopes of a tree come back. -/
theorem ScopeTree.Sized.reads {s : ScopeTree} (hsized : s.Sized) (hcount : modules.length < 2 ^ 64)
    (h : ∀ id m, s.map? id = some m → m.Writable modules number σ id) {p : Word × GlobalScope}
    (hp : p ∈ s.globals.entries) :
    Reads (GlobalScope.read modules) (GlobalScope.write number p)
      (p.1, p.2.recast σ fun _ => 0) := by
  have hglobal : s.global? p.1 = some p.2 := OrdMap.mem_entries.1 hp
  refine reads_global hcount (hsized.global p.2 (List.mem_map_of_mem hp))
    fun h' x hx k m hm => h ⟨p.1, h', k⟩ m ?_
  have hhub : s.hub? p.1 h' = some x := by
    rw [ScopeTree.hub?, hglobal]
    exact hx
  rw [ScopeTree.map?, hhub]
  exact hm

/-- Every map of a tree whose counts fit the format has such counts. -/
theorem ScopeTree.Sized.map {s : ScopeTree} (hsized : s.Sized) {id : ScopeId} {m : MapScope}
    (hm : s.map? id = some m) : m.Sized := by
  obtain ⟨g, h, hglobal, hhub, hmap⟩ := exists_of_map? hm
  have hg := hsized.global g (OrdMap.mem_values.2 ⟨_, hglobal⟩)
  have hh := hg.hub h (OrdMap.mem_values.2 ⟨_, hhub⟩)
  exact hh.map m (OrdMap.mem_values.2 ⟨_, hmap⟩)

end ScriptMachine
