import ScriptMachine.Scope.Vars
import ScriptMachine.Thread.Basic

/-!
# The scope tree

Global scopes hold hubs, hubs hold maps, and a map holds a module scope for every module registered
with it.  Each level has an active flag, and each but the map has variables.  A map also keeps, for
every script name, where the script lives and which thread holds the name.

Lists of threads and of module scopes are in the order of their creation, which is the order the
scheduler visits them in.
-/

namespace ScriptMachine

/-- The first element with a property, changed. -/
def updateFirst {α : Type} (p : α → Bool) (f : α → α) : List α → List α
  | [] => []
  | x :: rest => if p x then f x :: rest else x :: updateFirst p f rest

/-- The variables and threads of a module in a map. -/
structure ModuleScope where
  module : LoadedModule
  vars : Vars
  /-- The threads, the oldest first. -/
  threads : List Thread := []
deriving DecidableEq, Inhabited

namespace ModuleScope

/-- The scope of a module, with the variables it declares. -/
def make (m : LoadedModule) : ModuleScope :=
  { module := m, vars := Vars.make m.regCount m.arrCount }

/-- The first thread with an id. -/
def thread? (m : ModuleScope) (id : Word) : Option Thread := m.threads.find? (·.id == id)

/-- Changes the first thread with an id. -/
def modifyThread (m : ModuleScope) (id : Word) (f : Thread → Thread) : ModuleScope :=
  { m with threads := updateFirst (·.id == id) f m.threads }

/-- The words a collection of strings takes for references. -/
def references (m : ModuleScope) : List Word :=
  m.vars.references ++ m.threads.flatMap Thread.references

end ModuleScope

/-- Where a script lives, and the thread that holds its name. -/
structure ScriptSlot where
  moduleIndex : Nat
  scriptIndex : Nat
  thread : Option Word := none
deriving DecidableEq, Inhabited

/-- A map with its modules. -/
structure MapScope where
  active : Bool := true
  /-- The module scopes in the order of registration. -/
  modules : List ModuleScope := []
  slots : OrdMap ScriptName ScriptSlot := {}
  nextThreadId : Word := 1
deriving DecidableEq, Inhabited

namespace MapScope

/-- The number of the module scope of a module. -/
def findModule? (m : MapScope) (name : ModuleName) : Option Nat :=
  m.modules.findIdx? (·.module.name == name)

/-- Gives a script a slot unless its name has one. -/
def giveSlot (moduleIndex : Nat) (slots : OrdMap ScriptName ScriptSlot) (p : Script × Nat) :
    OrdMap ScriptName ScriptSlot :=
  if slots.contains p.1.name then slots
  else slots.insert p.1.name { moduleIndex, scriptIndex := p.2 }

/-- Registers a module; answers the number of its scope if it is new.  A script name that an earlier
module declared stays with that module. -/
def addModule (m : MapScope) (module : LoadedModule) : Option Nat × MapScope :=
  match m.findModule? module.name with
  | some _ => (none, m)
  | none =>
    let i := m.modules.length
    (some i, { m with
      modules := m.modules ++ [ModuleScope.make module]
      slots := module.scripts.toList.zipIdx.foldl (giveSlot i) m.slots })

/-- Changes a module scope. -/
def modifyModule (m : MapScope) (i : Nat) (f : ModuleScope → ModuleScope) : MapScope :=
  { m with modules := m.modules.modify i f }

/-- The thread that holds a script name. -/
def scriptThread? (m : MapScope) (name : ScriptName) : Option Thread := do
  let slot ← m.slots.find? name
  let id ← slot.thread
  let scope ← m.modules[slot.moduleIndex]?
  scope.thread? id

/-- Whether the thread that holds a script name has not ended.  Nobody holds an unknown name. -/
def scriptActive (m : MapScope) (name : ScriptName) : Bool :=
  match m.scriptThread? name with
  | some t => !t.state.isFinished
  | none => false

/-- The script at these numbers. -/
def script? (m : MapScope) (moduleIndex scriptIndex : Nat) : Option Script := do
  let scope ← m.modules[moduleIndex]?
  scope.module.scripts[scriptIndex]?

/-- All threads, module by module. -/
def threads (m : MapScope) : List Thread := m.modules.flatMap (·.threads)

/-- Whether some thread has not ended. -/
def hasActiveThread (m : MapScope) : Bool := m.threads.any fun t => !t.state.isFinished

/-- The next thread id, and the map with it used up.  Ids go round past 0. -/
def takeThreadId (m : MapScope) : Word × MapScope :=
  let next := m.nextThreadId + 1
  (m.nextThreadId, { m with nextThreadId := if next = 0 then 1 else next })

/-- Takes the script name away from the thread that ends, if it holds it. -/
def releaseSlot (m : MapScope) (t : Thread) : MapScope :=
  match t.scriptName? with
  | none => m
  | some name =>
    { m with slots := m.slots.modify name fun s =>
        if s.thread = some t.id then { s with thread := none } else s }

/-- The words a collection of strings takes for references. -/
def references (m : MapScope) : List Word := m.modules.flatMap ModuleScope.references

/-- Gives back the locks of the arrays of strings. -/
def release (m : MapScope) (t : StringTable) : StringTable :=
  m.modules.foldl (fun t s => (s.vars.release t).2) t

end MapScope

/-- A hub with its maps. -/
structure HubScope where
  active : Bool := true
  vars : Vars
  maps : OrdMap Word MapScope := {}
deriving DecidableEq, Inhabited

namespace HubScope

/-- All threads in the order of the maps. -/
def threads (h : HubScope) : List Thread := h.maps.values.flatMap MapScope.threads

/-- The words a collection of strings takes for references. -/
def references (h : HubScope) : List Word :=
  h.vars.references ++ h.maps.values.flatMap MapScope.references

/-- Gives back the locks of the arrays of strings. -/
def release (h : HubScope) (t : StringTable) : StringTable :=
  h.maps.values.foldl (fun t m => m.release t) (h.vars.release t).2

end HubScope

/-- A global scope with its hubs. -/
structure GlobalScope where
  active : Bool := true
  vars : Vars
  hubs : OrdMap Word HubScope := {}
deriving DecidableEq, Inhabited

namespace GlobalScope

/-- All threads in the order of the hubs. -/
def threads (g : GlobalScope) : List Thread := g.hubs.values.flatMap HubScope.threads

/-- The words a collection of strings takes for references. -/
def references (g : GlobalScope) : List Word :=
  g.vars.references ++ g.hubs.values.flatMap HubScope.references

/-- Gives back the locks of the arrays of strings. -/
def release (g : GlobalScope) (t : StringTable) : StringTable :=
  g.hubs.values.foldl (fun t h => h.release t) (g.vars.release t).2

end GlobalScope

/-- All global scopes. -/
structure ScopeTree where
  globals : OrdMap Word GlobalScope := {}
deriving DecidableEq, Inhabited

namespace ScopeTree

/-- A global scope. -/
def global? (s : ScopeTree) (g : Word) : Option GlobalScope := s.globals.find? g

/-- A hub. -/
def hub? (s : ScopeTree) (g h : Word) : Option HubScope := do
  let global ← s.global? g
  global.hubs.find? h

/-- A map. -/
def map? (s : ScopeTree) (id : ScopeId) : Option MapScope := do
  let hub ← s.hub? id.global id.hub
  hub.maps.find? id.map

/-- A module scope. -/
def module? (s : ScopeTree) (id : ScopeId) (i : Nat) : Option ModuleScope := do
  let map ← s.map? id
  map.modules[i]?

/-- Changes a global scope. -/
def modifyGlobal (s : ScopeTree) (g : Word) (f : GlobalScope → GlobalScope) : ScopeTree :=
  ⟨s.globals.modify g f⟩

/-- Changes a hub. -/
def modifyHub (s : ScopeTree) (g h : Word) (f : HubScope → HubScope) : ScopeTree :=
  s.modifyGlobal g fun x => { x with hubs := x.hubs.modify h f }

/-- Changes a map. -/
def modifyMap (s : ScopeTree) (id : ScopeId) (f : MapScope → MapScope) : ScopeTree :=
  s.modifyHub id.global id.hub fun x => { x with maps := x.maps.modify id.map f }

/-- Changes a module scope. -/
def modifyModule (s : ScopeTree) (id : ScopeId) (i : Nat) (f : ModuleScope → ModuleScope) :
    ScopeTree :=
  s.modifyMap id fun m => m.modifyModule i f

/-- The variables of a level as seen from a module of a map.  Those of a thread are not in the
tree. -/
def vars? (s : ScopeTree) (level : Level) (id : ScopeId) (i : Nat) : Option Vars :=
  match level with
  | .thread => none
  | .module => (s.module? id i).map (·.vars)
  | .hub => (s.hub? id.global id.hub).map (·.vars)
  | .global => (s.global? id.global).map (·.vars)

/-- Changes the variables of a level as seen from a module of a map. -/
def modifyVars (s : ScopeTree) (level : Level) (id : ScopeId) (i : Nat) (f : Vars → Vars) :
    ScopeTree :=
  match level with
  | .thread => s
  | .module => s.modifyModule id i fun m => { m with vars := f m.vars }
  | .hub => s.modifyHub id.global id.hub fun h => { h with vars := f h.vars }
  | .global => s.modifyGlobal id.global fun g => { g with vars := f g.vars }

/-- Whether a map and both scopes above it are active. -/
def isActive (s : ScopeTree) (id : ScopeId) : Bool :=
  match s.global? id.global with
  | none => false
  | some g =>
    match g.hubs.find? id.hub with
    | none => false
    | some h =>
      match h.maps.find? id.map with
      | none => false
      | some m => g.active && h.active && m.active

/-- The addresses of all maps in the order the scheduler visits them. -/
def mapIds (s : ScopeTree) : List ScopeId :=
  s.globals.entries.flatMap fun (g, global) =>
    global.hubs.entries.flatMap fun (h, hub) =>
      hub.maps.keys.map fun m => { global := g, hub := h, map := m }

/-- All maps in the order of their addresses. -/
def maps (s : ScopeTree) : List MapScope :=
  s.globals.values.flatMap fun g => g.hubs.values.flatMap fun h => h.maps.values

/-- Whether some thread has not ended. -/
def hasActiveThread (s : ScopeTree) : Bool := s.maps.any MapScope.hasActiveThread

/-- The words a collection of strings takes for references. -/
def references (s : ScopeTree) : List Word := s.globals.values.flatMap GlobalScope.references

end ScopeTree

end ScriptMachine
