import ScriptMachine.Scope.Tree
import ScriptMachine.Thread.Codec

/-!
# Scopes in saved states

Scopes are written from the top down, each after its id.  Modules are written as their numbers in
the list of modules that precedes the scopes.
-/

namespace ScriptMachine

/-- Writes a module scope, given the numbers of modules. -/
def ModuleScope.write (number : ModuleName → Nat) (m : ModuleScope) : Bytes :=
  Varint.write (number m.module.name) ++ m.vars.write ++ Writer.list Thread.write m.threads

/-- Reads the module scope with number `i` of a map. -/
def ModuleScope.read (modules : List LoadedModule) (scope : ScopeId) (i : Nat) :
    Reader ModuleScope := do
  let saved ← Varint.readSize
  match modules[saved]? with
  | none => Reader.malformed (.moduleIndex saved)
  | some module =>
    let vars ← Vars.read
    let threads ← Reader.list (Thread.read module scope i)
    pure { module, vars, threads }

/-- Writes a script slot. -/
def ScriptSlot.write (p : ScriptName × ScriptSlot) : Bytes :=
  p.1.write ++ Varint.write p.2.moduleIndex ++ Varint.write p.2.scriptIndex ++
    Writer.bool p.2.thread.isSome ++ Varint.writeWord (p.2.thread.getD 0)

/-- Reads a script slot of a map with these modules. -/
def ScriptSlot.read (modules : List ModuleScope) : Reader (ScriptName × ScriptSlot) := do
  let name ← ScriptName.read
  let moduleIndex ← Varint.readSize
  let scriptIndex ← Varint.readSize
  let held ← Reader.bool
  let thread ← Varint.readWord
  match modules[moduleIndex]? with
  | none => Reader.malformed (.slotRange name)
  | some m =>
    if m.module.scripts.size ≤ scriptIndex then Reader.malformed (.slotRange name)
    else pure (name, { moduleIndex, scriptIndex, thread := if held then some thread else none })

/-- Writes a map. -/
def MapScope.write (number : ModuleName → Nat) (p : Word × MapScope) : Bytes :=
  Varint.writeWord p.1 ++ Writer.bool p.2.active ++ Varint.writeWord p.2.nextThreadId ++
    Writer.list (ModuleScope.write number) p.2.modules ++
    Writer.list ScriptSlot.write p.2.slots.entries

/-- Reads a map of a hub. -/
def MapScope.read (modules : List LoadedModule) (global hub : Word) : Reader (Word × MapScope) := do
  let id ← Varint.readWord
  let active ← Reader.bool
  let nextThreadId ← Varint.readWord
  let scopes ← Reader.listFrom (ModuleScope.read modules { global, hub, map := id })
  let slots ← Reader.list (ScriptSlot.read scopes)
  pure (id, { active, nextThreadId, modules := scopes, slots := OrdMap.ofList slots })

/-- Writes a hub. -/
def HubScope.write (number : ModuleName → Nat) (p : Word × HubScope) : Bytes :=
  Varint.writeWord p.1 ++ Writer.bool p.2.active ++ p.2.vars.write ++
    Writer.list (MapScope.write number) p.2.maps.entries

/-- Reads a hub of a global scope. -/
def HubScope.read (modules : List LoadedModule) (global : Word) : Reader (Word × HubScope) := do
  let id ← Varint.readWord
  let active ← Reader.bool
  let vars ← Vars.read
  let maps ← Reader.list (MapScope.read modules global id)
  pure (id, { active, vars, maps := OrdMap.ofList maps })

/-- Writes a global scope. -/
def GlobalScope.write (number : ModuleName → Nat) (p : Word × GlobalScope) : Bytes :=
  Varint.writeWord p.1 ++ Writer.bool p.2.active ++ p.2.vars.write ++
    Writer.list (HubScope.write number) p.2.hubs.entries

/-- Reads a global scope. -/
def GlobalScope.read (modules : List LoadedModule) : Reader (Word × GlobalScope) := do
  let id ← Varint.readWord
  let active ← Reader.bool
  let vars ← Vars.read
  let hubs ← Reader.list (HubScope.read modules id)
  pure (id, { active, vars, hubs := OrdMap.ofList hubs })

end ScriptMachine
