import ScriptMachine.Machine.Basic
import ScriptMachine.Module.Loader

/-!
# The module registry

A module is loaded once and then shared under its name until it is freed, which takes that nobody
refers to it: no map, no thread, whether it runs or not, and not the host.
-/

namespace ScriptMachine.Machine

/-- The module name for a text. -/
def moduleName (m : Machine) (text : String) : ModuleName × Machine :=
  if m.hooks.has .resolveName then (m.hooks.resolveName text, m.emit (.resolveName text))
  else ({ name := text }, m)

/-- Loads a module and registers it. -/
def register (m : Machine) (name : ModuleName) (data : Bytes) :
    Except ReadError LoadedModule × Machine :=
  let policy := m.settings.unknownCode
  let m := (Module.trapped data m.codeTable policy).foldl (fun m (raw, offset) =>
    m.log .debug s!"unknown opcode {raw} at offset {offset} translated to a kill") m
  match Module.load name data m.codeTable policy m.strings with
  | .error e => (.error e, m)
  | .ok (module, strings) =>
    let loaded : LoadedModule := { module with serial := m.nextSerial }
    let m := m.log .debug
      (s!"loaded module {name.display}: {module.scripts.size} scripts, " ++
        s!"{module.functions.size} functions, {module.code.size} code words")
    (.ok loaded,
      { m with
        strings
        nextSerial := m.nextSerial + 1
        modules := m.modules.insert name loaded })

/-- The bytes of a module: those the host handed over, else those it answers when asked. -/
def fetch (m : Machine) (name : ModuleName) : Except ReadError Bytes × Machine :=
  match m.sources.find? name with
  | some data => (.ok data, m)
  | none =>
    if m.hooks.has .loadModule then (m.hooks.loadModule name, m.emit (.loadModule name))
    else (.error (.malformed (.noLoader name)), m)

/-- The module with a name, loaded on first use. -/
def getModule (m : Machine) (name : ModuleName) : Except ReadError LoadedModule × Machine :=
  match m.modules.find? name with
  | some module => (.ok module, m)
  | none =>
    match m.fetch name with
    | (.error e, m) => (.error e, m)
    | (.ok data, m) => m.register name data

/-- The modules with some names, up to the first that cannot be loaded. -/
def getModules : List ModuleName → Machine → Except ReadError (List LoadedModule) × Machine
  | [], m => (.ok [], m)
  | name :: rest, m =>
    match m.getModule name with
    | (.error e, m) => (.error e, m)
    | (.ok module, m) =>
      match getModules rest m with
      | (.error e, m) => (.error e, m)
      | (.ok modules, m) => (.ok (module :: modules), m)

/-- Registers a module the host has the bytes of.  A module already registered under the name is
answered instead. -/
def loadModule (m : Machine) (name : ModuleName) (data : Bytes) :
    Except ReadError LoadedModule × Machine :=
  match m.modules.find? name with
  | some module => (.ok module, m)
  | none =>
    match m.register name data with
    | (.error e, m) => (.error e, m)
    | (.ok module, m) => (.ok module, { m with sources := m.sources.insert name data })

/-- Whether a map, a thread or the host refers to a module.  Threads that run are out of the tree. -/
def isReferenced (m : Machine) (serial : Nat) : Bool :=
  m.scopes.maps.any (fun map => map.modules.any fun s =>
      s.module.serial == serial || s.threads.any (·.module.any (·.serial == serial))) ||
    m.running.contains serial || m.held.contains serial

/-- Forgets a module nobody refers to; answers whether it did. -/
def freeModule (m : Machine) (name : ModuleName) : Bool × Machine :=
  match m.modules.find? name with
  | none => (false, m)
  | some module =>
    if m.isReferenced module.serial then (false, m)
    else
      let m := { m with
        modules := m.modules.erase name
        strings := module.releaseStrings m.strings
        sources := m.sources.erase name }
      (true, m.log .debug s!"freed module {name.display}")

/-- The host keeps a reference to a module. -/
def hold (m : Machine) (module : LoadedModule) : Machine :=
  { m with held := module.serial :: m.held }

/-- The host drops its references; answers how many there were. -/
def dropHeld (m : Machine) : Nat × Machine := (m.held.length, { m with held := [] })

end ScriptMachine.Machine
