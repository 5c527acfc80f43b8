import ScriptMachine.Codec.Names
import ScriptMachine.Machine.Modules
import ScriptMachine.Scope.Codec
import ScriptMachine.StringTable.Codec

/-!
# Saved states

A saved state holds the branch limit, the random generator, the string table, the names of the
registered modules and the scope tree, and then what the host adds.  Module code is not saved;
modules are fetched again by name.  Neither saving nor loading is allowed while scripts run.

Loading replaces the contents of a machine step by step, so where it fails the machine holds what
was read until then.
-/

namespace ScriptMachine.Machine

/-- The first bytes of every saved state. -/
def stateSignature : Bytes := [0x41, 0x43, 0x53, 0x53]

/-- The version of the format. -/
def stateVersion : Word := 1

/-- The number of a module in the list of registered modules; 0 for one that is not registered. -/
def moduleNumber (m : Machine) (name : ModuleName) : Nat := (m.modules.keys.idxOf? name).getD 0

/-- The bytes of a saved state, without what the host adds. -/
def stateBytes (m : Machine) : Bytes :=
  stateSignature ++ Writer.word32 stateVersion ++ Varint.writeWord m.settings.branchLimit ++
    Varint.writeWord m.rng ++ m.strings.write ++ Writer.list ModuleName.write m.modules.keys ++
    Writer.list (GlobalScope.write m.moduleNumber) m.scopes.globals.entries

/-- Saves the state of a machine. -/
def save (m : Machine) : Except Error Bytes × Machine :=
  if m.executing then (.error .busy, m)
  else
    let bytes := m.stateBytes
    let finish (m : Machine) (extra : Bytes) : Except Error Bytes × Machine :=
      (.ok (bytes ++ extra), m.log .debug
        (s!"saved state: {m.strings.size} strings, {m.modules.size} modules, " ++
          s!"{m.scopes.globals.size} global scopes"))
    if m.hooks.has .saveExtra then
      let m := m.emit .saveExtra
      match m.hooks.saveExtra with
      | .error text => (.error (.device text), m)
      | .ok extra => finish m extra
    else finish m []

/-- The branch limit and the random generator at the start of a saved state. -/
def readHeader : Reader (Word × Word) := do
  Reader.signature stateSignature
  let version ← Reader.word32
  if version ≠ stateVersion then throw (.version version)
  return (← Varint.readWord, ← Varint.readWord)

/-- Fetches so many modules by their saved names; answers them and the rest of the bytes. -/
def fetchModules : Nat → Machine → Bytes →
    Except ReadError (List LoadedModule × Bytes) × Machine
  | 0, m, s => (.ok ([], s), m)
  | n + 1, m, s =>
    match ModuleName.read s with
    | .error e => (.error e, m)
    | .ok (name, s) =>
      match m.getModule name with
      | (.error e, m) => (.error e, m)
      | (.ok module, m) =>
        match fetchModules n m s with
        | (.error e, m) => (.error e, m)
        | (.ok (modules, s), m) => (.ok (module :: modules, s), m)

/-- Takes in so many global scopes; answers the rest of the bytes. -/
def takeGlobals (modules : List LoadedModule) :
    Nat → Machine → Bytes → Except ReadError Bytes × Machine
  | 0, m, s => (.ok s, m)
  | n + 1, m, s =>
    match GlobalScope.read modules s with
    | .error e => (.error e, m)
    | .ok ((id, scope), s) =>
      takeGlobals modules n { m with scopes := ⟨m.scopes.globals.insert id scope⟩ } s

/-- The modules and scopes of a saved state.  Fetching modules locks their strings once more, so the
lock counts are set back afterwards. -/
def takeContents (m : Machine) (s : Bytes) : Except ReadError (Nat × Bytes) × Machine :=
  let (strings, rest) := StringTable.read s
  let m := { m with scopes := {}, modules := {}, strings }
  match rest with
  | .error e => (.error e, m)
  | .ok s =>
    let locks := m.strings.lockCounts
    match Varint.readSize s with
    | .error e => (.error e, m)
    | .ok (n, s) =>
      match fetchModules n m s with
      | (.error e, m) => (.error e, m)
      | (.ok (modules, s), m) =>
        match Varint.readSize s with
        | .error e => (.error e, m)
        | .ok (n, s) =>
          match takeGlobals modules n m s with
          | (.error e, m) => (.error e, m)
          | (.ok s, m) =>
            (.ok (modules.length, s), { m with strings := m.strings.restoreLocks locks })

/-- What the host added to a saved state. -/
def takeExtra (m : Machine) (s : Bytes) : Except ReadError Bytes × Machine :=
  if m.hooks.has .loadExtra then
    match m.hooks.loadExtra s with
    | .error e => (.error e, m)
    | .ok (extra, s) => (.ok s, m.emit (.loadExtra extra))
  else (.ok s, m)

/-- Loads a saved state from the front of the bytes; answers the rest of them. -/
def load (m : Machine) (s : Bytes) : Except Error Bytes × Machine :=
  if m.executing then (.error .busy, m)
  else
    match readHeader s with
    | .error e => (.error (.read e), m)
    | .ok ((limit, rng), s) =>
      match m.takeContents s with
      | (.error e, m) => (.error (.read e), m)
      | (.ok (count, s), m) =>
        let m := { m with settings := { m.settings with branchLimit := limit }, rng }
        match m.takeExtra s with
        | (.error e, m) => (.error (.read e), m)
        | (.ok s, m) =>
          (.ok s, m.log .debug s!"loaded state: {count} modules, {m.strings.size} strings")

end ScriptMachine.Machine
