import ScriptMachine.Machine.Basic

/-!
# Making and freeing scopes

Scopes come into being when they are first used.  Freeing one removes everything below it: locks on
strings are given back and its threads end without another turn.
-/

namespace ScriptMachine.Machine

/-- Variables of a global or hub scope. -/
def freshVars (m : Machine) : Vars := Vars.make m.settings.scopeRegCount m.settings.scopeArrCount

/-- Makes a global scope unless it is there. -/
def ensureGlobal (m : Machine) (g : Word) : Machine :=
  if (m.scopes.global? g).isSome then m
  else
    let m := m.log .debug s!"creating global scope {g}"
    { m with scopes := ⟨m.scopes.globals.insert g { vars := m.freshVars }⟩ }

/-- Makes a hub unless it is there. -/
def ensureHub (m : Machine) (g h : Word) : Machine :=
  let m := m.ensureGlobal g
  if (m.scopes.hub? g h).isSome then m
  else
    let m := m.log .debug s!"creating hub scope {h}"
    { m with scopes := m.scopes.modifyGlobal g fun x =>
        { x with hubs := x.hubs.insert h { vars := m.freshVars } } }

/-- Makes a map unless it is there. -/
def ensureMap (m : Machine) (id : ScopeId) : Machine :=
  let m := m.ensureHub id.global id.hub
  if (m.scopes.map? id).isSome then m
  else
    let m := m.log .debug s!"creating map scope {id.map}"
    { m with scopes := m.scopes.modifyHub id.global id.hub fun x =>
        { x with maps := x.maps.insert id.map {} } }

/-- Makes the scope of a level on the way to a map, and those above it; that of a thread or module
is the map. -/
def ensure (m : Machine) (level : Level) (id : ScopeId) : Machine :=
  match level with
  | .global => m.ensureGlobal id.global
  | .hub => m.ensureHub id.global id.hub
  | _ => m.ensureMap id

/-- Sets the active flag of the scope of a level, which is made if needed. -/
def setActive (m : Machine) (level : Level) (id : ScopeId) (active : Bool) : Machine :=
  let m := m.ensure level id
  { m with scopes := match level with
    | .global => m.scopes.modifyGlobal id.global fun g => { g with active }
    | .hub => m.scopes.modifyHub id.global id.hub fun h => { h with active }
    | _ => m.scopes.modifyMap id fun x => { x with active } }

/-- Ends threads whose scope is gone. -/
def stopThreads (m : Machine) (threads : List Thread) : Machine :=
  (threads.filter fun t => !t.isPlaceholder).foldl
    (fun m t => m.report .threadStop (.threadStop { t with state := .stopped })) m

/-- Frees a global scope; answers whether there was one. -/
def freeGlobal (m : Machine) (g : Word) : Bool × Machine :=
  match m.scopes.global? g with
  | none => (false, m)
  | some scope =>
    let m := { m with
      scopes := ⟨m.scopes.globals.erase g⟩
      strings := scope.release m.strings }
    (true, (m.stopThreads scope.threads).log .debug s!"freed global scope {g}")

/-- Frees a hub; answers whether there was one. -/
def freeHub (m : Machine) (g h : Word) : Bool × Machine :=
  match m.scopes.hub? g h with
  | none => (false, m)
  | some scope =>
    let m := { m with
      scopes := m.scopes.modifyGlobal g fun x => { x with hubs := x.hubs.erase h }
      strings := scope.release m.strings }
    (true, (m.stopThreads scope.threads).log .debug s!"freed hub scope {g}:{h}")

/-- Frees a map; answers whether there was one. -/
def freeMap (m : Machine) (id : ScopeId) : Bool × Machine :=
  match m.scopes.map? id with
  | none => (false, m)
  | some scope =>
    let m := { m with
      scopes := m.scopes.modifyHub id.global id.hub fun x => { x with maps := x.maps.erase id.map }
      strings := scope.release m.strings }
    (true, (m.stopThreads scope.threads).log .debug s!"freed map scope {id.display}")

/-- Frees the scope of a level; answers whether there was one. -/
def free (m : Machine) (level : Level) (id : ScopeId) : Bool × Machine :=
  match level with
  | .global => m.freeGlobal id.global
  | .hub => m.freeHub id.global id.hub
  | _ => m.freeMap id

/-- Frees the strings that nobody holds: no lock, no module, no scope or thread, and not the host.
Not allowed while scripts run.  Answers how many were freed. -/
def collectStrings (m : Machine) : Except Error Nat × Machine :=
  if m.executing then (.error .busy, m)
  else
    let t := m.strings.beginCollection
    let t := t.markAll (m.modules.values.flatMap (·.strings))
    let t := t.markAll m.scopes.references
    let m := m.report .references .references
    let t := if m.hooks.has .references then t.markAll m.hooks.references else t
    let (freed, t) := t.endCollection
    let m := { m with strings := t }
    let m := m.log .trace s!"string collection freed {freed}, {t.capacity} slots remain"
    (.ok freed, m.log .debug s!"string collection freed {freed} strings")

end ScriptMachine.Machine
