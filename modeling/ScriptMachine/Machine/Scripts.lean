import ScriptMachine.Machine.Scopes

/-!
# Starting, stopping and pausing scripts

A script name means the first script of that name in the first module of the map that declares one.
Unless the script may run several times at once, at most one thread holds its name.

A thread that runs is not in the tree: a placeholder stands in its place, and requests to stop or
pause the thread are left with the placeholder until the thread comes back (`Machine.reattach`).
-/

namespace ScriptMachine.Machine

/-- Where a script name leads in a map. -/
def resolveScript? (m : Machine) (scope : ScopeId) (name : ScriptName) : Option ScriptSlot := do
  let map ← m.scopes.map? scope
  map.slots.find? name

/-- Whether a script name is held by a thread that has not ended. -/
def scriptActive (m : Machine) (scope : ScopeId) (name : ScriptName) : Bool :=
  ((m.scopes.map? scope).map (·.scriptActive name)).getD false

/-- Whether the name of the script at these numbers leads to this script. -/
def ownsName (map : MapScope) (name : ScriptName) (moduleIndex scriptIndex : Nat) : Bool :=
  match map.slots.find? name with
  | some s => s.moduleIndex == moduleIndex && s.scriptIndex == scriptIndex
  | none => false

/-- Adds a thread to a map, at the start of the script at these numbers; it takes the script's name
if `takesName` says so.  Answers the id of the thread. -/
def spawn (m : Machine) (scope : ScopeId) (moduleIndex scriptIndex : Nat) (args : List Word)
    (info : ThreadInfo) (takesName : Bool) : Option Word × Machine :=
  match m.scopes.map? scope with
  | none => (none, m)
  | some map =>
    let (id, map) := map.takeThreadId
    match map.modules[moduleIndex]? with
    | none => (none, { m with scopes := m.scopes.modifyMap scope fun _ => map })
    | some place =>
      match Thread.make? id place.module scope moduleIndex scriptIndex args info with
      | none => (none, { m with scopes := m.scopes.modifyMap scope fun _ => map })
      | some thread =>
        let map := map.modifyModule moduleIndex fun s => { s with threads := s.threads ++ [thread] }
        let name := thread.scriptName?
        let map := match takesName, name with
          | true, some n =>
            { map with slots := map.slots.modify n fun s => { s with thread := some id } }
          | _, _ => map
        let m := { m with scopes := m.scopes.modifyMap scope fun _ => map }
        let shown := (name.map (·.display)).getD "?"
        let m := m.log .debug s!"started script {shown} in {scope.display} as thread {id}"
        let placed := (map.modules[moduleIndex]?).bind (·.thread? id)
        (some id, match placed with
          | some t => m.report .threadStart (.threadStart t)
          | none => m)

/-- Starts the script at these numbers.  A paused holder of the name goes on instead; a running one
is ended first if `forced` says so, and else nothing is started.  Answers whether something was. -/
def startAt (m : Machine) (scope : ScopeId) (moduleIndex scriptIndex : Nat) (args : List Word)
    (info : ThreadInfo) (forced : Bool) : Bool × Machine :=
  match m.scopes.map? scope with
  | none => (false, m)
  | some map =>
    match map.script? moduleIndex scriptIndex with
    | none => (false, m)
    | some script =>
      let owns := ownsName map script.name moduleIndex scriptIndex && !script.multi
      let start (m : Machine) : Bool × Machine :=
        let (id, m) := m.spawn scope moduleIndex scriptIndex args info owns
        (id.isSome, m)
      let setState (id : Word) (state : ThreadState) : Machine :=
        { m with scopes := m.scopes.modifyModule scope moduleIndex fun s =>
            s.modifyThread id fun t => { t with state } }
      match (if owns then map.scriptThread? script.name else none) with
      | none => start m
      | some t =>
        if t.state.isFinished then start m
        else if forced then start (setState t.id .stopped)
        else if t.state = .paused then
          (true, (setState t.id .running).log .debug
            s!"resumed script {script.name.display} in {scope.display}")
        else (false, m)

/-- Starts a script by name; a paused one goes on.  Answers false when the name is unknown or the
script already runs. -/
def startScript (m : Machine) (scope : ScopeId) (name : ScriptName) (args : List Word)
    (info : ThreadInfo) : Bool × Machine :=
  match m.resolveScript? scope name with
  | none => (false, m)
  | some s => m.startAt scope s.moduleIndex s.scriptIndex args info false

/-- Starts a script by name, in place of one that runs. -/
def startForced (m : Machine) (scope : ScopeId) (name : ScriptName) (args : List Word)
    (info : ThreadInfo) : Bool × Machine :=
  match m.resolveScript? scope name with
  | none => (false, m)
  | some s => m.startAt scope s.moduleIndex s.scriptIndex args info true

/-- Starts the scripts at these numbers; answers how many were started. -/
def startAll (m : Machine) (scope : ScopeId) (args : List Word) (info : ThreadInfo) :
    List (Nat × Nat) → Nat × Machine
  | [] => (0, m)
  | (i, j) :: rest =>
    let (started, m) := m.startAt scope i j args info false
    let (n, m) := m.startAll scope args info rest
    (if started then n + 1 else n, m)

/-- The numbers of the scripts of an event in a module scope. -/
def scriptsOfType (s : ModuleScope) (i : Nat) (type : Word) : List (Nat × Nat) :=
  (s.module.scripts.toList.zipIdx.filter fun p => p.1.type == type).map fun p => (i, p.2)

/-- Starts every script of an event in a map; answers how many were started. -/
def startType (m : Machine) (scope : ScopeId) (type : Word) (args : List Word) (info : ThreadInfo) :
    Nat × Machine :=
  match m.scopes.map? scope with
  | none => (0, m)
  | some map =>
    m.startAll scope args info (map.modules.zipIdx.flatMap fun (s, i) => scriptsOfType s i type)

/-- Registers modules with a map, which is made if needed; answers the numbers of the new scopes. -/
def registerAll (m : Machine) (scope : ScopeId) : List LoadedModule → List Nat × Machine
  | [] => ([], m)
  | module :: rest =>
    match m.scopes.map? scope with
    | none => ([], m)
    | some map =>
      let (i, map) := map.addModule module
      let (is, m) :=
        ({ m with scopes := m.scopes.modifyMap scope fun _ => map }).registerAll scope rest
      (i.toList ++ is, m)

/-- Adds modules to a map, which is made if needed.  Modules that are there already are skipped.
Where the settings ask for it, the opening scripts of new modules start.  Answers how many modules
are new. -/
def addModules (m : Machine) (scope : ScopeId) (modules : List LoadedModule) : Nat × Machine :=
  let (added, m) := (m.ensureMap scope).registerAll scope modules
  if m.settings.startOpenOnAdd then
    let targets := added.flatMap fun i =>
      ((m.scopes.module? scope i).map fun s => scriptsOfType s i Script.openType).getD []
    (added.length, (m.startAll scope [] {} targets).2)
  else (added.length, m)

/-- Whether a stop or pause of the script at this number reaches a thread.  Of placeholders only
that of the holder of the name is reached. -/
def reaches (scriptIndex : Nat) (holder : Option Word) (t : Thread) : Bool :=
  (if t.isPlaceholder then holder == some t.id else t.scriptIndex == scriptIndex) &&
    !t.state.isFinished

/-- Puts every thread of a script that has not ended into a state; answers whether there was one. -/
def setScriptState (m : Machine) (scope : ScopeId) (name : ScriptName) (state : ThreadState) :
    Bool × Machine :=
  match m.resolveScript? scope name with
  | none => (false, m)
  | some slot =>
    match m.scopes.module? scope slot.moduleIndex with
    | none => (false, m)
    | some place =>
      let hit := reaches slot.scriptIndex slot.thread
      if place.threads.any hit then
        let m := { m with scopes := m.scopes.modifyModule scope slot.moduleIndex fun s =>
          { s with threads := s.threads.map fun t => if hit t then { t with state } else t } }
        (true, m.log .debug s!"script {name.display} in {scope.display} set to {state.display}")
      else (false, m)

/-- Ends every thread of a script; answers whether there was one. -/
def stopScript (m : Machine) (scope : ScopeId) (name : ScriptName) : Bool × Machine :=
  m.setScriptState scope name .stopped

/-- Pauses every thread of a script; answers whether there was one. -/
def pauseScript (m : Machine) (scope : ScopeId) (name : ScriptName) : Bool × Machine :=
  m.setScriptState scope name .paused

/-- Puts a thread that ran back into its place.  What was asked of its placeholder meanwhile is done
to the thread.  If the place is gone, the thread ends. -/
def reattach (m : Machine) (scope : ScopeId) (moduleIndex : Nat) (t : Thread) : Machine :=
  let placed := (m.scopes.module? scope moduleIndex).bind (·.thread? t.id)
  match placed.filter Thread.isPlaceholder with
  | some p =>
    let t := match p.state with
      | .stopped => { t with state := .stopped }
      | .paused => if t.state.isFinished then t else { t with state := .paused }
      | _ => t
    { m with scopes := m.scopes.modifyModule scope moduleIndex fun s =>
        s.modifyThread t.id fun _ => t }
  | none =>
    let m := m.log .debug s!"scope {scope.display} went away while thread {t.id} ran"
    m.report .threadStop (.threadStop { t with state := .stopped })

end ScriptMachine.Machine
