import ScriptMachine.Machine.Turn

/-!
# Ticks

A tick visits every thread of every active map once, in the order of the scopes and then of the
threads' creation.  A visit removes a thread that has ended, wakes one whose wait is over, lowers a
delay by one, and gives the thread a turn if nothing keeps it.
-/

namespace ScriptMachine.Machine

/-- What a visit did to the list of threads. -/
inductive Visit where
  /-- The thread is gone, and the next one has moved into its place. -/
  | removed
  | next
  /-- There is no thread here, or the map is no longer active. -/
  | finished
deriving DecidableEq

/-- Removes a thread that has ended. -/
def reap (m : Machine) (scope : ScopeId) (moduleIndex threadIndex : Nat) : Machine :=
  match (m.scopes.module? scope moduleIndex).bind (·.threads[threadIndex]?) with
  | none => m
  | some t =>
    let m := { m with scopes := m.scopes.modifyMap scope fun map =>
      (map.modifyModule moduleIndex fun s =>
        { s with threads := s.threads.eraseIdx threadIndex }).releaseSlot t }
    let m := m.log .trace s!"reaped thread {t.id} in {scope.display}"
    m.report .threadStop (.threadStop t)

/-- Whether nothing but a delay keeps a thread in this state from its turn.  The host may be
asked. -/
def isRunnable (m : Machine) (scope : ScopeId) : ThreadState → Bool × Machine
  | .running => (true, m)
  | .waitNumber n => (!m.scriptActive scope (.number n), m)
  | .waitName s => (!m.scriptActive scope (.text s), m)
  | .waitTag type tag =>
    if m.hooks.has .checkTag then
      let released := m.hooks.checkTag type tag
      (released, m.emit (.checkTag type tag released))
    else (true, m)
  | _ => (false, m)

/-- Changes the thread at a place of a module scope. -/
def modifyThreadAt (m : Machine) (scope : ScopeId) (moduleIndex threadIndex : Nat)
    (f : Thread → Thread) : Machine :=
  { m with scopes := m.scopes.modifyModule scope moduleIndex fun s =>
      { s with threads := s.threads.modify threadIndex f } }

/-- Gives a thread that is awake its turn: a delay is lowered, and at 0 the thread runs. -/
def takeTurn (turn : Turn) (m : Machine) (scope : ScopeId) (moduleIndex threadIndex : Nat)
    (t : Thread) : Option (Visit × Machine) :=
  let t := { t with lastTick := m.tick, state := .running, delay := t.delay - min t.delay 1 }
  if 0 < t.delay then some (.next, m.modifyThreadAt scope moduleIndex threadIndex fun _ => t)
  else do
    let m := m.modifyThreadAt scope moduleIndex threadIndex fun _ => Thread.placeholder t.id
    let (m, t) ← runDetached turn m t
    pure (.next, m.reattach scope moduleIndex t)

/-- Visits the thread at a place.  No thread has two turns in one tick. -/
def visit (turn : Turn) (m : Machine) (scope : ScopeId) (moduleIndex threadIndex : Nat) :
    Option (Visit × Machine) :=
  if !m.scopes.isActive scope then some (.finished, m)
  else
    match (m.scopes.module? scope moduleIndex).bind (·.threads[threadIndex]?) with
    | none => some (.finished, m)
    | some t =>
      if t.state.isFinished then some (.removed, m.reap scope moduleIndex threadIndex)
      else
        let (runnable, m) := m.isRunnable scope t.state
        if !runnable || t.lastTick == m.tick then some (.next, m)
        else
          let m := if t.state = .running then m
            else m.log .trace s!"thread {t.id} resumes after {t.state.display}"
          m.takeTurn turn scope moduleIndex threadIndex t

/-- Visits the threads of a module scope from a place on. -/
def visitThreads (turn : Turn) (scope : ScopeId) (moduleIndex : Nat) :
    (fuel threadIndex : Nat) → Machine → Option Machine
  | 0, _, _ => none
  | fuel + 1, j, m =>
    match m.visit turn scope moduleIndex j with
    | none => none
    | some (.finished, m) => some m
    | some (.removed, m) => visitThreads turn scope moduleIndex fuel j m
    | some (.next, m) => visitThreads turn scope moduleIndex fuel (j + 1) m

/-- Visits the module scopes of a map from a number on. -/
def visitModules (turn : Turn) (scope : ScopeId) :
    (fuel moduleIndex : Nat) → Machine → Option Machine
  | 0, _, _ => none
  | fuel + 1, i, m =>
    match m.scopes.map? scope with
    | none => some m
    | some map =>
      if i < map.modules.length then
        match visitThreads turn scope i fuel 0 m with
        | none => none
        | some m => visitModules turn scope fuel (i + 1) m
      else some m

/-- Visits the maps that are active when their time comes. -/
def visitMaps (turn : Turn) (fuel : Nat) : List ScopeId → Machine → Option Machine
  | [], m => some m
  | scope :: rest, m =>
    if m.scopes.isActive scope then
      match visitModules turn scope fuel 0 m with
      | none => none
      | some m => visitMaps turn fuel rest m
    else visitMaps turn fuel rest m

/-- Runs one tick.  A tick within a tick does nothing. -/
def execWith (turn : Turn) (fuel : Nat) (m : Machine) : Option Machine :=
  if m.executing then some (m.log .warn "nested exec ignored")
  else
    let m := { m with executing := true, tick := m.tick + 1 }
    (visitMaps turn fuel m.scopes.mapIds m).map fun m => { m with executing := false }

end ScriptMachine.Machine
