import ScriptMachine.Machine.Scripts

/-!
# Turns of threads

A turn runs a thread until it blocks, ends or has run as many instructions as the settings allow.
Running a thread may run others: a script can start another one and wait for its result within its
own turn, and a host function may do the same.  So turns are given with fuel; a turn that needs more
has no answer.

A host function is a program over the machine and the calling thread (`HostProgram`), so what it can
do is part of the model.
-/

namespace ScriptMachine

/-- A turn of a thread that is out of the tree; none where it does not end. -/
abbrev Turn := Machine → Thread → Option (Machine × Thread)

namespace Machine

/-- Runs a thread that is out of the tree, noting its module meanwhile. -/
def runDetached (turn : Turn) (m : Machine) (t : Thread) : Option (Machine × Thread) :=
  let serials := (t.module.map (·.serial)).toList
  (turn { m with running := serials ++ m.running } t).map fun (m, t) =>
    ({ m with running := m.running.drop serials.length }, t)

/-- Whether a new instance of a script takes its name. -/
def canTakeName (m : Machine) (scope : ScopeId) (name : ScriptName) (slot : ScriptSlot) : Bool :=
  match m.scopes.map? scope with
  | none => false
  | some map =>
    let multi := ((map.script? slot.moduleIndex slot.scriptIndex).map Script.multi).getD false
    ownsName map name slot.moduleIndex slot.scriptIndex && !multi && !map.scriptActive name

/-- Starts a new instance of a script and gives it a turn at once.  Answers its result if it ended
in that turn. -/
def startResult (turn : Turn) (m : Machine) (scope : ScopeId) (name : ScriptName) (args : List Word)
    (info : ThreadInfo) : Option (Option Word × Machine) :=
  match m.resolveScript? scope name with
  | none => some (none, m)
  | some slot =>
    let takesName := m.canTakeName scope name slot
    match m.spawn scope slot.moduleIndex slot.scriptIndex args info takesName with
    | (none, m) => some (none, m)
    | (some id, m) =>
      match (m.scopes.module? scope slot.moduleIndex).bind (·.thread? id) with
      | none => some (none, m)
      | some t => do
        let nested := m.executing
        let m := { m with
          executing := true
          scopes := m.scopes.modifyModule scope slot.moduleIndex fun s =>
            s.modifyThread id fun _ => Thread.placeholder id }
        let (m, t) ← runDetached turn m { t with lastTick := m.tick }
        let m := { m with executing := nested }
        let result := if t.state = .stopped then some t.result else none
        pure (result, m.reattach scope slot.moduleIndex t)

end Machine

/-- What a host function does: it looks at the machine and the calling thread, replaces them, starts
scripts for their result, runs ticks, and ends. -/
inductive HostProgram (α : Type) where
  | done (a : α)
  | look (next : Machine → Thread → HostProgram α)
  | put (m : Machine) (t : Thread) (next : HostProgram α)
  | startResult (scope : ScopeId) (name : ScriptName) (args : List Word) (info : ThreadInfo)
      (next : Option Word → HostProgram α)
  | tick (next : HostProgram α)

namespace HostProgram

variable {α β : Type}

/-- One program after another. -/
def bind (p : HostProgram α) (f : α → HostProgram β) : HostProgram β :=
  match p with
  | done a => f a
  | look next => look fun m t => (next m t).bind f
  | put m t next => put m t (next.bind f)
  | startResult scope name args info next =>
    startResult scope name args info fun r => (next r).bind f
  | tick next => tick (next.bind f)

instance : Monad HostProgram where
  pure := done
  bind := bind

/-- Changes the machine and answers something. -/
def machine (f : Machine → α × Machine) : HostProgram α :=
  look fun m t => let (a, m) := f m; put m t (done a)

/-- Changes the calling thread and answers something. -/
def thread (f : Thread → α × Thread) : HostProgram α :=
  look fun m t => let (a, t) := f t; put m t (done a)

/-- Carries a program out. -/
def run (turn : Turn) (exec : Machine → Option Machine) :
    HostProgram α → Machine → Thread → Option (Machine × Thread × α)
  | done a, m, t => some (m, t, a)
  | look next, m, t => (next m t).run turn exec m t
  | put m t next, _, _ => next.run turn exec m t
  | startResult scope name args info next, m, t =>
    match m.startResult turn scope name args info with
    | none => none
    | some (r, m) => (next r).run turn exec m t
  | tick next, m, t =>
    match exec m with
    | none => none
    | some m => next.run turn exec m t

end HostProgram

/-- The host functions by key: the program of a call with these arguments, which answers whether the
calling thread is to wait for its next turn. -/
abbrev Host := Nat → List Word → HostProgram Bool

end ScriptMachine
