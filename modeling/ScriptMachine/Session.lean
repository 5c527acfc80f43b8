import ScriptMachine.Machine.Modules
import ScriptMachine.Machine.SaveState
import ScriptMachine.Machine.Step

/-!
# Sessions

A session is a machine behind a handle, for hosts that cannot hold the machine itself.  A request
through a missing or closed handle, or one that fails, answers a fixed value; why it failed is
logged and told to the host if it wants to know.  Texts come as bytes that end at the first zero.
-/

namespace ScriptMachine

/-- A machine behind a handle. -/
structure Session where
  machine : Machine
  /-- Whether the machine was given up. -/
  closed : Bool := false
  /-- Whether the host wants to be told about failures. -/
  tellsFailures : Bool := false

/-- Why a request failed. -/
inductive SessionError where
  | nullString
  | notUtf8 (fault : Utf8.Fault)
  | nullFunction
  | unknownOpcode (number : Word)
  | unknownKind (number : UInt8)
  | operandCount (op : Opcode) (given : Nat)
  | nullOutput
  | nullState
  | unknownLevel (level : Word)
  /-- A module could not be loaded. -/
  | loading (name : ModuleName) (cause : ReadError)
  | failed (cause : Error)
deriving DecidableEq

/-- The wording of a failure: what was attempted, then the cause. -/
def SessionError.message : SessionError → String
  | nullString => "null string"
  | notUtf8 f => s!"string is not UTF-8: {f.message}"
  | nullFunction => "null callfunc"
  | unknownOpcode n => s!"unknown internal code {n}"
  | unknownKind k => s!"unknown operand kind {k.toNat}"
  | operandCount op given => s!"{op.name} takes {op.arity} operands, got {given}"
  | nullOutput => "null output pointer"
  | nullState => "null state buffer"
  | unknownLevel l => s!"unknown scope level {l}"
  | loading name cause => s!"loading module {name.display}: {cause.message}"
  | failed cause => cause.message

/-- What a host asks of a machine: an answer or a failure, and the machine after it.  None where
scripts do not come to an end. -/
abbrev Request (α : Type) := Machine → Option (Except SessionError α × Machine)

namespace Session

/-- A session over a new machine with these services. -/
def openWith (hooks : Hooks) (tellsFailures : Bool) : Session :=
  { machine := { Machine.make {} with hooks }, tellsFailures }

/-- What a host can answer to a request for a module: a name with a zero in it cannot be handed
over, and the host either has the bytes or has not. -/
def moduleLoader (answer : String → Option Bytes) (name : ModuleName) : Except ReadError Bytes :=
  if name.name.toList.contains '\x00' then .error (.malformed (.host "module name contains NUL"))
  else
    match answer name.name with
    | some data => .ok data
    | none => .error (.malformed (.host s!"host could not load module {name.display}"))

/-- Whether an event reaches the host.  A request for a module whose name cannot be handed over does
not. -/
def reachesHost : Event → Bool
  | .loadModule name => !name.name.toList.contains '\x00'
  | _ => true

/-- Logs a failure and tells the host, unless the text cannot be handed over. -/
def fail (s : Session) (e : SessionError) : Session :=
  let text := e.message
  let m := s.machine.log .error text
  { s with machine :=
      if s.tellsFailures && !text.toList.contains '\x00' then m.emit (.failure text) else m }

/-- Carries out a request through a handle, which may be missing. -/
def request {α : Type} (s : Session) (present : Bool) (fallback : α) (f : Request α) :
    Option (α × Session) :=
  if !present then
    some (fallback, { s with machine := s.machine.log .error "null environment handle" })
  else if s.closed then
    some (fallback, { s with
      machine := s.machine.log .error "unknown or freed environment handle" })
  else
    (f s.machine).map fun
      | (.ok a, m) => (a, { s with machine := m })
      | (.error e, m) => (fallback, { s with machine := m }.fail e)

/-- A request that always ends. -/
def simple {α : Type} (f : Machine → Except SessionError α × Machine) : Request α := fun m => some (f m)

/-- A request that changes the machine and cannot fail. -/
def plain {α : Type} (f : Machine → α × Machine) : Request α := fun m =>
  let (a, m) := f m
  some (.ok a, m)

/-- The text of bytes that end at the first zero. -/
def text (bytes : Option Bytes) : Except SessionError String :=
  match bytes with
  | none => .error .nullString
  | some b =>
    match Utf8.decode (b.takeWhile (· != 0)) with
    | .ok s => .ok s
    | .error f => .error (.notUtf8 f)

/-- Gives the machine up. -/
def close (s : Session) (present : Bool) : Session :=
  match s.request present () (plain fun m => ((), m)) with
  | some (_, s) => if present then { s with closed := true } else s
  | none => s

/-- Sets how many instructions a thread may run in one turn. -/
def setBranchLimit (limit : Word) : Request Bool :=
  plain fun m => (true, { m with settings := { m.settings with branchLimit := limit } })

/-- Gives a host function the next number. -/
def addFunction (key : Option Nat) : Request (Option Word) :=
  simple fun m =>
    match key with
    | none => (.error .nullFunction, m)
    | some k =>
      let (i, m) := m.addHostFunc k
      (.ok (some i), m)

/-- The operand kind with a number. -/
def kind? (k : UInt8) : Except SessionError OperandKind :=
  match k with
  | 0 => .ok .literal
  | 1 => .ok .target
  | 2 => .ok .string
  | 3 => .ok .function
  | k => .error (.unknownKind k)

/-- Makes a raw opcode an instruction. -/
def addInstruction (raw number : Word) (kinds : Bytes) : Request Bool :=
  simple fun m =>
    match Opcode.ofWord? number with
    | none => (.error (.unknownOpcode number), m)
    | some op =>
      match kinds.mapM kind? with
      | .error e => (.error e, m)
      | .ok kinds =>
        match m.addInstruction raw op kinds with
        | (true, m) => (.ok true, m)
        | (false, m) => (.error (.operandCount op kinds.length), m)

/-- Makes a raw opcode a function call. -/
def addRedirect (raw : Word) (r : Redirect) : Request Bool :=
  plain fun m => (true, { m with codeTable := m.codeTable.addRedirect raw r })

/-- Runs one tick. -/
def tick (host : Host) (fuel : Nat) : Request Bool :=
  fun m => (m.exec host fuel).map fun m => (.ok true, m)

/-- Whether some thread has not ended. -/
def hasActiveThread : Request Bool :=
  plain fun m => (m.scopes.hasActiveThread, m)

/-- The outcome of a request of the machine, without its answer. -/
def settle {α : Type} (r : Except Error α × Machine) : Except SessionError Bool × Machine :=
  match r with
  | (.ok _, m) => (.ok true, m)
  | (.error e, m) => (.error (.failed e), m)

/-- Frees strings nobody holds. -/
def collect : Request Bool :=
  simple fun m => settle m.collectStrings

/-- Saves the state, given a place for it. -/
def save (hasOutput : Bool) : Request (Option Bytes) :=
  simple fun m =>
    if !hasOutput then (.error .nullOutput, m)
    else
      match m.save with
      | (.ok b, m) => (.ok (some b), m)
      | (.error e, m) => (.error (.failed e), m)

/-- Loads a saved state. -/
def load (data : Option Bytes) : Request Bool :=
  simple fun m =>
    match data with
    | none => (.error .nullState, m)
    | some b => settle (m.load b)

/-- Fetches a module by name and adds it to a map. -/
def addModule (scope : ScopeId) (name : Option Bytes) : Request Bool :=
  simple fun m =>
    match text name with
    | .error e => (.error e, m)
    | .ok t =>
      let (name, m) := m.moduleName t
      match m.getModule name with
      | (.error e, m) => (.error (.loading name e), m)
      | (.ok module, m) => (.ok true, (m.addModules scope [module]).2)

/-- A request about a script, which is given by a number or by bytes. -/
def onScript {α : Type} (name : Int32 ⊕ Option Bytes)
    (f : ScriptName → Machine → Option (α × Machine)) : Request α := fun m =>
  let run (n : ScriptName) := (f n m).map fun (a, m) => (.ok a, m)
  match name with
  | .inl n => run (.number n)
  | .inr b =>
    match text b with
    | .error e => some (.error e, m)
    | .ok t => run (.text t)

/-- Starts every script of an event. -/
def startType (scope : ScopeId) (type : Word) (args : List Word) (info : ThreadInfo) : Request Word :=
  plain fun m =>
    let (n, m) := m.startType scope type args info
    (UInt32.ofNat n, m)

/-- Sets the active flag of a scope, which is made if needed: level 0 is the global scope, 1 the hub
and 2 the map. -/
def setActive (scope : ScopeId) (level : Word) (active : Bool) : Request Bool :=
  simple fun m =>
    match level with
    | 0 => (.ok true, m.setActive .global scope active)
    | 1 => (.ok true, m.setActive .hub scope active)
    | 2 => (.ok true, m.setActive .module scope active)
    | l => (.error (.unknownLevel l), m)

/-- A register of a global or hub scope, which is made if needed. -/
def getReg (level : Level) (scope : ScopeId) (i : Word) : Request Word :=
  plain fun m =>
    let m := m.ensure level scope
    (((m.scopes.vars? level scope 0).map (·.reg i)).getD 0, m)

/-- Writes a register of a global or hub scope, which is made if needed. -/
def setReg (level : Level) (scope : ScopeId) (i w : Word) : Request Bool :=
  plain fun m =>
    let m := m.ensure level scope
    (true, { m with scopes := m.scopes.modifyVars level scope 0 fun v => v.setReg i w })

/-- A request about the thread of a host function after that function has returned, or about no
thread at all. -/
def onLostThread {α : Type} (s : Session) (present : Bool) (fallback : α) : α × Session :=
  let text := if present then "thread handle used outside its callback" else "null thread handle"
  (fallback, { s with machine := s.machine.log .error text })

end Session

end ScriptMachine
