import ScriptMachine.Scope.Tree
import ScriptMachine.Settings

/-!
# The machine

A machine is everything one game session needs: the string table, the loaded modules, the scope tree
with its threads, the code table and the functions scripts can call.  It is a plain value; what it
does with the host is written to its trace, the newest event first, and what the host answers comes
from the functions in `Hooks`.
-/

namespace ScriptMachine

/-- How serious a message of the machine is. -/
inductive LogLevel where
  | error
  | warn
  | info
  | debug
  | trace
deriving DecidableEq, Inhabited

namespace LogLevel

/-- Levels by growing detail. -/
def rank : LogLevel → Nat
  | error => 1
  | warn => 2
  | info => 3
  | debug => 4
  | trace => 5

/-- The name of a level. -/
def name : LogLevel → String
  | error => "error"
  | warn => "warn"
  | info => "info"
  | debug => "debug"
  | trace => "trace"

end LogLevel

/-- What the host is told when a thread is ended by force. -/
structure KillReport where
  reason : KillReason
  data : Word
  module : ModuleName
  script : Option ScriptName
  codePtr : Word
deriving DecidableEq, Inhabited

/-- Something the host can see. -/
inductive Event where
  /-- The bytes of a module were asked for. -/
  | loadModule (name : ModuleName)
  /-- The host mapped a text to a module name. -/
  | resolveName (text : String)
  /-- The host was asked about a tag, and answered. -/
  | checkTag (type tag : Word) (released : Bool)
  /-- The host was asked about a lock, and answered. -/
  | checkLock (info : ThreadInfo) (lock door : Word) (unlocked : Bool)
  /-- A message was printed. -/
  | print (info : ThreadInfo) (text : Bytes)
  /-- The host was asked for the text of an array. -/
  | printArray (array : Sparse)
  /-- A thread was ended by force. -/
  | kill (report : KillReport)
  /-- A thread was made. -/
  | threadStart (thread : Thread)
  /-- A thread is gone. -/
  | threadStop (thread : Thread)
  /-- The host was asked which strings it holds. -/
  | references
  /-- The host was asked for what it adds to a saved state. -/
  | saveExtra
  /-- The host took back what it had added to a saved state. -/
  | loadExtra (bytes : Bytes)
  /-- The machine left a message. -/
  | log (level : LogLevel) (message : String)
  /-- A host function left a remark. -/
  | remark (text : String)
  /-- The host was told why a request failed. -/
  | failure (text : String)
deriving Inhabited

/-- The services a host may offer. -/
inductive Hook where
  | loadModule
  | resolveName
  | checkTag
  | checkLock
  | print
  | printArray
  | kill
  | threadStart
  | threadStop
  | references
  | saveExtra
  | loadExtra
deriving DecidableEq, Inhabited

/-- The services in the order diagnostics list them, with their names there. -/
def Hook.all : List (Hook × String) := [
  (.loadModule, "load_module"), (.resolveName, "resolve_module_name"), (.checkTag, "check_tag"),
  (.checkLock, "check_lock"), (.print, "print"), (.printArray, "print_array"), (.kill, "kill"),
  (.threadStart, "thread_start"), (.threadStop, "thread_stop"), (.references, "ref_strings"),
  (.saveExtra, "save_extra"), (.loadExtra, "load_extra")]

/-- What the host answers, where the service is installed. -/
structure Hooks where
  installed : List Hook := []
  /-- The bytes of a module. -/
  loadModule : ModuleName → Except ReadError Bytes := fun n => .error (.malformed (.noLoader n))
  /-- The module name for a text. -/
  resolveName : String → ModuleName := fun s => { name := s }
  /-- Whether a tag is released. -/
  checkTag : Word → Word → Bool := fun _ _ => true
  /-- Whether a lock of a door is open for a thread. -/
  checkLock : ThreadInfo → Word → Word → Bool := fun _ _ _ => true
  /-- The text of an array. -/
  printArray : Sparse → Bytes := fun _ => []
  /-- The words whose strings the host holds. -/
  references : List Word := []
  /-- What the host adds to a saved state, or why it cannot. -/
  saveExtra : Except String Bytes := .ok []
  /-- How the host takes back what it added. -/
  loadExtra : Reader Bytes := pure []

/-- Whether a service is installed. -/
def Hooks.has (h : Hooks) (k : Hook) : Bool := h.installed.contains k

/-- One game session. -/
structure Machine where
  settings : Settings
  hooks : Hooks := {}
  strings : StringTable := {}
  scopes : ScopeTree := {}
  /-- The registered modules. -/
  modules : OrdMap ModuleName LoadedModule := {}
  /-- The bytes of modules the host handed over itself. -/
  sources : OrdMap ModuleName Bytes := {}
  codeTable : CodeTable := CodeTable.standard
  /-- The built-in functions by number. -/
  builtins : OrdMap Word Builtin
  /-- The host functions, as keys by which the host knows them. -/
  hostFuncs : Array Nat := #[]
  rng : Word
  /-- Whether scripts run right now. -/
  executing : Bool := false
  /-- The number of ticks so far. -/
  tick : Nat := 0
  /-- The serial number of the next module to be loaded. -/
  nextSerial : Nat := 0
  /-- The modules of the threads that run right now, the innermost first. -/
  running : List Nat := []
  /-- The modules the host keeps a reference to. -/
  held : List Nat := []
  /-- Saved states the host keeps, by name. -/
  snapshots : OrdMap String Bytes := {}
  /-- What happened, the newest first. -/
  trace : List Event := []

namespace Machine

/-- The state of the random generator that stands for seed 0. -/
def defaultSeed : Word := 0x2545F491

/-- The built-in functions below the first host function, each under its own number. -/
def standardBuiltins (funcBase : Word) : OrdMap Word Builtin :=
  OrdMap.ofList ((Builtin.all.toList.map fun f => (f.number, f)).filter fun p => p.1 < funcBase)

/-- A new machine. -/
def make (settings : Settings) : Machine :=
  { settings, builtins := standardBuiltins settings.funcBase, rng := defaultSeed }

/-- Adds an event to the trace. -/
def emit (m : Machine) (e : Event) : Machine := { m with trace := e :: m.trace }

/-- Leaves a message. -/
def log (m : Machine) (level : LogLevel) (message : String) : Machine := m.emit (.log level message)

/-- Tells the host about an event, if it asked to be told. -/
def report (m : Machine) (k : Hook) (e : Event) : Machine := if m.hooks.has k then m.emit e else m

/-- A new machine in place of an old one: the same settings, services and functions.  What belongs
to the host stays, and so does the trace. -/
def renew (m : Machine) (settings : Settings) : Machine :=
  { make settings with
    hooks := m.hooks
    hostFuncs := m.hostFuncs
    nextSerial := m.nextSerial
    running := m.running
    held := m.held
    snapshots := m.snapshots
    trace := m.trace }

/-- Gives a host function the next number, which is answered. -/
def addHostFunc (m : Machine) (key : Nat) : Word × Machine :=
  (m.settings.funcBase + UInt32.ofNat m.hostFuncs.size,
    { m with hostFuncs := m.hostFuncs.push key })

/-- Binds a number below the first host function to a built-in function, or to none.  Answers
whether the number is below. -/
def mapBuiltin (m : Machine) (i : Word) (f : Option Builtin) : Bool × Machine :=
  if i < m.settings.funcBase then
    (true, { m with builtins := match f with
      | some f => m.builtins.insert i f
      | none => m.builtins.erase i })
  else (false, m)

/-- Makes a raw opcode an instruction; answers whether the operands are as many as it takes. -/
def addInstruction (m : Machine) (raw : Word) (op : Opcode) (kinds : List OperandKind) :
    Bool × Machine :=
  match m.codeTable.addInstruction? raw op kinds with
  | some t => (true, { m with codeTable := t })
  | none =>
    (false, m.log .warn
      s!"raw opcode {raw}: {op.name} takes {op.arity} operands, got {kinds.length}")

/-- Sets the state of the random generator. -/
def setSeed (m : Machine) (seed : Word) : Machine :=
  { m with rng := if seed = 0 then defaultSeed else seed }

/-- The next state of the random generator. -/
def nextRandom (x : Word) : Word :=
  let x := x ^^^ (x <<< 13)
  let x := x ^^^ (x >>> 17)
  x ^^^ (x <<< 5)

/-- The value between two bounds, given in either order, that a generator state stands for. -/
def pick (x : Word) (a b : Int32) : Int32 :=
  let (low, high) := if a ≤ b then (a, b) else (b, a)
  let span := (high.toInt64 - low.toInt64 + 1).toUInt64
  (low.toInt64 + (x.toUInt64 % span).toInt64).toInt32

/-- A random value between two bounds. -/
def random (m : Machine) (a b : Int32) : Int32 × Machine :=
  let x := nextRandom m.rng
  (pick x a b, { m with rng := x })

/-- Random values between two bounds, so many. -/
def randoms (a b : Int32) : (count : Nat) → Machine → List Int32 × Machine
  | 0, m => ([], m)
  | count + 1, m =>
    let (r, m) := m.random a b
    let (rs, m) := randoms a b count m
    (r :: rs, m)

/-- The text of a machine in diagnostics. -/
def display (m : Machine) : String :=
  let hooks := Hook.all.map fun (k, name) => s!"{name}: {m.hooks.has k}"
  let modules := m.modules.keys.map fun n =>
    "ModuleName \x7b " ++ s!"name: {Quoted.quote n.name}, aux: {n.aux}, num: {n.num}" ++ " \x7d"
  "Environment \x7b config: " ++ m.settings.display ++
    ", hooks: EnvHooks \x7b " ++ ", ".intercalate hooks ++ " \x7d" ++
    s!", strings: {m.strings.size}, modules: [" ++ ", ".intercalate modules ++
    s!"], funcs: {m.hostFuncs.size}, in_exec: {m.executing}" ++ " \x7d"

end Machine

end ScriptMachine
