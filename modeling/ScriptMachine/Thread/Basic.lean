import ScriptMachine.Module.Basic
import ScriptMachine.Sparse
import ScriptMachine.Text.Quoted

/-!
# Threads

A thread is one running instance of a script.  It carries its operand stack, its call frames and the
locals of all of them, laid out one frame after another; the current frame begins at the two bases.
Popping an empty stack gives 0.
-/

namespace ScriptMachine

/-- The address of a map scope. -/
structure ScopeId where
  global : Word := 0
  hub : Word := 0
  map : Word := 0
deriving DecidableEq, Inhabited

/-- The text of an address in diagnostics. -/
def ScopeId.display (s : ScopeId) : String :=
  "ScopeId \x7b " ++ s!"global: {s.global}, hub: {s.hub}, map: {s.map}" ++ " \x7d"

/-- What the host attaches to a thread; threads it starts inherit it. -/
structure ThreadInfo where
  activator : Word := 0
  line : Word := 0
  side : Word := 0
deriving DecidableEq, Inhabited

/-- What a thread is doing between turns. -/
inductive ThreadState where
  | inactive
  | running
  /-- Ended; the scheduler removes the thread when it meets it. -/
  | stopped
  | paused
  /-- Waits until no numbered script of this name runs. -/
  | waitNumber (n : Int32)
  /-- Waits until no named script of this name runs. -/
  | waitName (s : String)
  /-- Waits until the host releases a tag. -/
  | waitTag (type tag : Word)
deriving DecidableEq, Inhabited

namespace ThreadState

/-- Whether the thread never runs again. -/
def isFinished : ThreadState → Bool
  | stopped => true
  | inactive => true
  | _ => false

/-- The text of a state in diagnostics. -/
def display : ThreadState → String
  | inactive => "Inactive"
  | running => "Running"
  | stopped => "Stopped"
  | paused => "Paused"
  | waitNumber n => "WaitScrI(" ++ decimal n ++ ")"
  | waitName s => "WaitScrS(" ++ Quoted.quote s ++ ")"
  | waitTag type tag => "WaitTag \x7b " ++ s!"ty: {type}, tag: {tag}" ++ " \x7d"

end ThreadState

/-- What a call has to put back when it returns. -/
structure Frame where
  /-- Where the caller goes on. -/
  ret : Nat
  regBase : Nat
  arrBase : Nat
  /-- Whether the caller ignores the result. -/
  discard : Bool
  func : Word
deriving DecidableEq, Inhabited

/-- A running instance of a script. -/
structure Thread where
  id : Word
  /-- The module the thread runs; a place holder has none. -/
  module : Option LoadedModule := none
  scope : ScopeId := {}
  /-- The number of the thread's module scope in its map. -/
  moduleIndex : Nat := 0
  /-- The number of the thread's script in its module. -/
  scriptIndex : Nat := 0
  codePtr : Nat := 0
  /-- The operand stack, its top first. -/
  stack : List Word := []
  /-- The calls under way, the innermost first. -/
  frames : List Frame := []
  /-- The registers of all frames, the outermost first. -/
  regs : Array Word := #[]
  /-- The arrays of all frames, the outermost first. -/
  arrs : Array Sparse := #[]
  regBase : Nat := 0
  arrBase : Nat := 0
  result : Word := 0
  /-- How many ticks the thread still sleeps. -/
  delay : Word := 0
  state : ThreadState := .running
  info : ThreadInfo := {}
  /-- What was printed since the last message ended. -/
  printed : Array UInt8 := #[]
  /-- The start arguments, for starting over. -/
  args : List Word := []
  /-- The tick of the thread's last turn. -/
  lastTick : Nat := 0
deriving DecidableEq, Inhabited

namespace Thread

/-- What stands in a thread's place while the thread runs. -/
def placeholder (id : Word) : Thread := { id }

/-- Whether a thread stands in for one that runs. -/
def isPlaceholder (t : Thread) : Bool := t.module.isNone

/-- The script a thread runs. -/
def script? (t : Thread) : Option Script := t.module.bind fun m => m.scripts[t.scriptIndex]?

/-- The name of the script a thread runs. -/
def scriptName? (t : Thread) : Option ScriptName := t.script?.map (·.name)

/-- Puts the locals and the code pointer where a script begins. -/
def reset (t : Thread) (s : Script) : Thread :=
  let size := s.regCount.toNat
  { t with
    stack := []
    frames := []
    regBase := 0
    arrBase := 0
    regs := (t.args.take size ++ List.replicate (size - t.args.length) 0).toArray
    arrs := Array.replicate s.arrCount.toNat {}
    codePtr := s.entry.toNat }

/-- A new thread at the start of a script.  Arguments beyond those the script takes are dropped. -/
def make? (id : Word) (module : LoadedModule) (scope : ScopeId) (moduleIndex scriptIndex : Nat)
    (args : List Word) (info : ThreadInfo) : Option Thread :=
  (module.scripts[scriptIndex]?).map fun s =>
    ({ id, module := some module, scope, moduleIndex, scriptIndex, info
       args := args.take s.argCount.toNat } : Thread).reset s

/-- Pushes a word. -/
def push (t : Thread) (w : Word) : Thread := { t with stack := w :: t.stack }

/-- The word on top of the stack, and the thread without it. -/
def pop (t : Thread) : Word × Thread :=
  match t.stack with
  | [] => (0, t)
  | w :: rest => (w, { t with stack := rest })

/-- The registers of the current frame. -/
def frameRegs (t : Thread) : List Word := t.regs.toList.drop t.regBase

/-- The words a collection of strings takes for references. -/
def references (t : Thread) : List Word :=
  t.stack ++ t.regs.toList ++ t.args ++ t.result :: t.arrs.toList.flatMap Sparse.references

end Thread

end ScriptMachine
