import ScriptMachine.Machine.Step

/-!
# What built-in functions do not see

A built-in function has its arguments when it begins.  Of the thread that calls it, it looks at what
tells the thread from others, at its state and its message, and it changes the state, the message and
the result, and pushes words.  So a change of anything else may as well be made after the call as
before it (`callBuiltin_unseen`).
-/

namespace ScriptMachine

/-- A change of threads that leaves alone what built-in functions look at, and may as well be made
after what they do to a thread. -/
structure Thread.Unseen (φ : Thread → Thread) : Prop where
  id : ∀ t, (φ t).id = t.id
  scope : ∀ t, (φ t).scope = t.scope
  moduleIndex : ∀ t, (φ t).moduleIndex = t.moduleIndex
  state : ∀ t, (φ t).state = t.state
  info : ∀ t, (φ t).info = t.info
  printed : ∀ t, (φ t).printed = t.printed
  push : ∀ t w, φ (t.push w) = (φ t).push w
  setState : ∀ t s, φ { t with state := s } = { φ t with state := s }
  setPrinted : ∀ t b, φ { t with printed := b } = { φ t with printed := b }
  setResult : ∀ t w, φ { t with result := w } = { φ t with result := w }

namespace Machine

variable {φ : Thread → Thread} (hφ : Thread.Unseen φ) (turn : Turn) (m : Machine) (t : Thread)
include hφ

/-- Whether a thread holds a name is seen without what is hidden. -/
theorem holdsName_unseen (name : ScriptName) : m.holdsName (φ t) name = m.holdsName t name := by
  simp only [holdsName, hφ.scope, hφ.id]

/-- A start on behalf of a thread leaves what is hidden alone. -/
theorem startFrom_unseen (mode : StartMode) (name : Option ScriptName) (args : List Word) :
    m.startFrom turn (φ t) mode name args =
      (m.startFrom turn t mode name args).map fun p => (p.1, φ p.2) := by
  cases name with
  | none => simp only [startFrom, Option.map_some, hφ.push]
  | some name =>
    have hown := holdsName_unseen hφ m t name
    cases mode with
    | normal =>
      simp only [startFrom, hown, hφ.state, hφ.scope, hφ.info]
      split <;> simp only [Option.map_some, hφ.push]
    | forced =>
      simp only [startFrom, hown, ← hφ.setState]
      split <;> simp only [hφ.scope, hφ.info, Option.map_some, hφ.push]
    | result => simp only [startFrom, hφ.scope, hφ.info, Option.map_map, Function.comp_def, hφ.push]

/-- Halting a script leaves what is hidden alone. -/
theorem haltFrom_unseen (pause : Bool) (name : Option ScriptName) :
    m.haltFrom (φ t) pause name = ((m.haltFrom t pause name).1, φ (m.haltFrom t pause name).2) := by
  cases name with
  | none => simp only [haltFrom, hφ.push]
  | some name =>
    simp only [haltFrom, holdsName_unseen hφ, hφ.state, ← hφ.setState]
    simp only [hφ.scope]
    generalize (if pause = true then ThreadState.paused else .stopped) = state
    split <;> simp only [hφ.push]

/-- Printing an array leaves what is hidden alone. -/
theorem printArray_unseen (i : Word) :
    m.printArray (φ t) i = ((m.printArray t i).1, φ (m.printArray t i).2) := by
  have harr : m.scopes.module? (φ t).scope (φ t).moduleIndex =
      m.scopes.module? t.scope t.moduleIndex := by
    rw [hφ.scope, hφ.moduleIndex]
  simp only [printArray, harr, ← hφ.setPrinted, hφ.printed]
  split
  · rfl
  · split <;> rfl

/-- **A built-in function** does the same, whether the change is made before it or after it. -/
theorem callBuiltin_unseen (f : Builtin) (args : List Word) :
    m.callBuiltin turn (φ t) f args =
      (m.callBuiltin turn t f args).map fun p => (p.1, φ p.2) := by
  cases f with
  | startNumber | startName | startForcedNumber | startForcedName | startResultNumber
  | startResultName => simp only [callBuiltin, startFrom_unseen hφ]
  | stopNumber | stopName | pauseNumber | pauseName =>
    simp only [callBuiltin, haltFrom_unseen hφ, Option.map_some]
  | printArray => simp only [callBuiltin, printArray_unseen hφ, Option.map_some]
  | printEnd =>
    simp only [callBuiltin, endMessage, ← hφ.setPrinted]
    simp only [hφ.printed, hφ.info, Option.map_some]
  | checkLock =>
    simp only [callBuiltin, hφ.info]
    split <;> simp only [Option.map_some, hφ.push]
  | setResult => simp only [callBuiltin, ← hφ.setResult, Option.map_some]
  | printBegin | printString | printNumber | printChar | printFixed =>
    simp only [callBuiltin, ← hφ.setPrinted, hφ.printed, Option.map_some]
  | nop | activeNumber | random | stringLength =>
    simp only [callBuiltin, hφ.scope, Option.map_some, hφ.push]

end Machine

end ScriptMachine
