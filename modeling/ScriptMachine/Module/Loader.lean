import ScriptMachine.Module.Decoded

/-!
# Loading modules

A unit is checked and decoded as a whole before any string is added to the table, so a load that
fails leaves the table as it was.  A loaded module holds a lock on each of its string constants.
-/

namespace ScriptMachine.Module

/-- A unit whose jumps and entry points have their places, waiting for its strings. -/
structure Located where
  unit : Bytecode
  cells : List Cell
deriving DecidableEq

/-- Decodes a unit and finds the places of its jumps, then of its functions, then of its scripts. -/
def locate (unit : Bytecode) (table : CodeTable) (policy : UnknownPolicy) :
    Except ReadError Located := do
  match unit.decode table policy with
  | (_, some e) => throw e
  | (decoded, none) =>
    let places := Places.ofDecoded unit.code.length 0 decoded
    let cells ← (decoded.flatMap (·.cells)).mapM (Cell.locate places)
    let functions ← unit.functions.mapM fun f => do
      return { f with entry := ← places.resolve f.entry.toNat }
    let scripts ← unit.scripts.mapM fun s => do
      return { s with entry := ← places.resolve s.entry.toNat }
    pure { unit := { unit with functions, scripts }, cells }

/-- Adds the string constants to the table and fills them in. -/
def link (name : ModuleName) (l : Located) (t : StringTable) : Module × StringTable :=
  let (strings, t) := t.internLocked l.unit.strings
  ({ name
     regCount := l.unit.regCount
     arrCount := l.unit.arrCount
     strings
     functions := l.unit.functions.toArray
     scripts := l.unit.scripts.toArray
     code := (l.cells.map (Cell.link strings)).toArray }, t)

/-- Loads a module from its bytes. -/
def load (name : ModuleName) (data : Bytes) (table : CodeTable) (policy : UnknownPolicy)
    (t : StringTable) : Except ReadError (Module × StringTable) := do
  let unit ← Bytecode.parse data
  let located ← locate unit table policy
  pure (link name located t)

/-- The raw opcodes that loading replaces by traps, with their offsets; also those met before a
failure. -/
def trapped (data : Bytes) (table : CodeTable) (policy : UnknownPolicy) : List (Word × Nat) :=
  match Bytecode.parse data with
  | .error _ => []
  | .ok unit =>
    (unit.decode table policy).1.filterMap fun d => d.trapped.map fun raw => (raw, d.offset)

end ScriptMachine.Module
