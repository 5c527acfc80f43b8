import ScriptMachine.Module.Decoded
import ScriptMachine.Text.Json

/-!
# Settings

What the host chooses when it makes a machine.  Settings can be read from a JSON document, in which
fields that are missing have their usual values.
-/

namespace ScriptMachine

/-- The settings of a machine. -/
structure Settings where
  /-- How many instructions a thread may run in one turn; 0 sets no limit. -/
  branchLimit : Word := 65536
  /-- The registers of every global and hub scope. -/
  scopeRegCount : Word := 256
  /-- The arrays of every global and hub scope. -/
  scopeArrCount : Word := 256
  /-- The number of the first host function; smaller numbers are built-in functions. -/
  funcBase : Word := 256
  unknownCode : UnknownPolicy := .trap
  /-- Whether a module's scripts of the opening event start when it is added to a map. -/
  startOpenOnAdd : Bool := false
deriving DecidableEq, Inhabited

/-- The text of settings in diagnostics. -/
def Settings.display (s : Settings) : String :=
  let policy := match s.unknownCode with
    | .trap => "Trap"
    | .error => "Error"
  "VmConfig \x7b " ++ s!"branch_limit: {s.branchLimit}, scope_reg_count: {s.scopeRegCount}, " ++
    s!"scope_arr_count: {s.scopeArrCount}, func_base: {s.funcBase}, unknown_code: {policy}, " ++
    s!"start_open_on_add: {s.startOpenOnAdd}" ++ " \x7d"

/-- A field of a document: its usual value where it is missing, and nothing where it cannot be
read. -/
def fieldOr {α : Type} (usual : α) (read : JsonValue → Option α) : Option JsonValue → Option α
  | none => some usual
  | some v => read v

/-- What a name says about raw opcodes without a meaning. -/
def UnknownPolicy.ofName? : String → Option UnknownPolicy
  | "trap" => some .trap
  | "error" => some .error
  | _ => none

/-- The settings in a document. -/
def Settings.ofJson? (v : JsonValue) : Option Settings := do
  let usual : Settings := {}
  let fields ← v.fields? ["branch_limit", "scope_reg_count", "scope_arr_count", "func_base",
    "unknown_code", "start_open_on_add"]
  match fields with
  | [limit, regs, arrs, base, policy, start] =>
    return {
      branchLimit := ← fieldOr usual.branchLimit JsonValue.word? limit
      scopeRegCount := ← fieldOr usual.scopeRegCount JsonValue.word? regs
      scopeArrCount := ← fieldOr usual.scopeArrCount JsonValue.word? arrs
      funcBase := ← fieldOr usual.funcBase JsonValue.word? base
      unknownCode := ← fieldOr usual.unknownCode (·.choice?.bind UnknownPolicy.ofName?) policy
      startOpenOnAdd := ← fieldOr usual.startOpenOnAdd JsonValue.bool? start }
  | _ => none

end ScriptMachine
