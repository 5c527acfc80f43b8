import ScriptMachine.Code.Opcode
import ScriptMachine.Name
import ScriptMachine.StringTable.Collect

/-!
# Modules

A module is a compiled unit made ready to run: its code is in words of the machine, its jumps and
entry points are places in that code, and its string constants are indices of the string table.
-/

namespace ScriptMachine

/-- What the host starts by name. -/
structure Script where
  name : ScriptName
  /-- The event the script answers to. -/
  type : Word
  flags : Word
  /-- How many start arguments reach the first local registers. -/
  argCount : Word
  regCount : Word
  arrCount : Word
  /-- Where the script begins. -/
  entry : Word
deriving DecidableEq, Inhabited

namespace Script

/-- The event of scripts that start with their map. -/
def openType : Word := 1

/-- The flag of scripts that may run several times at once. -/
def multiFlag : Word := 4

/-- Whether several instances may run at once. -/
def multi (s : Script) : Bool := s.flags &&& multiFlag == multiFlag

end Script

/-- What a script calls within its module. -/
structure Function where
  paramCount : Word
  regCount : Word
  arrCount : Word
  /-- Where the function begins. -/
  entry : Word
deriving DecidableEq, Inhabited

/-- A unit that is ready to run. -/
structure Module where
  name : ModuleName
  regCount : Word
  arrCount : Word
  /-- The table indices of the string constants, in the module's order. -/
  strings : List Word
  functions : Array Function
  scripts : Array Script
  code : Array Word
deriving DecidableEq, Inhabited

namespace Module

/-- The first script with a name, and its number. -/
def findScript? (m : Module) (name : ScriptName) : Option (Nat × Script) :=
  let i := m.scripts.toList.findIdx (·.name == name)
  (m.scripts[i]?).map fun s => (i, s)

/-- Gives back the locks the module holds on its string constants. -/
def releaseStrings (m : Module) (t : StringTable) : StringTable := t.unlockAll m.strings

end Module

/-- A module that was loaded, told apart from every other by a serial number.  Two loads of the same
bytes are two modules. -/
structure LoadedModule extends Module where
  serial : Nat
deriving DecidableEq, Inhabited

end ScriptMachine
