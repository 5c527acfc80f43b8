import ScriptMachine.Word

/-!
# Built-in functions

The functions a script can call without help from the host, in the order of their numbers.  Names
that end in `Number` take a script by its number, those that end in `Name` by a string.
-/

namespace ScriptMachine

/-- A function of the machine itself. -/
inductive Builtin where
  | nop
  | printBegin
  | printString
  | printNumber
  | printChar
  | printFixed
  | printEnd
  | printArray
  | startNumber
  | startName
  | startForcedNumber
  | startForcedName
  | startResultNumber
  | startResultName
  | stopNumber
  | stopName
  | pauseNumber
  | pauseName
  | activeNumber
  | setResult
  | random
  | stringLength
  | checkLock
deriving DecidableEq, Inhabited

namespace Builtin

/-- The functions in the order of their numbers. -/
def all : Array Builtin := #[
  .nop, .printBegin, .printString, .printNumber, .printChar, .printFixed, .printEnd, .printArray,
  .startNumber, .startName, .startForcedNumber, .startForcedName, .startResultNumber,
  .startResultName, .stopNumber, .stopName, .pauseNumber, .pauseName, .activeNumber, .setResult,
  .random, .stringLength, .checkLock]

/-- The function with a number. -/
def ofWord? (w : Word) : Option Builtin := all[w.toNat]?

/-- The number of a function. -/
def number : Builtin → Word
  | nop => 0
  | printBegin => 1
  | printString => 2
  | printNumber => 3
  | printChar => 4
  | printFixed => 5
  | printEnd => 6
  | printArray => 7
  | startNumber => 8
  | startName => 9
  | startForcedNumber => 10
  | startForcedName => 11
  | startResultNumber => 12
  | startResultName => 13
  | stopNumber => 14
  | stopName => 15
  | pauseNumber => 16
  | pauseName => 17
  | activeNumber => 18
  | setResult => 19
  | random => 20
  | stringLength => 21
  | checkLock => 22

/-- Every function is found under its number. -/
@[simp] theorem ofWord?_number (f : Builtin) : ofWord? f.number = some f := by
  cases f <;> rfl

/-- The name of a function. -/
def name : Builtin → String
  | nop => "Nop"
  | printBegin => "PrintBegin"
  | printString => "PrintString"
  | printNumber => "PrintNumber"
  | printChar => "PrintChar"
  | printFixed => "PrintFixed"
  | printEnd => "PrintEnd"
  | printArray => "PrintModArray"
  | startNumber => "ScrStartI"
  | startName => "ScrStartS"
  | startForcedNumber => "ScrStartForcedI"
  | startForcedName => "ScrStartForcedS"
  | startResultNumber => "ScrStartResultI"
  | startResultName => "ScrStartResultS"
  | stopNumber => "ScrStopI"
  | stopName => "ScrStopS"
  | pauseNumber => "ScrPauseI"
  | pauseName => "ScrPauseS"
  | activeNumber => "ScrActiveI"
  | setResult => "SetResultValue"
  | random => "Random"
  | stringLength => "StrLen"
  | checkLock => "CheckLock"

end Builtin

end ScriptMachine
