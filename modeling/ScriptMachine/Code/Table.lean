import ScriptMachine.Code.Builtin
import ScriptMachine.Code.Opcode
import ScriptMachine.OrdMap

/-!
# The code table

A compiled module uses raw opcodes.  The code table gives each of them a meaning: an instruction of
the machine, with a reading of its operands, or a call of a function with some of its arguments
supplied.  The host may change the table; modules loaded before keep the meaning they were loaded
with.
-/

namespace ScriptMachine

/-- A raw opcode that stands for a function call.  The function gets `stack` words from the stack,
then `inline` operands of the instruction, then the `implicit` words. -/
structure Redirect where
  func : Word
  stack : Word := 0
  inline : Word := 0
  implicit : List Word := []
deriving DecidableEq, Inhabited

/-- How many arguments the function gets. -/
def Redirect.argCount (r : Redirect) : Word :=
  r.stack + r.inline + UInt32.ofNat r.implicit.length

/-- The meaning of a raw opcode. -/
inductive CodeEntry where
  | instruction (op : Opcode) (kinds : List OperandKind)
  | redirect (r : Redirect)
deriving DecidableEq, Inhabited

/-- The meanings of raw opcodes. -/
structure CodeTable where
  entries : OrdMap Word CodeEntry := {}
deriving DecidableEq, Inhabited

namespace CodeTable

/-- The meaning of a raw opcode. -/
def find? (t : CodeTable) (raw : Word) : Option CodeEntry := t.entries.find? raw

/-- Gives a raw opcode a meaning. -/
def insert (t : CodeTable) (raw : Word) (e : CodeEntry) : CodeTable := ⟨t.entries.insert raw e⟩

/-- Makes a raw opcode an instruction; none if the operands are not as many as the instruction
takes. -/
def addInstruction? (t : CodeTable) (raw : Word) (op : Opcode) (kinds : List OperandKind) :
    Option CodeTable :=
  if kinds.length = op.arity then some (t.insert raw (.instruction op kinds)) else none

/-- Makes a raw opcode a function call. -/
def addRedirect (t : CodeTable) (raw : Word) (r : Redirect) : CodeTable :=
  t.insert raw (.redirect r)

/-- Takes the meaning of a raw opcode away. -/
def erase (t : CodeTable) (raw : Word) : CodeTable := ⟨t.entries.erase raw⟩

/-- The number of raw opcodes with a meaning. -/
def size (t : CodeTable) : Nat := t.entries.size

/-- The raw opcode that pushes a string constant. -/
def pushString : Word := 100

/-- The raw opcodes that call built-in functions, with the number of words each takes from the
stack. -/
def builtinCalls : List (Word × Builtin × Word) := [
  (128, .printBegin, 0), (129, .printString, 1), (130, .printNumber, 1), (131, .printChar, 1),
  (132, .printFixed, 1), (133, .printEnd, 0), (134, .printArray, 1), (135, .stopNumber, 1),
  (136, .pauseNumber, 1), (137, .random, 2), (139, .stringLength, 1), (140, .setResult, 1),
  (141, .activeNumber, 1), (142, .checkLock, 2)]

/-- The raw opcode that calls `random` with two operands of the instruction. -/
def randomLit : Word := 138

/-- The table every machine starts with: each instruction under its own number, string constants,
and calls of built-in functions. -/
def standard : CodeTable :=
  let t := Opcode.all.foldl
    (fun t op => t.insert op.number (.instruction op op.operands)) ({} : CodeTable)
  let t := t.insert pushString (.instruction .pushLit [.string])
  let t := builtinCalls.foldl
    (fun t (raw, f, stack) => t.addRedirect raw { func := f.number, stack }) t
  t.addRedirect randomLit { func := Builtin.random.number, inline := 2 }

end CodeTable

end ScriptMachine
