import ScriptMachine.Code.Table
import ScriptMachine.Module.Bytecode

/-!
# Assembling units

An assembler collects string constants, functions, scripts and raw code, and finishes as the bytes
of a unit.  Jumps name labels; the operand of a jump takes a fixed number of bytes, so the place of
every instruction is known before the labels are.
-/

namespace ScriptMachine

namespace Script

/-- A script of no event, without flags, arguments and locals, that begins at the start. -/
def declare (name : ScriptName) : Script :=
  { name, type := 0, flags := 0, argCount := 0, regCount := 0, arrCount := 0, entry := 0 }

/-- The script with so many arguments, and registers for them. -/
def withArgs (s : Script) (n : Word) : Script :=
  { s with argCount := n, regCount := max s.regCount n }

/-- The script with so many registers, at least one for each argument. -/
def withRegs (s : Script) (n : Word) : Script := { s with regCount := max n s.argCount }

end Script

/-- A label of an assembler. -/
abbrev Label := Nat

namespace Assembler

/-- A stretch of raw code. -/
inductive Piece where
  | bytes (b : Bytes)
  /-- The operand of a jump. -/
  | target (l : Label)
deriving DecidableEq

/-- How many bytes the operand of a jump takes. -/
def labelWidth : Nat := 5

/-- A function; its entry is a label. -/
structure FunctionDecl where
  paramCount : Word
  regCount : Word
  arrCount : Word
  entry : Label
deriving DecidableEq, Inhabited

end Assembler

/-- A unit in the making. -/
structure Assembler where
  regCount : Word := 0
  arrCount : Word := 0
  strings : Array Bytes := #[]
  functions : Array Assembler.FunctionDecl := #[]
  scripts : Array Script := #[]
  pieces : Array Assembler.Piece := #[]
  /-- The length of the code so far. -/
  length : Nat := 0
  /-- The place of each label, once it has one. -/
  labels : Array (Option Nat) := #[]
deriving DecidableEq, Inhabited

namespace Assembler

/-- Sets how many registers and arrays a module scope has. -/
def moduleVars (a : Assembler) (regs arrs : Word) : Assembler :=
  { a with regCount := regs, arrCount := arrs }

/-- The number of a string constant, which is added if it is not there. -/
def string (a : Assembler) (s : Bytes) : Word × Assembler :=
  match a.strings.findIdx? (· == s) with
  | some i => (UInt32.ofNat i, a)
  | none => (UInt32.ofNat a.strings.size, { a with strings := a.strings.push s })

/-- Begins a script here.  A text that names it becomes a string constant. -/
def script (a : Assembler) (s : Script) : Assembler :=
  let a := match s.name with
    | .number _ => a
    | .text t => (a.string (Utf8.encode t)).2
  { a with scripts := a.scripts.push { s with entry := UInt32.ofNat a.length } }

/-- A new label, without a place. -/
def newLabel (a : Assembler) : Label × Assembler :=
  (a.labels.size, { a with labels := a.labels.push none })

/-- Puts a label here. -/
def bind (a : Assembler) (l : Label) : Assembler :=
  { a with labels := a.labels.setIfInBounds l (some a.length) }

/-- The number of a new function, whose body begins where `beginFunction` puts it. -/
def declareFunction (a : Assembler) (params regs arrs : Word) : Word × Assembler :=
  let (entry, a) := a.newLabel
  (UInt32.ofNat a.functions.size,
    { a with
      functions := a.functions.push
        { paramCount := params, regCount := max regs params, arrCount := arrs, entry } })

/-- Begins the body of a function here. -/
def beginFunction (a : Assembler) (f : Word) : Assembler :=
  match a.functions[f.toNat]? with
  | some d => a.bind d.entry
  | none => a

/-- Adds bytes to the code. -/
def emit (a : Assembler) (b : Bytes) : Assembler :=
  { a with pieces := a.pieces.push (.bytes b), length := a.length + b.length }

/-- Adds a raw instruction. -/
def raw (a : Assembler) (op : Word) (operands : List Word) : Assembler :=
  a.emit ((op :: operands).flatMap Varint.writeWord)

/-- Adds an instruction. -/
def op (a : Assembler) (o : Opcode) (operands : List Word) : Assembler := a.raw o.number operands

/-- Adds a jump: literal operands, then the label. -/
def jump (a : Assembler) (o : Opcode) (literals : List Word) (l : Label) : Assembler :=
  let a := a.op o literals
  { a with pieces := a.pieces.push (.target l), length := a.length + labelWidth }

/-- Adds an instruction that pushes a string constant. -/
def pushString (a : Assembler) (s : Bytes) : Assembler :=
  let (i, a) := a.string s
  a.raw CodeTable.pushString [i]

/-- The place of a label. -/
def offset (a : Assembler) (l : Label) : Except ReadError Nat :=
  match (a.labels[l]?).join with
  | some n => .ok n
  | none => .error (.malformed (.unboundLabel l))

/-- The bytes of a piece. -/
def pieceBytes (a : Assembler) : Piece → Except ReadError Bytes
  | .bytes b => .ok b
  | .target l => do
    let n ← a.offset l
    match Varint.writePadded n labelWidth with
    | .ok b => .ok b
    | .error u => .error (.device u.message)

/-- The unit: the code is settled first, then the functions. -/
def unit (a : Assembler) : Except ReadError Bytecode := do
  let code ← a.pieces.toList.mapM a.pieceBytes
  let functions ← a.functions.toList.mapM fun d => do
    pure { paramCount := d.paramCount, regCount := d.regCount, arrCount := d.arrCount,
           entry := UInt32.ofNat (← a.offset d.entry) : Function }
  pure {
    regCount := a.regCount
    arrCount := a.arrCount
    strings := a.strings.toList
    functions
    scripts := a.scripts.toList
    code := code.flatten }

/-- The bytes of the unit. -/
def finish (a : Assembler) : Except ReadError Bytes := a.unit.map Bytecode.write

end Assembler

end ScriptMachine
