import ScriptMachine.Codec.Varint
import ScriptMachine.Module.Basic
import ScriptMachine.Text.Utf8

/-!
# Compiled units

The bytes of a compiled unit: four signature bytes and a version, the register and array counts, the
string constants, the functions, the scripts, and the raw code.  Entry points are byte offsets into
the raw code here; loading turns them into places in the machine code.  `Bytecode.parse` accepts
exactly the bytes of one unit.
-/

namespace ScriptMachine

/-- A compiled unit as it is stored. -/
structure Bytecode where
  regCount : Word
  arrCount : Word
  strings : List Bytes
  functions : List Function
  scripts : List Script
  code : Bytes
deriving DecidableEq, Inhabited

namespace Bytecode

/-- The first bytes of every unit. -/
def signature : Bytes := [0x41, 0x43, 0x53, 0x56]

/-- The version of the format. -/
def version : Word := 1

/-- Reads the function with number `i`. -/
def readFunction (i : Nat) : Reader Function := do
  let f : Function := {
    paramCount := ← Varint.readWord
    regCount := ← Varint.readWord
    arrCount := ← Varint.readWord
    entry := ← Varint.readWord }
  if f.regCount < f.paramCount then
    Reader.malformed (.functionParams i f.paramCount f.regCount)
  pure f

/-- Reads the name of a script: a number, or one of the string constants. -/
def readScriptName (strings : List Bytes) : Reader ScriptName := do
  match ← Varint.read .bits8 with
  | 0 => return .number (← Varint.readSigned)
  | 1 =>
    let i ← Varint.readSize
    match strings[i]? with
    | some bytes => return .text (Utf8.lossy bytes)
    | none => Reader.malformed (.scriptNameString i)
  | k => Reader.malformed (.scriptKind k)

/-- Reads a script. -/
def readScript (strings : List Bytes) : Reader Script := do
  let name ← readScriptName strings
  let s : Script := {
    name
    type := ← Varint.readWord
    flags := ← Varint.readWord
    argCount := ← Varint.readWord
    regCount := ← Varint.readWord
    arrCount := ← Varint.readWord
    entry := ← Varint.readWord }
  if s.regCount < s.argCount then Reader.malformed (.scriptArgs s.name s.argCount s.regCount)
  pure s

/-- Reads a unit from the front of the bytes. -/
def read : Reader Bytecode := do
  Reader.signature signature
  let found ← Reader.word32
  if found ≠ version then throw (.version found)
  let regCount ← Varint.readWord
  let arrCount ← Varint.readWord
  let strings ← Reader.list Reader.string
  let functions ← Reader.listFrom readFunction
  let scripts ← Reader.list (readScript strings)
  let code ← Reader.string
  pure { regCount, arrCount, strings, functions, scripts, code }

/-- The unit these bytes are, to the last one. -/
def parse (data : Bytes) : Except ReadError Bytecode := do
  let (unit, rest) ← read data
  if rest.isEmpty then pure unit else throw (.malformed .trailingBytes)

/-- Writes a function. -/
def writeFunction (f : Function) : Bytes :=
  Varint.writeWord f.paramCount ++ Varint.writeWord f.regCount ++ Varint.writeWord f.arrCount ++
    Varint.writeWord f.entry

/-- Writes the name of a script, a text as the number of the string constant it is. -/
def writeScriptName (strings : List Bytes) : ScriptName → Bytes
  | .number n => Varint.write 0 ++ Varint.writeSigned n
  | .text s => Varint.write 1 ++ Varint.write (strings.findIdx (· == Utf8.encode s))

/-- Writes a script. -/
def writeScript (strings : List Bytes) (s : Script) : Bytes :=
  writeScriptName strings s.name ++ Varint.writeWord s.type ++ Varint.writeWord s.flags ++
    Varint.writeWord s.argCount ++ Varint.writeWord s.regCount ++ Varint.writeWord s.arrCount ++
    Varint.writeWord s.entry

/-- The bytes of a unit. -/
def write (b : Bytecode) : Bytes :=
  signature ++ Writer.word32 version ++ Varint.writeWord b.regCount ++
    Varint.writeWord b.arrCount ++ Writer.list Writer.string b.strings ++
    Writer.list writeFunction b.functions ++ Writer.list (writeScript b.strings) b.scripts ++
    Writer.string b.code

end Bytecode

end ScriptMachine
