import ScriptMachine.Name

/-!
# What can be wrong with bytes

Compiled modules and saved states come from outside, so every reader answers with a `ReadError`
where the bytes end too early, hold a number that is too large, or describe something that cannot
be.  A `Defect` names one such impossibility; its wording is in `Defect.message`.
-/

namespace ScriptMachine

/-- The range a decoded number must lie in. -/
inductive IntRange where
  | bits8
  | bits16
  | bits32
  | bits64
  | size
  | index
deriving DecidableEq, Inhabited

namespace IntRange

/-- How many bits a number of this range has. -/
def bits : IntRange → Nat
  | bits8 => 8
  | bits16 => 16
  | bits32 => 32
  | bits64 => 64
  | size => 64
  | index => 32

/-- The name of the range in messages. -/
def name : IntRange → String
  | bits8 => "u8"
  | bits16 => "u16"
  | bits32 => "u32"
  | bits64 => "u64"
  | size => "usize"
  | index => "Word"

end IntRange

/-- A description that cannot be, found in well-delimited bytes. -/
inductive Defect where
  /-- A truth value that is neither 0 nor 1. -/
  | boolByte (b : UInt8)
  /-- A saved string table whose last slot is free. -/
  | freeTail
  /-- A module name that is not UTF-8. -/
  | moduleNameText
  /-- A script name that is neither a number nor a text. -/
  | scriptNameKind (kind : Nat)
  /-- A function with more parameters than local registers. -/
  | functionParams (index : Nat) (params regs : Word)
  /-- A script named by a string the module does not have. -/
  | scriptNameString (index : Nat)
  /-- A script declared neither by number nor by name. -/
  | scriptKind (kind : Nat)
  /-- A script with more arguments than local registers. -/
  | scriptArgs (name : ScriptName) (args regs : Word)
  /-- Bytes after the end of a module. -/
  | trailingBytes
  /-- An operand naming a string the module does not have. -/
  | stringRange (value : Word) (offset : Nat)
  /-- An operand naming a function the module does not have. -/
  | functionRange (value : Word) (offset : Nat)
  /-- An opcode that is not in the code table. -/
  | unknownOpcode (opcode : Word) (offset : Nat)
  /-- A jump target or entry point inside an instruction. -/
  | notBoundary (offset : Nat)
  /-- A label that was used and never given a place. -/
  | unboundLabel (label : Nat)
  /-- A module that cannot be fetched, because nobody was asked to. -/
  | noLoader (module : ModuleName)
  /-- A saved map that names a module the state does not list. -/
  | moduleIndex (index : Nat)
  /-- A saved script slot that names a script its module does not have. -/
  | slotRange (name : ScriptName)
  /-- A saved thread that runs a script its module does not have. -/
  | threadScript (thread : Word) (script : Nat)
  /-- A saved thread whose current frame begins past its locals. -/
  | threadBase (thread : Word)
  /-- A saved thread in an unknown state. -/
  | threadState (kind : Nat)
  /-- Whatever the host found wrong. -/
  | host (text : String)
deriving DecidableEq, Inhabited

/-- The wording of a defect. -/
def Defect.message : Defect → String
  | boolByte b => s!"invalid bool byte 0x{byteHex b}"
  | freeTail => "string table ends with a free slot"
  | moduleNameText => "module name is not UTF-8"
  | scriptNameKind k => s!"invalid script name kind {k}"
  | functionParams i p r => s!"function {i} takes {p} params but has {r} local registers"
  | scriptNameString i => s!"script name string {i} out of range"
  | scriptKind k => s!"invalid script kind {k}"
  | scriptArgs name a r => s!"script {name.display} takes {a} args but has {r} local registers"
  | trailingBytes => "trailing bytes after code block"
  | stringRange v pos => s!"string {v} out of range at offset {pos}"
  | functionRange v pos => s!"function {v} out of range at offset {pos}"
  | unknownOpcode op pos => s!"unknown opcode {op} at offset {pos}"
  | notBoundary o => s!"offset {o} is not an instruction boundary"
  | unboundLabel n => s!"label {n} is never bound"
  | noLoader m => s!"no loader for module {m.display}"
  | moduleIndex i => s!"module index {i} out of range"
  | slotRange name => s!"script slot {name.display} out of range"
  | threadScript t s => s!"thread {t} runs unknown script {s}"
  | threadBase t => s!"thread {t} frame base out of range"
  | threadState k => s!"invalid thread state {k}"
  | host text => text

/-- Why bytes could not be read. -/
inductive ReadError where
  /-- The bytes end inside a value. -/
  | endOfStream
  /-- A number does not fit its range. -/
  | overflow (range : IntRange)
  /-- The four bytes at the start are not the expected ones. -/
  | badSignature (expected found : Bytes)
  /-- A format version this machine does not read. -/
  | version (found : Word)
  /-- The bytes describe something that cannot be. -/
  | malformed (defect : Defect)
  /-- The device the bytes come from failed. -/
  | device (text : String)
deriving DecidableEq, Inhabited

/-- Bytes as a bracketed list of decimal numbers. -/
def byteList (bytes : Bytes) : String :=
  "[" ++ ", ".intercalate (bytes.map fun b => toString b.toNat) ++ "]"

/-- The wording of a read error. -/
def ReadError.message : ReadError → String
  | endOfStream => "unexpected end of stream"
  | overflow r => s!"decoded value overflows {r.name}"
  | badSignature e f => s!"bad signature: expected {byteList e}, found {byteList f}"
  | version v => s!"unsupported format version {v}"
  | malformed d => s!"malformed data: {d.message}"
  | device text => s!"io error: {text}"

/-- Why a request of the host failed.  Faults of scripts are not errors: they end the thread. -/
inductive Error where
  /-- Bytes could not be read. -/
  | read (e : ReadError)
  /-- A device could not be written. -/
  | device (text : String)
  /-- The request is not allowed while scripts run. -/
  | busy
deriving DecidableEq, Inhabited

/-- The wording of an error. -/
def Error.message : Error → String
  | read e => e.message
  | device text => text
  | busy => "environment is busy executing scripts"

end ScriptMachine
