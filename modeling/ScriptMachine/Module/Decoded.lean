import ScriptMachine.Code.Table
import ScriptMachine.Module.Bytecode

/-!
# From raw code to machine code

Raw code is decoded instruction by instruction through the code table.  A decoded instruction keeps
its byte offset and is a list of cells, some of which stand for things that are only known later:
the place a byte offset ends up at, and the table index of a string constant.  Linking fills these
in.  Byte offsets that are not the start of an instruction, nor the end of the code, have no place.
-/

namespace ScriptMachine

/-- What the loader does with a raw opcode that has no meaning. -/
inductive UnknownPolicy where
  /-- Puts an instruction there that ends the thread. -/
  | trap
  /-- Refuses the module. -/
  | error
deriving DecidableEq, Inhabited

/-- A word of code, or what will become one. -/
inductive Cell where
  | word (w : Word)
  /-- The place of the instruction at a byte offset. -/
  | place (offset : Nat)
  /-- The table index of a string constant. -/
  | constant (index : Nat)
deriving DecidableEq

/-- A raw instruction with its meaning. -/
structure Decoded where
  /-- Where the raw instruction begins. -/
  offset : Nat
  cells : List Cell
  /-- The raw opcode, if it has no meaning and was replaced by a trap. -/
  trapped : Option Word := none
deriving DecidableEq

namespace Decoded

/-- What operands are checked against. -/
structure Limits where
  strings : Nat
  functions : Nat

/-- Reads an operand of the instruction at `offset`. -/
def readOperand (limits : Limits) (offset : Nat) (kind : OperandKind) : Reader Cell := do
  let v ← Varint.readWord
  match kind with
  | .literal => pure (.word v)
  | .target => pure (.place v.toNat)
  | .string =>
    if limits.strings ≤ v.toNat then Reader.malformed (.stringRange v offset)
    else pure (.constant v.toNat)
  | .function =>
    if limits.functions ≤ v.toNat then Reader.malformed (.functionRange v offset)
    else pure (.word v)

/-- Reads operands one after another. -/
def readOperands (limits : Limits) (offset : Nat) : List OperandKind → Reader (List Cell)
  | [] => pure []
  | kind :: kinds => do
    let cell ← readOperand limits offset kind
    let cells ← readOperands limits offset kinds
    pure (cell :: cells)

/-- The cells that push a word. -/
def push (w : Word) : List Cell := [.word Opcode.pushLit.number, .word w]

/-- The cells of a function call with these operands of the instruction. -/
def callCells (r : Redirect) (operands : List Word) : List Cell :=
  operands.flatMap push ++ r.implicit.flatMap push ++
    [.word Opcode.callFunc.number, .word r.argCount, .word r.func]

/-- The cells that end a thread because of a raw opcode. -/
def trapCells (raw : Word) : List Cell :=
  [.word Opcode.kill.number, .word KillReason.unknownCode.number, .word raw]

/-- Reads the instruction at `offset`. -/
def read (table : CodeTable) (policy : UnknownPolicy) (limits : Limits) (offset : Nat) :
    Reader Decoded := do
  let raw ← Varint.readWord
  match table.find? raw with
  | some (.instruction op kinds) =>
    let cells ← readOperands limits offset kinds
    pure { offset, cells := .word op.number :: cells }
  | some (.redirect r) =>
    let operands ← Reader.times Varint.readWord r.inline.toNat
    pure { offset, cells := callCells r operands }
  | none =>
    match policy with
    | .trap => pure { offset, cells := trapCells raw, trapped := some raw }
    | .error => Reader.malformed (.unknownOpcode raw offset)

/-- Decodes the rest of the raw code, which begins at `offset`.  Where it fails, the instructions
before the failure are answered with it.  Every instruction takes a byte, so as many steps as there
are bytes are enough. -/
def readAll (table : CodeTable) (policy : UnknownPolicy) (limits : Limits) :
    (fuel offset : Nat) → Bytes → List Decoded × Option ReadError
  | _, _, [] => ([], none)
  | 0, _, _ => ([], none)
  | fuel + 1, offset, s =>
    match read table policy limits offset s with
    | .error e => ([], some e)
    | .ok (d, rest) =>
      let (ds, stop) := readAll table policy limits fuel (offset + (s.length - rest.length)) rest
      (d :: ds, stop)

end Decoded

namespace Bytecode

/-- The instructions of a unit, and why decoding stopped if it did before the end. -/
def decode (b : Bytecode) (table : CodeTable) (policy : UnknownPolicy) :
    List Decoded × Option ReadError :=
  Decoded.readAll table policy ⟨b.strings.length, b.functions.length⟩ b.code.length 0 b.code

end Bytecode

/-- Which word of the code each instruction of the raw code begins at. -/
abbrev Places := List (Nat × Nat)

namespace Places

/-- The places of instructions that follow `start` words. -/
def ofDecoded (rawLength : Nat) : (start : Nat) → List Decoded → Places
  | start, [] => [(rawLength, start)]
  | start, d :: ds => (d.offset, start) :: ofDecoded rawLength (start + d.cells.length) ds

/-- The place of a byte offset. -/
def resolve (p : Places) (offset : Nat) : Except ReadError Word :=
  match p.lookup offset with
  | some i => .ok (UInt32.ofNat i)
  | none => .error (.malformed (.notBoundary offset))

end Places

namespace Cell

/-- The cell with its byte offset resolved. -/
def locate (p : Places) : Cell → Except ReadError Cell
  | place offset => (p.resolve offset).map word
  | c => .ok c

/-- The word of a located cell, given the table indices of the string constants. -/
def link (strings : List Word) : Cell → Word
  | word w => w
  | constant i => strings[i]?.getD 0
  | place offset => UInt32.ofNat offset

end Cell

end ScriptMachine
