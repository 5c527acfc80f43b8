import ScriptMachine.Word

/-!
# Instructions

The machine executes words: the number of an opcode and then its operands.  An `Opcode` says what
an instruction does, `Opcode.operands` how many words follow it and what each of them means.
Numbers and opcodes correspond one to one (`ofWord?_number`, `number_of_ofWord?`).
-/

namespace ScriptMachine

/-- Whose variables an instruction uses. -/
inductive Level where
  /-- The current call of a thread. -/
  | thread
  /-- The module scope of the thread's map. -/
  | module
  /-- The hub the map belongs to. -/
  | hub
  /-- The global scope the hub belongs to. -/
  | global
deriving DecidableEq, Inhabited

/-- What an instruction does with a variable. -/
inductive VarAction where
  | pushReg
  | dropReg
  | incReg
  | decReg
  | pushArr
  | dropArr
deriving DecidableEq, Inhabited

/-- Operations on the two words on top of the stack. -/
inductive BinaryOp where
  | add
  | sub
  | mul
  | div
  | mod
  | mulFixed
  | divFixed
  | bitAnd
  | bitOr
  | bitXor
  | shiftLeft
  | shiftRight
  | eq
  | ne
  | lt
  | le
  | gt
  | ge
  | logAnd
  | logOr
deriving DecidableEq, Inhabited

/-- Operations on the word on top of the stack. -/
inductive UnaryOp where
  | neg
  | bitNot
  | logNot
deriving DecidableEq, Inhabited

/-- What an instruction does. -/
inductive Opcode where
  | nop
  /-- Ends the thread for a stated reason. -/
  | kill
  /-- Ends the thread. -/
  | terminate
  /-- Pauses the thread. -/
  | suspend
  /-- Starts the thread's script over. -/
  | restart
  /-- Sleeps for as many ticks as the stack says. -/
  | delay
  /-- Sleeps for as many ticks as the operand says. -/
  | delayLit
  /-- Waits for a numbered script to end. -/
  | waitNumber
  /-- Waits for a named script to end. -/
  | waitName
  /-- Waits for the host to release a tag. -/
  | waitTag
  | pushLit
  | drop
  | copy
  | swap
  | var (level : Level) (action : VarAction)
  | binary (op : BinaryOp)
  | unary (op : UnaryOp)
  | jump
  /-- Jumps if the popped word is not 0. -/
  | jumpTrue
  /-- Jumps if the popped word is 0. -/
  | jumpZero
  /-- Jumps and pops if the top of the stack is the operand. -/
  | jumpEqual
  | call
  /-- Calls a function and ignores its result. -/
  | callDiscard
  | ret
  | retValue
  /-- Calls a built-in or host function. -/
  | callFunc
deriving DecidableEq, Inhabited

/-- What an operand means in a compiled module. -/
inductive OperandKind where
  /-- The word itself. -/
  | literal
  /-- A place in the code. -/
  | target
  /-- A string constant of the module. -/
  | string
  /-- A function of the module. -/
  | function
deriving DecidableEq, Inhabited

/-- The name of an operand kind. -/
def OperandKind.name : OperandKind → String
  | literal => "Lit"
  | target => "Jump"
  | string => "Str"
  | function => "Func"

namespace Opcode

/-- The opcodes in the order of their numbers. -/
def all : Array Opcode := #[
  .nop, .kill, .terminate, .suspend, .restart, .delay, .delayLit, .waitNumber, .waitName, .waitTag,
  .pushLit, .drop, .copy, .swap,
  .var .thread .pushReg, .var .thread .dropReg, .var .thread .incReg, .var .thread .decReg,
  .var .thread .pushArr, .var .thread .dropArr,
  .var .module .pushReg, .var .module .dropReg, .var .module .incReg, .var .module .decReg,
  .var .module .pushArr, .var .module .dropArr,
  .var .hub .pushReg, .var .hub .dropReg, .var .hub .incReg, .var .hub .decReg,
  .var .hub .pushArr, .var .hub .dropArr,
  .var .global .pushReg, .var .global .dropReg, .var .global .incReg, .var .global .decReg,
  .var .global .pushArr, .var .global .dropArr,
  .binary .add, .binary .sub, .binary .mul, .binary .div, .binary .mod, .binary .mulFixed,
  .binary .divFixed, .unary .neg, .binary .bitAnd, .binary .bitOr, .binary .bitXor, .unary .bitNot,
  .binary .shiftLeft, .binary .shiftRight, .binary .eq, .binary .ne, .binary .lt, .binary .le,
  .binary .gt, .binary .ge, .binary .logAnd, .binary .logOr, .unary .logNot,
  .jump, .jumpTrue, .jumpZero, .jumpEqual, .call, .callDiscard, .ret, .retValue, .callFunc]

/-- The opcode with a number. -/
def ofWord? (w : Word) : Option Opcode := all[w.toNat]?

/-- The place of an action within the block of its level. -/
def actionNumber : VarAction → Word
  | .pushReg => 0
  | .dropReg => 1
  | .incReg => 2
  | .decReg => 3
  | .pushArr => 4
  | .dropArr => 5

/-- The first number of the block of a level. -/
def levelNumber : Level → Word
  | .thread => 14
  | .module => 20
  | .hub => 26
  | .global => 32

/-- The number of an operation on two words. -/
def binaryNumber : BinaryOp → Word
  | .add => 38
  | .sub => 39
  | .mul => 40
  | .div => 41
  | .mod => 42
  | .mulFixed => 43
  | .divFixed => 44
  | .bitAnd => 46
  | .bitOr => 47
  | .bitXor => 48
  | .shiftLeft => 50
  | .shiftRight => 51
  | .eq => 52
  | .ne => 53
  | .lt => 54
  | .le => 55
  | .gt => 56
  | .ge => 57
  | .logAnd => 58
  | .logOr => 59

/-- The number of an opcode. -/
def number : Opcode → Word
  | nop => 0
  | kill => 1
  | terminate => 2
  | suspend => 3
  | restart => 4
  | delay => 5
  | delayLit => 6
  | waitNumber => 7
  | waitName => 8
  | waitTag => 9
  | pushLit => 10
  | drop => 11
  | copy => 12
  | swap => 13
  | var level action => levelNumber level + actionNumber action
  | binary op => binaryNumber op
  | unary .neg => 45
  | unary .bitNot => 49
  | unary .logNot => 60
  | jump => 61
  | jumpTrue => 62
  | jumpZero => 63
  | jumpEqual => 64
  | call => 65
  | callDiscard => 66
  | ret => 67
  | retValue => 68
  | callFunc => 69

/-- Every opcode is found under its number. -/
@[simp] theorem ofWord?_number (op : Opcode) : ofWord? op.number = some op := by
  cases op with
  | var level action => cases level <;> cases action <;> rfl
  | binary op => cases op <;> rfl
  | unary op => cases op <;> rfl
  | _ => rfl

/-- A number belongs to one opcode only. -/
theorem number_of_ofWord? {w : Word} {op : Opcode} (h : ofWord? w = some op) : op.number = w := by
  have key : ∀ i : Fin all.size, (all[i]).number.toNat = i := by decide
  obtain ⟨hw, hop⟩ := Array.getElem?_eq_some_iff.1 h
  have := key ⟨w.toNat, hw⟩
  simp only [Fin.getElem_fin, hop] at this
  exact UInt32.toNat_inj.1 this

/-- What follows an opcode. -/
def operands : Opcode → List OperandKind
  | kill => [.literal, .literal]
  | delayLit => [.literal]
  | waitTag => [.literal]
  | pushLit => [.literal]
  | var _ _ => [.literal]
  | jump => [.target]
  | jumpTrue => [.target]
  | jumpZero => [.target]
  | jumpEqual => [.literal, .target]
  | call => [.function]
  | callDiscard => [.function]
  | callFunc => [.literal, .literal]
  | _ => []

/-- How many words follow an opcode. -/
def arity (op : Opcode) : Nat := op.operands.length

/-- The name of an opcode in listings. -/
def name : Opcode → String
  | nop => "Nop"
  | kill => "Kill"
  | terminate => "Terminate"
  | suspend => "Suspend"
  | restart => "Restart"
  | delay => "Delay"
  | delayLit => "DelayLit"
  | waitNumber => "WaitScrI"
  | waitName => "WaitScrS"
  | waitTag => "WaitTag"
  | pushLit => "PushLit"
  | drop => "Drop"
  | copy => "Copy"
  | swap => "Swap"
  | var level action =>
    let place := match level with
      | .thread => "Loc"
      | .module => "Mod"
      | .hub => "Hub"
      | .global => "Gbl"
    match action with
    | .pushReg => "Push" ++ place ++ "Reg"
    | .dropReg => "Drop" ++ place ++ "Reg"
    | .incReg => "Inc" ++ place ++ "Reg"
    | .decReg => "Dec" ++ place ++ "Reg"
    | .pushArr => "Push" ++ place ++ "Arr"
    | .dropArr => "Drop" ++ place ++ "Arr"
  | binary .add => "Add"
  | binary .sub => "Sub"
  | binary .mul => "Mul"
  | binary .div => "Div"
  | binary .mod => "Mod"
  | binary .mulFixed => "MulX"
  | binary .divFixed => "DivX"
  | unary .neg => "Neg"
  | binary .bitAnd => "BitAnd"
  | binary .bitOr => "BitIor"
  | binary .bitXor => "BitXor"
  | unary .bitNot => "BitNot"
  | binary .shiftLeft => "ShL"
  | binary .shiftRight => "ShR"
  | binary .eq => "CmpEQ"
  | binary .ne => "CmpNE"
  | binary .lt => "CmpLT"
  | binary .le => "CmpLE"
  | binary .gt => "CmpGT"
  | binary .ge => "CmpGE"
  | binary .logAnd => "LogAnd"
  | binary .logOr => "LogOr"
  | unary .logNot => "LogNot"
  | jump => "Jump"
  | jumpTrue => "JcndTru"
  | jumpZero => "JcndNil"
  | jumpEqual => "JcndLit"
  | call => "Call"
  | callDiscard => "CallNul"
  | ret => "Retn"
  | retValue => "RetnVal"
  | callFunc => "CallFunc"

end Opcode

/-- Why a thread was ended by force.  Scripts may give these reasons too. -/
inductive KillReason where
  | unspecified
  /-- The code pointer left the code. -/
  | outOfBounds
  /-- A word is no opcode, or the module held an opcode that is not in the code table. -/
  | unknownCode
  /-- A function that does not exist was called. -/
  | unknownFunc
  /-- The thread ran too many instructions in one turn. -/
  | branchLimit
  /-- There was no room for the locals of a call. -/
  | outOfMemory
deriving DecidableEq, Inhabited

namespace KillReason

/-- The reasons in the order of their numbers. -/
def all : Array KillReason :=
  #[.unspecified, .outOfBounds, .unknownCode, .unknownFunc, .branchLimit, .outOfMemory]

/-- The reason with a number. -/
def ofWord? (w : Word) : Option KillReason := all[w.toNat]?

/-- The number of a reason. -/
def number : KillReason → Word
  | unspecified => 0
  | outOfBounds => 1
  | unknownCode => 2
  | unknownFunc => 3
  | branchLimit => 4
  | outOfMemory => 5

/-- The name of a reason. -/
def name : KillReason → String
  | unspecified => "None"
  | outOfBounds => "OutOfBounds"
  | unknownCode => "UnknownCode"
  | unknownFunc => "UnknownFunc"
  | branchLimit => "BranchLimit"
  | outOfMemory => "OutOfMemory"

end KillReason

end ScriptMachine
