import ScriptMachine.Machine.Schedule
import ScriptMachine.Numeric.Decimal
import ScriptMachine.Text.Utf8

/-!
# Executing instructions

`Machine.step` carries out one instruction and `Machine.turn` a whole turn.  Nothing a script does
is an error of the machine: a script that leaves its code, calls what is not there or runs too long
is ended, and the host is told why.
-/

namespace ScriptMachine

/-- The word an operation makes of two; `b` was on top of the stack.  Division by 0 gives 0. -/
def BinaryOp.eval (op : BinaryOp) (a b : Word) : Word :=
  match op with
  | add => a + b
  | sub => a - b
  | mul => a * b
  | div => if b = 0 then 0 else .ofSigned (a.signed / b.signed)
  | mod => if b = 0 then 0 else .ofSigned (a.signed % b.signed)
  | mulFixed => .ofSigned ((a.signed.toInt64 * b.signed.toInt64) >>> 16).toInt32
  | divFixed =>
    if b = 0 then 0 else .ofSigned ((a.signed.toInt64 <<< 16) / b.signed.toInt64).toInt32
  | bitAnd => a &&& b
  | bitOr => a ||| b
  | bitXor => a ^^^ b
  | shiftLeft => a <<< (b &&& 31)
  | shiftRight => .ofSigned (a.signed >>> (b &&& 31).signed)
  | eq => .ofBool (a == b)
  | ne => .ofBool (a != b)
  | lt => .ofBool (a.signed < b.signed)
  | le => .ofBool (a.signed ≤ b.signed)
  | gt => .ofBool (b.signed < a.signed)
  | ge => .ofBool (b.signed ≤ a.signed)
  | logAnd => .ofBool (a != 0 && b != 0)
  | logOr => .ofBool (a != 0 || b != 0)

/-- The word an operation makes of one. -/
def UnaryOp.eval (op : UnaryOp) (a : Word) : Word :=
  match op with
  | neg => -a
  | bitNot => ~~~a
  | logNot => .ofBool (a == 0)

namespace Thread

/-- Calls a function: its locals begin after all others, and its parameters are popped, the last one
first. -/
def call (t : Thread) (f : Function) (index : Word) (discard : Bool) : Thread :=
  let params := f.paramCount.toNat
  let given := t.stack.take params
  let values := List.replicate (params - given.length) 0 ++ given.reverse
  let locals := values ++ List.replicate (f.regCount.toNat - params) 0
  let frame : Frame :=
    { ret := t.codePtr, regBase := t.regBase, arrBase := t.arrBase, discard, func := index }
  { t with
    stack := t.stack.drop params
    frames := frame :: t.frames
    regs := t.regs ++ locals
    arrs := t.arrs ++ Array.replicate f.arrCount.toNat ({} : Sparse)
    regBase := t.regs.size
    arrBase := t.arrs.size
    codePtr := f.entry.toNat }

/-- Returns from a call; from the script itself, the thread ends with the value as its result. -/
def ret (t : Thread) (value : Option Word) : Thread :=
  match t.frames with
  | [] => { t with result := value.getD t.result, state := .stopped }
  | f :: rest =>
    let t := { t with
      frames := rest
      regs := t.regs.take t.regBase
      arrs := t.arrs.take t.arrBase
      regBase := f.regBase
      arrBase := f.arrBase
      codePtr := f.ret }
    if f.discard then t else t.push (value.getD 0)

/-- The most arguments a function is called with. -/
def maxArgs : Nat := 1024

/-- Takes the arguments of a function from the stack; missing ones are zeros in front. -/
def takeArgs (t : Thread) (count : Word) : List Word × Thread :=
  let n := min count.toNat maxArgs
  let given := t.stack.take n
  (List.replicate (n - given.length) 0 ++ given.reverse, { t with stack := t.stack.drop n })

end Thread

namespace Machine

/-- Ends a thread by force and tells the host. -/
def kill (m : Machine) (t : Thread) (reason : KillReason) (data : Word) : Machine × Thread :=
  let report : KillReport := {
    reason, data
    module := (t.module.map (·.name)).getD { name := "" }
    script := t.scriptName?
    codePtr := UInt32.ofNat t.codePtr }
  let shown := (report.script.map (·.display)).getD "?"
  let m := m.log .warn
    s!"killed thread {t.id} of {report.module.display} script {shown}: {reason.name} ({data})"
  (m.report .kill (.kill report), { t with state := .stopped })

/-- What an instruction comes to that ends its thread by force. -/
def killStep (m : Machine) (t : Thread) (reason : KillReason) (data : Word) :
    Option (Machine × Thread × Bool) :=
  let (m, t) := m.kill t reason data
  some (m, t, false)

/-- Carries out an instruction on a variable. -/
def accessVar (m : Machine) (t : Thread) (level : Level) (action : VarAction) (i : Word) :
    Machine × Thread :=
  let reg : Word :=
    match level with
    | .thread => t.regs[t.regBase + i.toNat]?.getD 0
    | _ => ((m.scopes.vars? level t.scope t.moduleIndex).map (·.reg i)).getD 0
  let modifyReg (m : Machine) (t : Thread) (f : Word → Word) : Machine × Thread :=
    match level with
    | .thread => (m, { t with regs := t.regs.modify (t.regBase + i.toNat) f })
    | _ =>
      ({ m with scopes := m.scopes.modifyVars level t.scope t.moduleIndex fun v =>
          v.modifyReg i f }, t)
  match action with
  | .pushReg => (m, t.push reg)
  | .dropReg =>
    let (w, t) := t.pop
    modifyReg m t fun _ => w
  | .incReg => modifyReg m t (· + 1)
  | .decReg => modifyReg m t (· - 1)
  | .pushArr =>
    let (k, t) := t.pop
    match level with
    | .thread => (m, t.push ((t.arrs[t.arrBase + i.toNat]?.map (·.get k)).getD 0))
    | _ =>
      (m, t.push (((m.scopes.vars? level t.scope t.moduleIndex).map (·.cell i k)).getD 0))
  | .dropArr =>
    let (w, t) := t.pop
    let (k, t) := t.pop
    match level with
    | .thread => (m, { t with arrs := t.arrs.modify (t.arrBase + i.toNat) fun a => a.set k w })
    | _ =>
      match m.scopes.vars? level t.scope t.moduleIndex with
      | none => (m, t)
      | some v =>
        let (v, strings) := v.store i k w m.strings
        ({ m with
          strings
          scopes := m.scopes.modifyVars level t.scope t.moduleIndex fun _ => v }, t)

/-- The script name that a string stands for. -/
def nameOf? (m : Machine) (i : Word) : Option ScriptName :=
  (m.strings.bytes? i).map fun b => .text (Utf8.lossy b)

/-- Whether a thread holds a script name in its own map. -/
def holdsName (m : Machine) (t : Thread) (name : ScriptName) : Bool :=
  match m.resolveScript? t.scope name with
  | some s => s.thread == some t.id
  | none => false

/-- How a script starts another one. -/
inductive StartMode where
  | normal
  | forced
  | result
deriving DecidableEq

/-- A script starts another one, and gets 1 for a script that was started, or its result.  The
calling thread is not in the tree, so its own state is looked at here. -/
def startFrom (turn : Turn) (m : Machine) (t : Thread) (mode : StartMode) (name : Option ScriptName)
    (args : List Word) : Option (Machine × Thread) :=
  match name with
  | none => some (m, t.push 0)
  | some name =>
    let own := m.holdsName t name
    match mode with
    | .normal =>
      if own && !t.state.isFinished then some (m, t.push 0)
      else
        let (started, m) := m.startScript t.scope name args t.info
        some (m, t.push (.ofBool started))
    | .forced =>
      let t := if own then { t with state := .stopped } else t
      let (started, m) := m.startForced t.scope name args t.info
      some (m, t.push (.ofBool started))
    | .result =>
      (m.startResult turn t.scope name args t.info).map fun (r, m) => (m, t.push (r.getD 0))

/-- A script stops or pauses another one, or itself, and gets 1 if there was one to stop or
pause. -/
def haltFrom (m : Machine) (t : Thread) (pause : Bool) (name : Option ScriptName) :
    Machine × Thread :=
  match name with
  | none => (m, t.push 0)
  | some name =>
    let state : ThreadState := if pause then .paused else .stopped
    let (found, m) := m.setScriptState t.scope name state
    if m.holdsName t name && !t.state.isFinished then (m, { t with state }.push 1)
    else (m, t.push (.ofBool found))

/-- Ends a message: the host prints it, or it becomes a message of the machine. -/
def endMessage (m : Machine) (t : Thread) : Machine × Thread :=
  let text := t.printed.toList
  let m := if m.hooks.has .print then m.emit (.print t.info text) else m.log .info (Utf8.lossy text)
  (m, { t with printed := #[] })

/-- Adds an array of the module to the message: as the host wishes, or its cells as bytes up to the
first that holds 0. -/
def printArray (m : Machine) (t : Thread) (i : Word) : Machine × Thread :=
  match (m.scopes.module? t.scope t.moduleIndex).bind (·.vars.arr? i) with
  | none => (m, t)
  | some a =>
    if m.hooks.has .printArray then
      (m.emit (.printArray a), { t with printed := t.printed ++ m.hooks.printArray a })
    else
      let bytes := ((a.toList.map Prod.snd).takeWhile (· != 0)).map (·.toUInt8)
      (m, { t with printed := t.printed ++ bytes })

/-- Carries out a built-in function. -/
def callBuiltin (turn : Turn) (m : Machine) (t : Thread) (f : Builtin) (args : List Word) :
    Option (Machine × Thread) :=
  let a := args.headD 0
  let rest := args.tail
  let print (text : Bytes) := some (m, { t with printed := t.printed ++ text })
  match f with
  | .nop => some (m, t)
  | .printBegin => some (m, { t with printed := #[] })
  | .printString => print ((m.strings.bytes? a).getD [])
  | .printNumber => print (Utf8.encode (decimal a.signed))
  | .printChar => some (m, { t with printed := t.printed.push a.toUInt8 })
  | .printFixed => print (Utf8.encode a.fixedText)
  | .printEnd => some (m.endMessage t)
  | .printArray => some (m.printArray t a)
  | .startNumber => m.startFrom turn t .normal (some (.number a.signed)) rest
  | .startName => m.startFrom turn t .normal (m.nameOf? a) rest
  | .startForcedNumber => m.startFrom turn t .forced (some (.number a.signed)) rest
  | .startForcedName => m.startFrom turn t .forced (m.nameOf? a) rest
  | .startResultNumber => m.startFrom turn t .result (some (.number a.signed)) rest
  | .startResultName => m.startFrom turn t .result (m.nameOf? a) rest
  | .stopNumber => some (m.haltFrom t false (some (.number a.signed)))
  | .stopName => some (m.haltFrom t false (m.nameOf? a))
  | .pauseNumber => some (m.haltFrom t true (some (.number a.signed)))
  | .pauseName => some (m.haltFrom t true (m.nameOf? a))
  | .activeNumber => some (m, t.push (.ofBool (m.scriptActive t.scope (.number a.signed))))
  | .setResult => some (m, { t with result := a })
  | .random =>
    let (r, m) := m.random a.signed (rest.headD 0).signed
    some (m, t.push (.ofSigned r))
  | .stringLength => some (m, t.push (UInt32.ofNat (((m.strings.bytes? a).map List.length).getD 0)))
  | .checkLock =>
    let door := rest.headD 0
    if m.hooks.has .checkLock then
      let unlocked := m.hooks.checkLock t.info a door
      some (m.emit (.checkLock t.info a door unlocked), t.push (.ofBool unlocked))
    else some (m, t.push 1)

/-- Calls a function by number, with arguments from the stack.  Answers also whether the thread
waits for its next turn. -/
def callFunc (host : Host) (turn : Turn) (exec : Machine → Option Machine) (m : Machine)
    (t : Thread) (count func : Word) : Option (Machine × Thread × Bool) :=
  let (args, t) := t.takeArgs count
  if func < m.settings.funcBase then
    match m.builtins.find? func with
    | some f => (m.callBuiltin turn t f args).map fun (m, t) => (m, t, false)
    | none => m.killStep t .unknownFunc func
  else
    match m.hostFuncs[(func - m.settings.funcBase).toNat]? with
    | some key => (host key args).run turn exec m t
    | none => m.killStep t .unknownFunc func

/-- Carries out an instruction; the code pointer is already behind it.  Answers also whether the
thread waits for its next turn. -/
def step (host : Host) (turn : Turn) (exec : Machine → Option Machine) (module : LoadedModule)
    (op : Opcode) (operands : List Word) (m : Machine) (t : Thread) :
    Option (Machine × Thread × Bool) :=
  let a := operands.headD 0
  let b := operands.tail.headD 0
  let go (t : Thread) := some (m, t, false)
  let jumpIf (condition : Bool) (t : Thread) (target : Word) :=
    go (if condition then { t with codePtr := target.toNat } else t)
  match op with
  | .nop => go t
  | .kill => m.killStep t ((KillReason.ofWord? a).getD .unspecified) b
  | .terminate => go { t with state := .stopped }
  | .suspend => go { t with state := .paused }
  | .restart =>
    match module.scripts[t.scriptIndex]? with
    | some s => go (t.reset s)
    | none => go { t with state := .stopped }
  | .delay =>
    let (w, t) := t.pop
    go { t with delay := w }
  | .delayLit => go { t with delay := a }
  | .waitNumber =>
    let (w, t) := t.pop
    go { t with state := .waitNumber w.signed }
  | .waitName =>
    let (w, t) := t.pop
    go { t with state := .waitName (((m.strings.bytes? w).map Utf8.lossy).getD "") }
  | .waitTag =>
    let (w, t) := t.pop
    go { t with state := .waitTag a w }
  | .pushLit => go (t.push a)
  | .drop => go t.pop.2
  | .copy => go (t.push (t.stack.headD 0))
  | .swap =>
    let (y, t) := t.pop
    let (x, t) := t.pop
    go ((t.push y).push x)
  | .var level action =>
    let (m, t) := m.accessVar t level action a
    some (m, t, false)
  | .binary op =>
    let (y, t) := t.pop
    let (x, t) := t.pop
    go (t.push (op.eval x y))
  | .unary op =>
    let (x, t) := t.pop
    go (t.push (op.eval x))
  | .jump => jumpIf true t a
  | .jumpTrue =>
    let (w, t) := t.pop
    jumpIf (w != 0) t a
  | .jumpZero =>
    let (w, t) := t.pop
    jumpIf (w == 0) t a
  | .jumpEqual => if t.stack.head? = some a then jumpIf true t.pop.2 b else go t
  | .call | .callDiscard =>
    match module.functions[a.toNat]? with
    | some f => go (t.call f a (op == .callDiscard))
    | none => m.killStep t .unknownFunc a
  | .ret => go (t.ret none)
  | .retValue =>
    let (w, t) := t.pop
    go (t.ret (some w))
  | .callFunc => callFunc host turn exec m t a b

/-- The `n` words after a place, if the code has as many. -/
def operandsAt (code : Array Word) (place n : Nat) : Option (List Word) :=
  if place + n < code.size then some (code.extract (place + 1) (place + 1 + n)).toList else none

/-- The instruction at a place with its operands, or why there is none. -/
def fetchAt (code : Array Word) (place : Nat) : Except (KillReason × Word) (Opcode × List Word) :=
  match code[place]? with
  | none => .error (.outOfBounds, UInt32.ofNat place)
  | some w =>
    match Opcode.ofWord? w with
    | none => .error (.unknownCode, w)
    | some op =>
      match operandsAt code place op.arity with
      | none => .error (.outOfBounds, UInt32.ofNat place)
      | some operands => .ok (op, operands)

/-- Starts a turn with a way to run instructions. -/
def turnWith (loop : Word → Word → LoadedModule → Turn) : Turn := fun m t =>
  match t.module with
  | none => some (m, { t with state := .stopped })
  | some module => loop m.settings.branchLimit 0 module m t

/-- Runs instructions until the thread blocks, ends, or `count` of them reach the limit.  One unit
of fuel is used up by each instruction, and turns within a turn have what is left. -/
def loop (host : Host) : (fuel : Nat) → (limit count : Word) → LoadedModule → Turn
  | 0, _, _, _, _, _ => none
  | fuel + 1, limit, count, module, m, t =>
    if t.state != .running || t.delay != 0 then some (m, t)
    else if limit != 0 && limit ≤ count then some (m.kill t .branchLimit count)
    else
      match fetchAt module.code t.codePtr with
      | .error (reason, data) => some (m.kill t reason data)
      | .ok (op, operands) =>
        let turn := turnWith (loop host fuel)
        let t := { t with codePtr := t.codePtr + 1 + op.arity }
        match step host turn (execWith turn fuel) module op operands m t with
        | none => none
        | some (m, t, true) => some (m, t)
        | some (m, t, false) =>
          loop host fuel limit (if limit = 0 then count else count + 1) module m t

/-- A turn of a thread. -/
def turn (host : Host) (fuel : Nat) : Turn := turnWith (loop host fuel)

/-- Runs one tick. -/
def exec (host : Host) (fuel : Nat) (m : Machine) : Option Machine :=
  m.execWith (turn host fuel) fuel

end Machine

end ScriptMachine
