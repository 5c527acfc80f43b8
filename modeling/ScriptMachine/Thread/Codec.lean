import ScriptMachine.Codec.Names
import ScriptMachine.Thread.Basic

/-!
# Threads in saved states

Everything a thread needs to go on is written, except its module, which the reader is given, and the
tick of its last turn, which starts anew.
-/

namespace ScriptMachine

/-- Writes what the host attached to a thread. -/
def ThreadInfo.write (i : ThreadInfo) : Bytes :=
  Varint.writeWord i.activator ++ Varint.writeWord i.line ++ Varint.writeWord i.side

/-- Reads what the host attached to a thread. -/
def ThreadInfo.read : Reader ThreadInfo := do
  return { activator := ← Varint.readWord, line := ← Varint.readWord, side := ← Varint.readWord }

/-- Writes a state. -/
def ThreadState.write : ThreadState → Bytes
  | .inactive => Varint.write 0
  | .running => Varint.write 1
  | .stopped => Varint.write 2
  | .paused => Varint.write 3
  | .waitNumber n => Varint.write 4 ++ Varint.writeSigned n
  | .waitName s => Varint.write 5 ++ Writer.string (Utf8.encode s)
  | .waitTag type tag => Varint.write 6 ++ Varint.writeWord type ++ Varint.writeWord tag

/-- Reads a state. -/
def ThreadState.read : Reader ThreadState := do
  match ← Varint.read .bits8 with
  | 0 => return .inactive
  | 1 => return .running
  | 2 => return .stopped
  | 3 => return .paused
  | 4 => return .waitNumber (← Varint.readSigned)
  | 5 => return .waitName (Utf8.lossy (← Reader.string))
  | 6 => return .waitTag (← Varint.readWord) (← Varint.readWord)
  | k => Reader.malformed (.threadState k)

/-- Writes a frame. -/
def Frame.write (f : Frame) : Bytes :=
  Varint.write f.ret ++ Varint.write f.regBase ++ Varint.write f.arrBase ++
    Writer.bool f.discard ++ Varint.writeWord f.func

/-- Reads a frame. -/
def Frame.read : Reader Frame := do
  return {
    ret := ← Varint.readSize
    regBase := ← Varint.readSize
    arrBase := ← Varint.readSize
    discard := ← Reader.bool
    func := ← Varint.readWord }

namespace Thread

/-- Writes a thread. -/
def write (t : Thread) : Bytes :=
  Varint.writeWord t.id ++ Varint.write t.scriptIndex ++ Varint.write t.codePtr ++
    Writer.words t.stack.reverse ++ Writer.list Frame.write t.frames.reverse ++
    Writer.words t.regs.toList ++ Writer.list Sparse.write t.arrs.toList ++
    Varint.write t.regBase ++ Varint.write t.arrBase ++
    Varint.writeWord t.result ++ Varint.writeWord t.delay ++ t.state.write ++ t.info.write ++
    Writer.string t.printed.toList ++ Writer.words t.args

/-- Reads a thread of a module scope. -/
def read (module : LoadedModule) (scope : ScopeId) (moduleIndex : Nat) : Reader Thread := do
  let id ← Varint.readWord
  let scriptIndex ← Varint.readSize
  if module.scripts.size ≤ scriptIndex then Reader.malformed (.threadScript id scriptIndex)
  let codePtr ← Varint.readSize
  let stack ← Reader.words
  let frames ← Reader.list Frame.read
  let regs ← Reader.words
  let arrs ← Reader.list Sparse.read
  let regBase ← Varint.readSize
  let arrBase ← Varint.readSize
  if regs.length < regBase ∨ arrs.length < arrBase then Reader.malformed (.threadBase id)
  let result ← Varint.readWord
  let delay ← Varint.readWord
  let state ← ThreadState.read
  let info ← ThreadInfo.read
  let printed ← Reader.string
  let args ← Reader.words
  pure {
    id, module := some module, scope, moduleIndex, scriptIndex, codePtr
    stack := stack.reverse
    frames := frames.reverse
    regs := regs.toArray
    arrs := arrs.toArray
    regBase, arrBase, result, delay, state, info
    printed := printed.toArray
    args }

end Thread

end ScriptMachine
