import ScriptMachine.Codec.Error

/-!
# Readers

A reader takes a value from the front of a byte string and leaves the rest.  Everything the machine
reads is built from `Reader.byte` by sequencing and by counted repetition, so a reader that succeeds
has used a prefix of the bytes and nothing else.
-/

namespace ScriptMachine

/-- Takes a value from the front of a byte string, or fails. -/
abbrev Reader := StateT Bytes (Except ReadError)

namespace Reader

/-- Fails because the bytes describe something that cannot be. -/
def malformed {α : Type} (d : Defect) : Reader α := throw (.malformed d)

/-- The next byte. -/
def byte : Reader UInt8
  | [] => .error .endOfStream
  | b :: rest => .ok (b, rest)

/-- The next `n` bytes as they are. -/
def block (n : Nat) : Reader Bytes := fun s =>
  let front := s.take n
  if front.length = n then .ok (front, s.drop n) else .error .endOfStream

/-- As many values as `n` says, one after another. -/
def times {α : Type} (r : Reader α) : Nat → Reader (List α)
  | 0 => pure []
  | n + 1 => do
    let x ← r
    let xs ← times r n
    pure (x :: xs)

/-- Like `times`, for values that depend on their position. -/
def timesFrom {α : Type} (r : Nat → Reader α) : Nat → Nat → Reader (List α)
  | _, 0 => pure []
  | i, n + 1 => do
    let x ← r i
    let xs ← timesFrom r (i + 1) n
    pure (x :: xs)

/-- The four bytes that say what follows. -/
def signature (expected : Bytes) : Reader Unit := do
  let found ← block 4
  if found = expected then pure () else throw (.badSignature expected found)

/-- A truth value in one byte. -/
def bool : Reader Bool := do
  match ← byte with
  | 0 => pure false
  | 1 => pure true
  | b => malformed (.boolByte b)

/-- A 32-bit number in four bytes, the lowest first. -/
def word32 : Reader Word := do
  let front ← block 4
  pure (front.foldr (fun b n => n * 256 + b.toUInt32) 0)

end Reader

namespace Writer

/-- A truth value in one byte. -/
def bool (b : Bool) : Bytes := [if b then 1 else 0]

/-- A 32-bit number in four bytes, the lowest first. -/
def word32 (w : Word) : Bytes :=
  [w.toUInt8, (w >>> 8).toUInt8, (w >>> 16).toUInt8, (w >>> 24).toUInt8]

end Writer

end ScriptMachine
