import ScriptMachine.Codec.Reader

/-!
# Variable-length numbers

A number is written in groups of seven bits, the lowest group first, one group to a byte; the high
bit of a byte says that another follows.  Readers accept padded forms of at most ten bytes, so a
writer may reserve room for a number it does not know yet.
-/

namespace ScriptMachine.Varint

/-- No number takes more bytes than this, padding included. -/
def maxBytes : Nat := 10

/-- The seven bits a byte contributes. -/
def payload (b : UInt8) : Nat := b.toNat % 128

/-- Whether another byte follows. -/
def more (b : UInt8) : Bool := 128 ≤ b.toNat

/-- Reads on in a number whose groups so far make `value`; the next group is `shift` bits up. -/
def readGroups (range : IntRange) : (left shift value : Nat) → Reader Nat
  | 0, _, _ => throw (.overflow range)
  | left + 1, shift, value => do
    let b ← Reader.byte
    let group := payload b <<< shift
    if UInt64.size ≤ group then throw (.overflow range)
    let value := value + group
    if more b then readGroups range left (shift + 7) value
    else if 1 <<< range.bits ≤ value then throw (.overflow range)
    else pure value

/-- A number of the given range. -/
def read (range : IntRange) : Reader Nat := readGroups range maxBytes 0 0

/-- A word. -/
def readWord : Reader Word := do return UInt32.ofNat (← read .bits32)

/-- A signed word, through its bit pattern. -/
def readSigned : Reader Int32 := do return (← readWord).signed

/-- A count, an index or an offset. -/
def readSize : Reader Nat := read .size

/-- The groups of a number, at most `left` of them. -/
def writeGroups : (left : Nat) → Nat → Bytes
  | 0, _ => []
  | left + 1, n =>
    if n < 128 then [UInt8.ofNat n]
    else UInt8.ofNat (n % 128 + 128) :: writeGroups left (n / 128)

/-- The shortest form of a number below `2 ^ 64`. -/
def write (n : Nat) : Bytes := writeGroups maxBytes n

/-- The shortest form of a word. -/
def writeWord (w : Word) : Bytes := write w.toNat

/-- A signed word, through its bit pattern. -/
def writeSigned (i : Int32) : Bytes := writeWord (.ofSigned i)

/-- A number and the width it was to be padded to, which is too small. -/
structure Unfit where
  value : Nat
  width : Nat
deriving DecidableEq

/-- The wording of a number that does not fit its width. -/
def Unfit.message (u : Unfit) : String := s!"value {u.value} does not fit in {u.width} VLN bytes"

/-- Exactly `width` groups of a number, the last one without the high bit. -/
def padGroups : (width : Nat) → Nat → Bytes
  | 0, _ => []
  | 1, n => [UInt8.ofNat (n % 128)]
  | width + 1, n => UInt8.ofNat (n % 128 + 128) :: padGroups width (n / 128)

/-- A number in exactly `width` bytes.  Ten bytes hold every number below `2 ^ 64`. -/
def writePadded (n width : Nat) : Except Unfit Bytes :=
  if width = 0 ∨ (width < maxBytes ∧ n >>> (7 * width) ≠ 0) then .error ⟨n, width⟩
  else .ok (padGroups width n)

end ScriptMachine.Varint

namespace ScriptMachine

namespace Reader

/-- A byte string after its length. -/
def string : Reader Bytes := do
  let n ← Varint.readSize
  block n

/-- Values after their number. -/
def list {α : Type} (r : Reader α) : Reader (List α) := do
  let n ← Varint.readSize
  times r n

/-- Values after their number, each read with its position. -/
def listFrom {α : Type} (r : Nat → Reader α) : Reader (List α) := do
  let n ← Varint.readSize
  timesFrom r 0 n

/-- Words after their number. -/
def words : Reader (List Word) := list Varint.readWord

end Reader

namespace Writer

/-- A byte string after its length. -/
def string (bytes : Bytes) : Bytes := Varint.write bytes.length ++ bytes

/-- Values after their number. -/
def list {α : Type} (w : α → Bytes) (xs : List α) : Bytes :=
  Varint.write xs.length ++ xs.flatMap w

/-- Words after their number. -/
def words (ws : List Word) : Bytes := list Varint.writeWord ws

end Writer

end ScriptMachine
