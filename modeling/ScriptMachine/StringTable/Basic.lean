import ScriptMachine.OrdMap
import ScriptMachine.Word

/-!
# The string table

Every string a script can name lives in one table and is named by the index of its slot, which does
not change while the string lives.  A string is found again by its content through buckets of equal
hash; a new one takes the lowest free slot.  Holders of indices may lock a string, which keeps it
through every collection (`ScriptMachine.StringTable.Collect`).
-/

namespace ScriptMachine

/-- A string with its place in the table. -/
structure StringEntry where
  bytes : Bytes
  hash : Word
  index : Word
  /-- How many holders asked for the string to stay. -/
  locks : Word
  /-- Whether the running collection has met a reference to the string. -/
  marked : Bool
deriving DecidableEq, Inhabited

/-- All strings of a machine. -/
structure StringTable where
  /-- The slots; a free one lies between strings that live. -/
  slots : Array (Option StringEntry) := #[]
  /-- The indices of the strings of each hash, oldest first. -/
  buckets : OrdMap Word (List Word) := {}
  /-- The free slots. -/
  free : OrdSet Word := {}
  /-- Whether a collection is under way. -/
  collecting : Bool := false
deriving DecidableEq, Inhabited

namespace StringTable

/-- The hash by which strings are found: five times the hash so far plus the next byte. -/
def hash (bytes : Bytes) : Word := bytes.foldl (fun h b => h * 5 + b.toUInt32) 0

/-- The string at an index. -/
def get? (t : StringTable) (i : Word) : Option StringEntry := (t.slots[i.toNat]?).join

/-- The content of the string at an index. -/
def bytes? (t : StringTable) (i : Word) : Option Bytes := (t.get? i).map (·.bytes)

/-- Whether a string lives at an index. -/
def contains (t : StringTable) (i : Word) : Bool := (t.get? i).isSome

/-- The number of slots, free ones included. -/
def capacity (t : StringTable) : Nat := t.slots.size

/-- The number of strings. -/
def size (t : StringTable) : Nat := t.slots.size - t.free.size

/-- Whether there is no string. -/
def isEmpty (t : StringTable) : Bool := t.size == 0

/-- The strings in index order. -/
def entries (t : StringTable) : List StringEntry := t.slots.toList.filterMap id

/-- The index of a string with this content among those of a hash. -/
def find? (t : StringTable) (bytes : Bytes) (hash : Word) : Option Word :=
  ((t.buckets.find? hash).getD []).find? fun i => t.bytes? i == some bytes

/-- The slot a new string takes: the lowest free one, else one past the end. -/
def nextIndex (t : StringTable) : Word := (OrdSet.least? t.free).getD (UInt32.ofNat t.slots.size)

/-- Puts a string into a slot, which is added where it is one past the end. -/
def place (slots : Array (Option StringEntry)) (i : Nat) (e : StringEntry) :
    Array (Option StringEntry) :=
  if i < slots.size then slots.setIfInBounds i (some e) else slots.push (some e)

/-- The index of the string with this content, which is added if it is not there.  `hash` chooses
the bucket that is searched and that a new string goes to; callers pass `StringTable.hash`. -/
def internHashed (t : StringTable) (bytes : Bytes) (hash : Word) : Word × StringTable :=
  match t.find? bytes hash with
  | some i => (i, t)
  | none =>
    let i := t.nextIndex
    let e : StringEntry := { bytes, hash, index := i, locks := 0, marked := t.collecting }
    (i, { t with
      slots := place t.slots i.toNat e
      free := OrdMap.erase t.free i
      buckets := t.buckets.insert hash ((t.buckets.find? hash).getD [] ++ [i]) })

/-- The index of the string with this content, which is added if it is not there. -/
def intern (t : StringTable) (bytes : Bytes) : Word × StringTable :=
  t.internHashed bytes (hash bytes)

/-- Changes the string at an index; nothing happens where none lives. -/
def update (t : StringTable) (i : Word) (f : StringEntry → StringEntry) : StringTable :=
  { t with slots := t.slots.modify i.toNat (Option.map f) }

/-- Adds a lock, up to the largest count. -/
def lock (t : StringTable) (i : Word) : StringTable :=
  t.update i fun e => { e with locks := if e.locks = 0xFFFFFFFF then e.locks else e.locks + 1 }

/-- Takes a lock away, if there is one.  A string without locks goes with the next collection. -/
def unlock (t : StringTable) (i : Word) : StringTable :=
  t.update i fun e => { e with locks := if e.locks = 0 then 0 else e.locks - 1 }

/-- Takes a lock away from each of the strings. -/
def unlockAll (t : StringTable) (is : List Word) : StringTable := is.foldl unlock t

/-- Adds every string and locks it, in order; answers their indices. -/
def internLocked (t : StringTable) : List Bytes → List Word × StringTable
  | [] => ([], t)
  | s :: rest =>
    let (i, t) := t.intern s
    let (is, t) := (t.lock i).internLocked rest
    (i :: is, t)

/-- The lock count of every string. -/
def lockCounts (t : StringTable) : List (Word × Word) := t.entries.map fun e => (e.index, e.locks)

/-- Gives strings the lock counts they had. -/
def restoreLocks (t : StringTable) (counts : List (Word × Word)) : StringTable :=
  counts.foldl (fun t (i, n) => t.update i fun e => { e with locks := n }) t

end StringTable

end ScriptMachine
