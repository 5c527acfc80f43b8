import ScriptMachine.Codec.Varint
import ScriptMachine.StringTable.Basic

/-!
# String tables in saved states

A table is written slot by slot, free slots included, so that every index comes back as it was.
Reading replaces the whole table; where the bytes fail, the table holds the slots read so far.
-/

namespace ScriptMachine.StringTable

/-- Writes one slot. -/
def writeSlot : Option StringEntry → Bytes
  | none => Writer.bool false
  | some e => Writer.bool true ++ Writer.string e.bytes ++ Varint.writeWord e.locks

/-- Writes the table. -/
def write (t : StringTable) : Bytes := Writer.list writeSlot t.slots.toList

/-- Reads the slot at `index`: none if it is free, else the content and the lock count. -/
def readSlot (index : Nat) : Reader (Option (Bytes × Word)) := do
  if UInt32.size ≤ index then throw (.overflow .index)
  if ← Reader.bool then
    let bytes ← Reader.string
    let locks ← Varint.readWord
    pure (some (bytes, locks))
  else pure none

/-- Adds a slot after the last one. -/
def append (t : StringTable) (slot : Option (Bytes × Word)) : StringTable :=
  let i := UInt32.ofNat t.slots.size
  match slot with
  | none => { t with slots := t.slots.push none, free := OrdSet.add t.free i }
  | some (bytes, locks) =>
    let h := hash bytes
    { t with
      slots := t.slots.push (some { bytes, hash := h, index := i, locks, marked := false })
      buckets := t.buckets.insert h ((t.buckets.find? h).getD [] ++ [i]) }

/-- Reads so many slots into the table; answers the rest of the bytes too. -/
def readSlots : Nat → StringTable → Bytes → StringTable × Except ReadError Bytes
  | 0, t, s => (t, .ok s)
  | n + 1, t, s =>
    match readSlot t.slots.size s with
    | .error e => (t, .error e)
    | .ok (slot, rest) => readSlots n (t.append slot) rest

/-- Reads a table.  The last slot of a table is never free. -/
def read (s : Bytes) : StringTable × Except ReadError Bytes :=
  match Varint.readSize s with
  | .error e => ({}, .error e)
  | .ok (n, rest) =>
    match readSlots n {} rest with
    | (t, .error e) => (t, .error e)
    | (t, .ok rest) =>
      if t.slots.back? = some none then (t, .error (.malformed .freeTail)) else (t, .ok rest)

/-- Takes a whole table from the front of the bytes. -/
def reader : Reader StringTable := fun s =>
  match read s with
  | (t, .ok rest) => .ok (t, rest)
  | (_, .error e) => .error e

end ScriptMachine.StringTable
