import ScriptMachine.Codec.Varint
import ScriptMachine.StringTable.Collect

/-!
# Sparse arrays

An array has a cell for every word, and all but finitely many hold 0.  Plain stores keep only cells
that are not 0.  An array of strings also holds one lock on the string of each of its cells; its
stores keep cells that hold 0, because string 0 is locked like any other.
-/

namespace ScriptMachine

/-- An array with a cell for every word. -/
structure Sparse where
  /-- The cells that were stored, in key order. -/
  cells : OrdMap Word Word := {}
deriving DecidableEq, Inhabited

namespace Sparse

/-- The content of a cell. -/
def get (a : Sparse) (k : Word) : Word := (a.cells.find? k).getD 0

/-- A plain store. -/
def set (a : Sparse) (k v : Word) : Sparse :=
  ⟨if v = 0 then a.cells.erase k else a.cells.insert k v⟩

/-- A store into an array of strings: the new string gains a lock and the old one loses it. -/
def setString (a : Sparse) (k v : Word) (t : StringTable) : Sparse × StringTable :=
  let t := t.lock v
  let t := match a.cells.find? k with
    | some old => t.unlock old
    | none => t
  (⟨a.cells.insert k v⟩, t)

/-- Empties an array of strings and gives its locks back. -/
def clearStrings (a : Sparse) (t : StringTable) : Sparse × StringTable :=
  ({}, t.unlockAll a.cells.values)

/-- The stored cells in key order. -/
def toList (a : Sparse) : List (Word × Word) := a.cells.entries

/-- The number of stored cells. -/
def size (a : Sparse) : Nat := a.cells.size

/-- Whether no cell is stored. -/
def isEmpty (a : Sparse) : Bool := a.cells.isEmpty

/-- The words a collection of strings takes for references. -/
def references (a : Sparse) : List Word := a.cells.values

/-- Writes the stored cells. -/
def write (a : Sparse) : Bytes :=
  Writer.list (fun (k, v) => Varint.writeWord k ++ Varint.writeWord v) a.toList

/-- Reads an array; of two cells with one key the later one counts. -/
def read : Reader Sparse := do
  let cells ← Reader.list do return (← Varint.readWord, ← Varint.readWord)
  pure ⟨OrdMap.ofList cells⟩

end Sparse

end ScriptMachine
