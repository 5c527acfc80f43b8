import ScriptMachine.Sparse

/-!
# Variables of a scope

Every global, hub and module scope owns registers and arrays, their numbers fixed when the scope is
made.  Reading past the end gives 0 and writing there does nothing.  An array may be declared to
hold strings; script stores into it then keep the lock counts in step, and the locks are given back
when the scope goes.
-/

namespace ScriptMachine

/-- Registers and arrays of one scope. -/
structure Vars where
  regs : Array Word := #[]
  arrs : Array Sparse := #[]
  /-- The arrays that hold strings. -/
  stringArrays : OrdSet Word := {}
deriving DecidableEq, Inhabited

namespace Vars

/-- All registers 0 and all arrays empty. -/
def make (regs arrs : Word) : Vars :=
  { regs := Array.replicate regs.toNat 0, arrs := Array.replicate arrs.toNat {} }

/-- The content of a register. -/
def reg (v : Vars) (i : Word) : Word := v.regs[i.toNat]?.getD 0

/-- Whether there is such a register. -/
def hasReg (v : Vars) (i : Word) : Bool := i.toNat < v.regs.size

/-- Changes a register. -/
def modifyReg (v : Vars) (i : Word) (f : Word → Word) : Vars :=
  { v with regs := v.regs.modify i.toNat f }

/-- Writes a register. -/
def setReg (v : Vars) (i w : Word) : Vars := v.modifyReg i fun _ => w

/-- An array. -/
def arr? (v : Vars) (i : Word) : Option Sparse := v.arrs[i.toNat]?

/-- Changes an array. -/
def modifyArr (v : Vars) (i : Word) (f : Sparse → Sparse) : Vars :=
  { v with arrs := v.arrs.modify i.toNat f }

/-- The content of a cell of an array. -/
def cell (v : Vars) (i k : Word) : Word := ((v.arr? i).map (·.get k)).getD 0

/-- Declares whether an array holds strings. -/
def setStringArray (v : Vars) (i : Word) (strings : Bool) : Vars :=
  { v with
    stringArrays := if strings then OrdSet.add v.stringArrays i else v.stringArrays.erase i }

/-- Whether an array was declared to hold strings. -/
def isStringArray (v : Vars) (i : Word) : Bool := v.stringArrays.contains i

/-- The store of a script into an array. -/
def store (v : Vars) (i k w : Word) (t : StringTable) : Vars × StringTable :=
  match v.arr? i with
  | none => (v, t)
  | some a =>
    if v.isStringArray i then
      let (a, t) := a.setString k w t
      (v.modifyArr i fun _ => a, t)
    else (v.modifyArr i fun a => a.set k w, t)

/-- Empties the array of strings `i` and gives its locks back. -/
def releaseArray (vt : Vars × StringTable) (i : Word) : Vars × StringTable :=
  match vt.1.arr? i with
  | none => vt
  | some a =>
    let (a, t) := a.clearStrings vt.2
    (vt.1.modifyArr i fun _ => a, t)

/-- Gives back every lock the arrays of strings hold, and empties them. -/
def release (v : Vars) (t : StringTable) : Vars × StringTable :=
  (OrdSet.members v.stringArrays).foldl releaseArray (v, t)

/-- The words a collection of strings takes for references. -/
def references (v : Vars) : List Word := v.regs.toList ++ v.arrs.toList.flatMap Sparse.references

/-- Writes the variables. -/
def write (v : Vars) : Bytes :=
  Writer.words v.regs.toList ++ Writer.list Sparse.write v.arrs.toList ++
    Writer.words (OrdSet.members v.stringArrays)

/-- Reads variables. -/
def read : Reader Vars := do
  let regs ← Reader.words
  let arrs ← Reader.list Sparse.read
  let strings ← Reader.words
  pure { regs := regs.toArray, arrs := arrs.toArray, stringArrays := OrdSet.ofList strings }

end Vars

end ScriptMachine
