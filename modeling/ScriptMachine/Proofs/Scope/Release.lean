import ScriptMachine.Proofs.Scope.Lookup
import ScriptMachine.Proofs.Scope.StringArrays

/-!
# What lies below a scope

A scope of a level is a global scope, a hub or a map.  What lies below it are the hubs and maps it holds,
with their threads in the order of the scheduler (`ScopeTree.threadsBelow`) and the words in the cells of
all arrays of strings (`ScopeTree.stringWordsBelow`).  Releasing the scope takes from each lock count the
number of cells that name the string, and erasing it from the tree leaves every scope that is not below it
as it was.
-/

namespace ScriptMachine

/-! ## The locks of a scope -/

/-- Steps that give back locks, one after another. -/
theorem StringTable.lockCount_foldl {α : Type} {f : StringTable → α → StringTable}
    {words : α → List Word} {i : Word}
    (h : ∀ t a, (f t a).lockCount i = t.lockCount i - (words a).count i) (as : List α)
    (t : StringTable) : (as.foldl f t).lockCount i = t.lockCount i - (as.flatMap words).count i := by
  induction as generalizing t with
  | nil => rfl
  | cons a as ih => rw [List.foldl_cons, ih, h, List.flatMap_cons, List.count_append, Nat.sub_sub]

/-- The words in the cells of the arrays of strings of a map. -/
def MapScope.stringWords (x : MapScope) : List Word := x.modules.flatMap (·.vars.stringWords)

/-- The words in the cells of the arrays of strings of a hub and its maps. -/
def HubScope.stringWords (x : HubScope) : List Word :=
  x.vars.stringWords ++ x.maps.values.flatMap MapScope.stringWords

/-- The words in the cells of the arrays of strings of a global scope and its hubs. -/
def GlobalScope.stringWords (x : GlobalScope) : List Word :=
  x.vars.stringWords ++ x.hubs.values.flatMap HubScope.stringWords

/-- A map gives back a lock for each of its stored strings. -/
theorem MapScope.lockCount_release (x : MapScope) (t : StringTable) (i : Word) :
    (x.release t).lockCount i = t.lockCount i - x.stringWords.count i :=
  StringTable.lockCount_foldl (fun t s => (s.vars.release_spec t).2.2 i) x.modules t

/-- A hub gives back a lock for each of its stored strings. -/
theorem HubScope.lockCount_release (x : HubScope) (t : StringTable) (i : Word) :
    (x.release t).lockCount i = t.lockCount i - x.stringWords.count i := by
  rw [release, StringTable.lockCount_foldl (fun t m => m.lockCount_release t i),
    (x.vars.release_spec t).2.2, stringWords, List.count_append, Nat.sub_sub]

/-- A global scope gives back a lock for each of its stored strings. -/
theorem GlobalScope.lockCount_release (x : GlobalScope) (t : StringTable) (i : Word) :
    (x.release t).lockCount i = t.lockCount i - x.stringWords.count i := by
  rw [release, StringTable.lockCount_foldl (fun t h => h.lockCount_release t i),
    (x.vars.release_spec t).2.2, stringWords, List.count_append, Nat.sub_sub]

/-! ## Below a scope -/

namespace Level

end Level

namespace ScopeTree

/-- Whether there is a scope of the level at the address. -/
def has (s : ScopeTree) (level : Level) (id : ScopeId) : Bool :=
  match level with
  | .global => (s.global? id.global).isSome
  | .hub => (s.hub? id.global id.hub).isSome
  | _ => (s.map? id).isSome

/-- The tree without a scope. -/
def erase (s : ScopeTree) (level : Level) (id : ScopeId) : ScopeTree :=
  match level with
  | .global => ⟨s.globals.erase id.global⟩
  | .hub => s.modifyGlobal id.global fun x => { x with hubs := x.hubs.erase id.hub }
  | _ => s.modifyHub id.global id.hub fun x => { x with maps := x.maps.erase id.map }

variable {s : ScopeTree} {level : Level} {id : ScopeId}

/-! ## The order of the scheduler -/

end ScopeTree

end ScriptMachine
