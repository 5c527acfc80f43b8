import ScriptMachine.Proofs.StringTable.RoundTrip
import ScriptMachine.Scope.Tree

/-!
# What a table is apart from marks and buckets

Marks are set anew by every collection, and which bucket a string is in follows from its content.
`StringTable.plain` leaves both out; tables are alike when they are the same then.  Locks, contents
and saved bytes can be told from the plain table.  Interning looks into the buckets and a collection
goes by the marks it sets, so alike tables have to be well-formed to stay alike.
-/

namespace ScriptMachine

namespace StringTable

variable {t u : StringTable}

/-- The table without marks and buckets. -/
def plain (t : StringTable) : StringTable :=
  { slots := t.slots.map (Option.map unmark), free := t.free }

/-- Tables are alike if they are the same without marks and the order of buckets. -/
theorem alike_iff : Alike t u ↔ u.plain = t.plain := by
  constructor
  · rintro ⟨hslots, hfree⟩
    rw [plain, plain, hslots, hfree]
  · intro h
    have hfree : u.plain.free = t.plain.free := by rw [h]
    exact ⟨congrArg slots h, hfree⟩

/-- Entries of the plain table are not marked. -/
theorem get?_plain (t : StringTable) (i : Word) : t.plain.get? i = (t.get? i).map unmark := by
  simp only [get?, plain, Array.getElem?_map]
  cases t.slots[i.toNat]? <;> rfl

@[simp] theorem bytes?_plain (t : StringTable) (i : Word) : t.plain.bytes? i = t.bytes? i := by
  simp only [bytes?, get?_plain, Option.map_map]
  rfl

@[simp] theorem capacity_plain (t : StringTable) : t.plain.capacity = t.capacity :=
  Array.size_map ..

@[simp] theorem size_plain (t : StringTable) : t.plain.size = t.size := by
  simp only [size, plain, Array.size_map]

/-- What changes entries whether they are marked or not changes the plain table. -/
theorem plain_update {f : StringEntry → StringEntry} (hf : ∀ e, unmark (f e) = f (unmark e))
    (t : StringTable) (i : Word) : (t.update i f).plain = t.plain.update i f := by
  have hslots : (t.slots.modify i.toNat (Option.map f)).map (Option.map unmark) =
      (t.slots.map (Option.map unmark)).modify i.toNat (Option.map f) := by
    apply Array.ext_getElem?
    intro k
    simp only [Array.getElem?_map, Array.getElem?_modify]
    split
    · cases t.slots[k]? with
      | none => rfl
      | some s => cases s <;> simp [hf]
    · rfl
  simp only [plain, update, hslots]

@[simp] theorem lock_plain (t : StringTable) (i : Word) : t.plain.lock i = (t.lock i).plain := by
  refine (plain_update (fun e => ?_) t i).symm
  rfl

@[simp] theorem unlock_plain (t : StringTable) (i : Word) : t.plain.unlock i = (t.unlock i).plain := by
  refine (plain_update (fun e => ?_) t i).symm
  rfl

/-- What can be told from the plain table at every step can be told from it at the end. -/
theorem foldl_plain {α : Type} {f : StringTable → α → StringTable}
    (hf : ∀ t a, f t.plain a = (f t a).plain) (l : List α) (t : StringTable) :
    l.foldl f t.plain = (l.foldl f t).plain := by
  induction l generalizing t with
  | nil => rfl
  | cons a l ih => rw [List.foldl_cons, hf, ih, List.foldl_cons]

@[simp] theorem unlockAll_plain (t : StringTable) (is : List Word) :
    t.plain.unlockAll is = (t.unlockAll is).plain :=
  foldl_plain unlock_plain is t

/-- The plain table is written as the table is. -/
@[simp] theorem write_plain (t : StringTable) : t.plain.write = t.write := by
  have hslot : ∀ s : Option StringEntry, writeSlot (s.map unmark) = writeSlot s := by
    intro s
    cases s <;> rfl
  simp only [write, plain, Array.toList_map, Writer.list, List.length_map, List.flatMap_map, hslot]

/-- Alike tables give a content the same index, and are alike then. -/
theorem plain_intern (ht : t.Wellformed) (hu : u.Wellformed) (h : u.plain = t.plain) (b : Bytes) :
    (u.intern b).1 = (t.intern b).1 ∧ (u.intern b).2.plain = (t.intern b).2.plain := by
  have halike := alike_iff.2 h
  have hfind := halike.find? ht hu b
  have hsize : u.slots.size = t.slots.size := by
    simpa using congrArg Array.size halike.slots
  have hnext : u.nextIndex = t.nextIndex := by rw [nextIndex, nextIndex, halike.free, hsize]
  cases hb : t.find? b (hash b) with
  | some i =>
    rw [intern_old hb, intern_old (hfind.trans hb)]
    exact ⟨rfl, h⟩
  | none =>
    rw [intern_new hb, intern_new (hfind.trans hb)]
    refine ⟨hnext, ?_⟩
    have hslots : ∀ (v : StringTable) (i : Nat) (e : StringEntry),
        (place v.slots i e).map (Option.map unmark) =
          place (v.slots.map (Option.map unmark)) i (unmark e) := by
      intro v i e
      unfold place
      rw [Array.size_map]
      split
      · rw [Array.map_setIfInBounds]
        rfl
      · rw [Array.map_push]
        rfl
    simp only [plain, hslots, halike.slots, halike.free, hnext]
    rfl

/-- A collection: what is marked in between is kept. -/
def collected (t : StringTable) (is : List Word) : Nat × StringTable :=
  (t.beginCollection.markAll is).endCollection

/-- Marking looks at slots only. -/
theorem markAll_congr (hslots : u.slots = t.slots) (hfree : u.free = t.free) (is : List Word) :
    (u.markAll is).slots = (t.markAll is).slots ∧ (u.markAll is).free = (t.markAll is).free := by
  induction is generalizing t u with
  | nil => exact ⟨hslots, hfree⟩
  | cons i is ih =>
    refine ih (t := t.mark i) (u := u.mark i) ?_ hfree
    rw [mark, mark, update, update, hslots]

/-- Alike tables lose the same strings, and are alike then. -/
theorem plain_collected (h : u.plain = t.plain) (is : List Word) :
    (u.collected is).1 = (t.collected is).1 ∧
      (u.collected is).2.plain = (t.collected is).2.plain := by
  have halike := alike_iff.2 h
  obtain ⟨hslots, hfree⟩ := markAll_congr (t := t.beginCollection) (u := u.beginCollection)
    halike.slots halike.free is
  simp only [collected, endCollection, entries, plain, hslots, hfree, and_self]

end StringTable

/-! ## Variables that hold strings -/

namespace Vars

theorem releaseArray_plain (v : Vars) (t : StringTable) (i : Word) :
    releaseArray (v, t.plain) i =
      ((releaseArray (v, t) i).1, (releaseArray (v, t) i).2.plain) := by
  simp only [releaseArray, Sparse.clearStrings, StringTable.unlockAll_plain]
  split <;> rfl

@[simp] theorem release_plain (v : Vars) (t : StringTable) :
    v.release t.plain = ((v.release t).1, (v.release t).2.plain) := by
  unfold release
  induction OrdSet.members v.stringArrays generalizing v t with
  | nil => rfl
  | cons i is ih =>
    rw [List.foldl_cons, List.foldl_cons, releaseArray_plain]
    exact ih _ _

end Vars

@[simp] theorem MapScope.release_plain (m : MapScope) (t : StringTable) :
    m.release t.plain = (m.release t).plain := by
  refine StringTable.foldl_plain (fun t s => ?_) m.modules t
  rw [Vars.release_plain]

@[simp] theorem HubScope.release_plain (h : HubScope) (t : StringTable) :
    h.release t.plain = (h.release t).plain := by
  unfold release
  rw [Vars.release_plain]
  exact StringTable.foldl_plain (fun t m => m.release_plain t) h.maps.values _

@[simp] theorem GlobalScope.release_plain (x : GlobalScope) (t : StringTable) :
    x.release t.plain = (x.release t).plain := by
  unfold release
  rw [Vars.release_plain]
  exact StringTable.foldl_plain (fun t h => h.release_plain t) x.hubs.values _

end ScriptMachine
