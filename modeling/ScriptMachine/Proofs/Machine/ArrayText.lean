import Mathlib.Data.List.Sort
import Mathlib.Data.Nat.Find
import ScriptMachine.Machine.Step
import ScriptMachine.Proofs.OrdMap

/-!
# The text of an array

Unless the host prints arrays itself, a machine prints an array of a module cell by cell.  The text
one would expect is that of the cells before the first that holds 0 (`Sparse.FilledTo`).  The walk goes
over the cells that are stored, though, and a cell that was never stored, or that a plain store has
emptied, holds 0 without being there: the walk ends at a 0 that is stored and passes over one that is
not.

`Sparse.mem_shownKeys` says which cells the walk comes to, and `Machine.printArray_exact` what is
printed: the expected text first, then whatever lies behind gaps.  The text is the expected one just
when every cell behind the first that holds 0, if it does not hold 0 itself, has a stored 0 before it.
An array that plain stores filled has no stored 0 at all (`Sparse.noZero_stores`), so there it is the
expected one just when nothing lies behind a gap.
-/

namespace ScriptMachine

namespace Sparse

variable {a : Sparse} {k : Nat}

/-- Cell `k` is the first that holds 0, or there is no such cell and `k` is the number of all. -/
structure FilledTo (a : Sparse) (k : Nat) : Prop where
  le_size : k ≤ UInt32.size
  ne_zero : ∀ j : Word, j.toNat < k → a.get j ≠ 0
  eq_zero : ∀ j : Word, j.toNat = k → a.get j = 0

/-- A cell is shown when it does not hold 0 and no 0 is stored before it. -/
def Shown (a : Sparse) (j : Word) : Prop := a.get j ≠ 0 ∧ ∀ i < j, a.cells.find? i ≠ some 0

/-- No cell behind the first `k` is shown. -/
def StopsAt (a : Sparse) (k : Nat) : Prop :=
  ∀ j : Word, k ≤ j.toNat → a.get j ≠ 0 → ∃ i < j, a.cells.find? i = some 0

/-- The first `k` keys. -/
def firstKeys (k : Nat) : List Word := (List.range k).map UInt32.ofNat

/-- The contents of cells as bytes. -/
def bytesAt (a : Sparse) (keys : List Word) : Bytes := keys.map fun j => (a.get j).toUInt8

/-- The keys the walk comes to before it meets a stored 0. -/
def shownKeys (a : Sparse) : List Word := (a.toList.takeWhile (·.2 != 0)).map Prod.fst

/-! ## The first cell that holds 0 -/

/-- Every array is filled up to some key. -/
theorem exists_filledTo (a : Sparse) : ∃ k, a.FilledTo k := by
  classical
  have hends : ∃ k, ∀ j : Word, j.toNat = k → a.get j = 0 :=
    ⟨UInt32.size, fun j hj => absurd j.toNat_lt_size (by omega)⟩
  have hlast : ∀ j : Word, j.toNat = UInt32.size → a.get j = 0 :=
    fun j hj => absurd j.toNat_lt_size (by omega)
  refine ⟨Nat.find hends, Nat.find_min' hends hlast, ?_, Nat.find_spec hends⟩
  intro j hj hzero
  apply Nat.find_min hends hj
  intro i hi
  rwa [UInt32.toNat_inj.1 hi]

/-- There is one such place only. -/
theorem FilledTo.unique (h : a.FilledTo k) {k' : Nat} (h' : a.FilledTo k') : k = k' := by
  have hle : ∀ {n n' : Nat}, a.FilledTo n → a.FilledTo n' → n ≤ n' := by
    intro n n' hn hn'
    by_contra hlt
    have hsize := hn.le_size
    have hkey : (UInt32.ofNat n').toNat = n' := UInt32.toNat_ofNat_of_lt' (by omega)
    exact hn.ne_zero _ (by omega) (hn'.eq_zero _ hkey)
  exact Nat.le_antisymm (hle h h') (hle h' h)

/-- The first keys are those below the number. -/
theorem mem_firstKeys (hk : k ≤ UInt32.size) {j : Word} : j ∈ firstKeys k ↔ j.toNat < k := by
  rw [firstKeys, List.mem_map]
  constructor
  · rintro ⟨n, hn, rfl⟩
    have hlt := List.mem_range.1 hn
    rwa [UInt32.toNat_ofNat_of_lt' (by omega)]
  · intro hj
    exact ⟨j.toNat, List.mem_range.2 hj, UInt32.ofNat_toNat⟩

/-- The first keys stand in order. -/
theorem pairwise_firstKeys (hk : k ≤ UInt32.size) : (firstKeys k).Pairwise (· < ·) := by
  rw [firstKeys, List.pairwise_map]
  refine List.pairwise_lt_range.imp_of_mem fun {i j} hi hj hij => ?_
  have hi := List.mem_range.1 hi
  have hj := List.mem_range.1 hj
  rw [UInt32.lt_iff_toNat_lt, UInt32.toNat_ofNat_of_lt' (by omega), UInt32.toNat_ofNat_of_lt' (by omega)]
  exact hij

end Sparse

/-! ## The walk -/

/-- In a sorted list the walk comes to the bindings that have no 0 at their key or before it. -/
theorem OrdList.mem_takeWhile_ne_zero {l : List (Word × Word)} (hl : Sorted l) {p : Word × Word} :
    p ∈ l.takeWhile (·.2 != 0) ↔ p ∈ l ∧ ∀ q ∈ l, q.1 ≤ p.1 → q.2 ≠ 0 := by
  induction l with
  | nil => simp
  | cons r l ih =>
    obtain ⟨hr, hl⟩ := List.pairwise_cons.1 hl
    have hbefore : ∀ q ∈ l, r.1 < q.1 := fun q hq => Std.compare_eq_lt.1 (hr q hq)
    by_cases hzero : r.2 = 0
    · rw [List.takeWhile_cons_of_neg (by simp [hzero])]
      refine ⟨nofun, fun ⟨hp, hall⟩ => absurd hzero (hall r List.mem_cons_self ?_)⟩
      rcases List.mem_cons.1 hp with rfl | hp
      · exact UInt32.le_refl _
      · exact UInt32.le_of_lt (hbefore p hp)
    · rw [List.takeWhile_cons_of_pos (by simp [hzero]), List.mem_cons, List.mem_cons, ih hl]
      constructor
      · rintro (rfl | ⟨hp, hall⟩)
        · refine ⟨.inl rfl, List.forall_mem_cons.2 ⟨fun _ => hzero, fun q hq hle => ?_⟩⟩
          exact absurd (hbefore q hq) (UInt32.not_lt.2 hle)
        · exact ⟨.inr hp, List.forall_mem_cons.2 ⟨fun _ => hzero, hall⟩⟩
      · rintro ⟨hp, hall⟩
        exact hp.imp_right fun hp => ⟨hp, (List.forall_mem_cons.1 hall).2⟩

namespace Sparse

variable {a : Sparse} {k : Nat}

/-- A key that is found has its value. -/
theorem get_of_find? {j v : Word} (h : a.cells.find? j = some v) : a.get j = v := by
  rw [get, h, Option.getD_some]

/-- The walk comes to the cells that are shown. -/
theorem mem_shownKeys {j : Word} : j ∈ a.shownKeys ↔ a.Shown j := by
  rw [shownKeys, List.mem_map]
  constructor
  · rintro ⟨⟨j, v⟩, hmem, rfl⟩
    obtain ⟨hstored, hall⟩ := (OrdList.mem_takeWhile_ne_zero a.cells.sorted).1 hmem
    refine ⟨?_, fun i hi hzero => ?_⟩
    · rw [get_of_find? (OrdMap.mem_entries.1 hstored)]
      exact hall _ hstored (UInt32.le_refl _)
    · exact hall _ (OrdMap.mem_entries.2 hzero) (UInt32.le_of_lt hi) rfl
  · rintro ⟨hget, hbefore⟩
    cases hfind : a.cells.find? j with
    | none => exact absurd (by rw [get, hfind, Option.getD_none]) hget
    | some v =>
      rw [get_of_find? hfind] at hget
      refine ⟨(j, v), (OrdList.mem_takeWhile_ne_zero a.cells.sorted).2
        ⟨OrdMap.mem_entries.2 hfind, ?_⟩, rfl⟩
      rintro ⟨i, w⟩ hi hle rfl
      have hfound := OrdMap.mem_entries.1 hi
      rcases UInt32.lt_or_eq_of_le hle with hlt | rfl
      · exact hbefore i hlt hfound
      · rw [hfind] at hfound
        exact hget (Option.some.inj hfound)

/-- The keys that are shown stand in order. -/
theorem pairwise_shownKeys (a : Sparse) : a.shownKeys.Pairwise (· < ·) := by
  rw [shownKeys, List.pairwise_map]
  exact (a.cells.sorted.sublist (List.takeWhile_sublist _)).imp Std.compare_eq_lt.1

/-- The contents the walk comes to, as bytes. -/
theorem bytesAt_shownKeys (a : Sparse) :
    a.bytesAt a.shownKeys = ((a.toList.map Prod.snd).takeWhile (· != 0)).map (·.toUInt8) := by
  rw [bytesAt, shownKeys, List.takeWhile_map, List.map_map, List.map_map]
  refine List.map_congr_left fun p hp => ?_
  have hstored : p ∈ a.cells.entries := (List.takeWhile_sublist _).subset hp
  exact congrArg UInt32.toUInt8 (get_of_find? (OrdMap.mem_entries.1 hstored))

theorem bytesAt_append (a : Sparse) (keys keys' : List Word) :
    a.bytesAt (keys ++ keys') = a.bytesAt keys ++ a.bytesAt keys' := List.map_append

/-- The walk comes to the cells before the first that holds 0, and then to what is behind gaps. -/
theorem FilledTo.shownKeys_eq (h : a.FilledTo k) :
    a.shownKeys = firstKeys k ++ a.shownKeys.filter fun j => k ≤ j.toNat := by
  have hfirst : ∀ j : Word, j.toNat < k → a.Shown j := by
    refine fun j hj => ⟨h.ne_zero j hj, fun i hi hzero => ?_⟩
    exact h.ne_zero i (Nat.lt_trans (UInt32.lt_iff_toNat_lt.1 hi) hj) (get_of_find? hzero)
  have hsorted : (firstKeys k ++ a.shownKeys.filter fun j => k ≤ j.toNat).Pairwise (· < ·) := by
    refine List.pairwise_append.2 ⟨pairwise_firstKeys h.le_size, a.pairwise_shownKeys.filter _, ?_⟩
    intro i hi j hj
    have hi := (mem_firstKeys h.le_size).1 hi
    have hj := of_decide_eq_true (List.mem_filter.1 hj).2
    exact UInt32.lt_iff_toNat_lt.2 (Nat.lt_of_lt_of_le hi hj)
  refine a.pairwise_shownKeys.eq_of_mem_iff hsorted fun j => ?_
  rw [List.mem_append, mem_firstKeys h.le_size, List.mem_filter, mem_shownKeys, decide_eq_true_eq]
  constructor
  · intro hj
    exact (Nat.lt_or_ge j.toNat k).imp_right fun hle => ⟨hj, hle⟩
  · rintro (hj | ⟨hj, -⟩)
    · exact hfirst j hj
    · exact hj

/-- Nothing behind the first `k` cells is shown just when a stored 0 is before all of it. -/
theorem stopsAt_iff : a.StopsAt k ↔ ∀ j : Word, k ≤ j.toNat → ¬ a.Shown j := by
  refine forall₂_congr fun j _ => ?_
  simp only [Shown, not_and, not_forall, not_not, exists_prop]

/-! ## Arrays that plain stores filled -/

/-- No cell is stored with a 0 in it. -/
def NoZero (a : Sparse) : Prop := ∀ j, a.cells.find? j ≠ some 0

/-- A plain store stores no 0. -/
theorem NoZero.set (h : a.NoZero) (i v : Word) : (a.set i v).NoZero := by
  intro j
  unfold Sparse.set
  by_cases hv : v = 0
  · rw [if_pos hv, OrdMap.find?_erase]
    split
    · exact nofun
    · exact h j
  · rw [if_neg hv, OrdMap.find?_insert]
    split
    · exact fun heq => hv (Option.some.inj heq)
    · exact h j

/-- No row of plain stores does. -/
theorem noZero_stores (stores : List (Word × Word)) :
    (stores.foldl (fun a s => Sparse.set a s.1 s.2) ({} : Sparse)).NoZero := by
  have hrun : ∀ a : Sparse, a.NoZero → (stores.foldl (fun a s => Sparse.set a s.1 s.2) a).NoZero := by
    induction stores with
    | nil => exact fun _ h => h
    | cons s stores ih => exact fun a h => ih _ (h.set s.1 s.2)
  exact hrun {} fun j => by rw [OrdMap.find?_empty]; exact nofun

/-- Without stored zeros nothing may lie behind the first cell that holds 0. -/
theorem NoZero.stopsAt_iff (h : a.NoZero) : a.StopsAt k ↔ ∀ j : Word, k ≤ j.toNat → a.get j = 0 := by
  refine forall₂_congr fun j _ => ?_
  have hnone : ¬ ∃ i < j, a.cells.find? i = some 0 := fun ⟨i, _, hi⟩ => h i hi
  rw [iff_false_intro hnone, ← not_ne_iff]

end Sparse

namespace Machine

variable {m : Machine} {t : Thread} {a : Sparse}

/-- Different texts make different messages. -/
theorem printed_append_inj {x y : Bytes} :
    ({ t with printed := t.printed ++ x } : Thread) = { t with printed := t.printed ++ y } ↔
      x = y := by
  constructor
  · intro heq
    have hprinted := congrArg (fun u => u.printed.toList) heq
    simpa only [Array.toList_appendList, List.append_cancel_left_eq] using hprinted
  · rintro rfl
    rfl

/-- What is added to the message when the host has no say in it. -/
theorem printArray_eq (hhook : m.hooks.has .printArray = false) {i : Word}
    (harray : (m.scopes.module? t.scope t.moduleIndex).bind (·.vars.arr? i) = some a) :
    m.printArray t i = (m, { t with printed := t.printed ++ a.bytesAt a.shownKeys }) := by
  rw [printArray, harray]
  simp only [hhook, Bool.false_eq_true, if_false, Sparse.bytesAt_shownKeys]

/-- The text of the cells before the first that holds 0 is added to the message, and after it the
text of every further cell that does not hold 0 and has no stored 0 before it, in the order of the
keys.  It ends where it should just when every further cell that does not hold 0 has a stored 0 before
it. -/
theorem printArray_exact (turn : Turn) (args : List Word) (hhook : m.hooks.has .printArray = false)
    (harray : (m.scopes.module? t.scope t.moduleIndex).bind (·.vars.arr? (args.headD 0)) = some a) :
    ∃ k, a.FilledTo k ∧
      (∃ further : List Word, further.Pairwise (· < ·) ∧
        (∀ j, j ∈ further ↔ k ≤ j.toNat ∧ a.Shown j) ∧
        m.callBuiltin turn t .printArray args =
          some (m, { t with
            printed := t.printed ++ (a.bytesAt (Sparse.firstKeys k) ++ a.bytesAt further) })) ∧
      (m.callBuiltin turn t .printArray args =
          some (m, { t with printed := t.printed ++ a.bytesAt (Sparse.firstKeys k) }) ↔
        a.StopsAt k) := by
  obtain ⟨k, hk⟩ := a.exists_filledTo
  have hfurther : ∀ j, j ∈ a.shownKeys.filter (fun j => k ≤ j.toNat) ↔ k ≤ j.toNat ∧ a.Shown j := by
    intro j
    rw [List.mem_filter, Sparse.mem_shownKeys, decide_eq_true_eq, and_comm]
  have hcall : m.callBuiltin turn t .printArray args =
      some (m, { t with printed := t.printed ++ (a.bytesAt (Sparse.firstKeys k) ++
        a.bytesAt (a.shownKeys.filter fun j => k ≤ j.toNat)) }) := by
    refine congrArg some ((printArray_eq hhook harray).trans ?_)
    rw [← Sparse.bytesAt_append, ← hk.shownKeys_eq]
  refine ⟨k, hk, ⟨_, a.pairwise_shownKeys.filter _, hfurther, hcall⟩, ?_⟩
  rw [hcall, Option.some_inj, Prod.mk_inj, eq_self, true_and, printed_append_inj,
    List.append_right_eq_self, Sparse.bytesAt, List.map_eq_nil_iff, Sparse.stopsAt_iff,
    List.eq_nil_iff_forall_not_mem]
  exact forall_congr' fun j => by rw [hfurther, not_and]

/-- An array in which cells 0 and 2 were stored. -/
def gappedArray : Sparse := (({} : Sparse).set 0 97).set 2 99

/-- A machine with one module, whose first array it is. -/
def gappedMachine : Machine := {
  make {} with
  scopes := ⟨OrdMap.ofList [(0, {
    vars := {}
    hubs := OrdMap.ofList [(0, {
      vars := {}
      maps := OrdMap.ofList [(0, {
        modules := [{ module := default, vars := { arrs := #[gappedArray] } }] })] })] })]⟩ }

/-- The array is filled up to its gap. -/
theorem filledTo_gappedArray : gappedArray.FilledTo 1 where
  le_size := by decide
  ne_zero j hj := by
    have hzero : j = 0 := UInt32.toNat_inj.1 (by simpa using hj)
    rw [hzero]
    decide
  eq_zero j hj := by
    have hone : j = 1 := UInt32.toNat_inj.1 hj
    rw [hone]
    decide

/-- Cell 1 holds 0, but it is not stored, and the text goes on with cell 2. -/
theorem printArray_exact_gapped :
    gappedArray.FilledTo 1 ∧ gappedArray.bytesAt (Sparse.firstKeys 1) = [97] ∧
      gappedMachine.callBuiltin (turn (fun _ _ => .done false) 9) { id := 1 } .printArray [0] ≠
        some (gappedMachine, { id := 1, printed := #[97] }) ∧
      gappedMachine.callBuiltin (turn (fun _ _ => .done false) 9) { id := 1 } .printArray [0] =
        some (gappedMachine, { id := 1, printed := #[97, 99] }) := by
  obtain ⟨k, hk, -, hstops⟩ := printArray_exact (m := gappedMachine) (t := { id := 1 })
    (turn (fun _ _ => .done false) 9) [0] (a := gappedArray) rfl rfl
  obtain rfl : 1 = k := filledTo_gappedArray.unique hk
  have hfirst : gappedArray.bytesAt (Sparse.firstKeys 1) = [97] := by decide
  refine ⟨hk, hfirst, fun hcall => ?_, rfl⟩
  have hgap : ¬ gappedArray.StopsAt 1 := by
    have hplain : gappedArray.NoZero := Sparse.noZero_stores [(0, 97), (2, 99)]
    rw [hplain.stopsAt_iff]
    exact fun hall => absurd (hall 2 (by decide)) (by decide)
  exact hgap (hstops.1 hcall)

end Machine

end ScriptMachine
