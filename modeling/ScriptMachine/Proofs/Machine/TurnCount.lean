import Mathlib.Algebra.BigOperators.Group.List.Basic
import Mathlib.Algebra.Ring.Nat
import ScriptMachine.Proofs.Machine.Newcomers

/-!
# How many turns a tick gives

In a tick no thread has two turns.  A thread that has one sat in the tree when the tick began, or it was started
in the tick, and each start takes an id.  So there are no more turns than there were threads and starts together
(`Managed.turns_counted`), and where every start in the tick is one for a result there are no more turns given
by the scheduler than there were threads.
-/

namespace ScriptMachine

open Machine

namespace ScopeTree

/-- The maps are those at the addresses. -/
theorem map_map?_mapIds (s : ScopeTree) : s.mapIds.map s.map? = s.maps.map some := by
  simp only [mapIds, maps, OrdMap.values, OrdMap.keys, List.map_flatMap, List.flatMap_map, List.map_map]
  refine List.flatMap_congr fun p hp => List.flatMap_congr fun q hq => List.map_congr_left fun r hr => ?_
  have hglobal := OrdMap.mem_entries.1 hp
  have hhub := OrdMap.mem_entries.1 hq
  have hmap := OrdMap.mem_entries.1 hr
  simp only [Function.comp_apply, map?, hub?, global?, hglobal, Option.bind_eq_bind, Option.bind_some, hhub,
    hmap]

/-- A sum over maps, by their ids. -/
theorem sum_maps (s : ScopeTree) (f : MapScope → Nat) :
    (s.maps.map f).sum = (s.mapIds.map fun id => ((s.map? id).map f).getD 0).sum := by
  have h := congrArg (List.map fun map : Option MapScope => (map.map f).getD 0) s.map_map?_mapIds
  rw [List.map_map, List.map_map] at h
  exact congrArg List.sum h.symm

end ScopeTree

namespace Visiting

/-- The seat of the thread that has the turn which the visit gives. -/
def given? (y : Visiting) : Option Seat := y.turn?.map (·.2.seat)

/-- The seats of the threads that have a turn at once in that turn, as their scripts are started for their
results. -/
def atOnce (fuel : Nat) (y : Visiting) : List Seat :=
  match y.turn? with
  | none => []
  | some p => turnEntries quietHost fuel (p.1.noting p.2) p.2

/-- Who is entered in a visit has the turn given to it, or one at once. -/
theorem entries_marks (fuel : Nat) (y : Visiting) :
    entries (y.marks quietHost fuel) = y.given?.toList ++ y.atOnce fuel := by
  cases hturn : y.turn? with
  | none =>
    rw [entries_marks_of_none hturn, given?, atOnce, hturn]
    rfl
  | some p =>
    obtain ⟨u, -, hu, -⟩ := exists_turn hturn
    rw [entries_marks_of_some hu hturn, given?, atOnce, hturn]
    rfl

end Visiting

namespace Machine

variable {fuel : Nat} {m m' b : Machine} {s s' : Seat} {xs : List Visiting} {y : Visiting} {N : List Seat}

/-- The seats of the threads that the scheduler gives turns in a tick. -/
def turnsGiven (fuel : Nat) (m : Machine) : List Seat :=
  (m.tickVisits quietHost fuel).filterMap Visiting.given?

/-- The seats of the threads that have turns at once in a tick, as their scripts are started for their
results. -/
def turnsAtOnce (fuel : Nat) (m : Machine) : List Seat :=
  (m.tickVisits quietHost fuel).flatMap (Visiting.atOnce fuel)

/-- How many threads there are. -/
def threadCount (m : Machine) : Nat := (m.scopes.maps.map (·.threads.length)).sum

/-- How far the ids of threads have come in all maps.  Each start takes one. -/
def idCount (m : Machine) : Nat := (m.scopes.maps.map (·.nextThreadId.toNat)).sum

/-! ## Counting threads by their ids -/

/-- The id that comes next in a map. -/
def nextId (m : Machine) (id : ScopeId) : Nat := ((m.scopes.map? id).map (·.nextThreadId.toNat)).getD 0

/-- The ids that were given away, by the maps. -/
theorem idCount_eq (m : Machine) : m.idCount = (m.scopes.mapIds.map m.nextId).sum := m.scopes.sum_maps _

/-- A seat is known if its id is below the next one of its map. -/
theorem known_iff : m.Known s ↔ s.id.toNat < m.nextId s.scope := by
  unfold Known nextId
  cases m.scopes.map? s.scope with
  | none => simp
  | some map => simp [UInt32.lt_iff_toNat_lt]

instance : Decidable (m.Known s) := decidable_of_iff _ known_iff.symm

/-- Known seats are in maps of the tree. -/
theorem mem_mapIds_of_known (h : m.Known s) : s.scope ∈ m.scopes.mapIds := by
  obtain ⟨map, hmap, -⟩ := h
  exact ScopeTree.mem_mapIds hmap

/-- Threads of a map have ids of their own, whatever module they belong to. -/
theorem Ordered.seat_unique (hm : m.Ordered) (hs : (m.sitter? s).isSome) (hs' : (m.sitter? s').isSome)
    (hscope : s.scope = s'.scope) (hid : s.id = s'.id) : s = s' := by
  obtain ⟨scope, i, k⟩ := s
  obtain ⟨_, i', _⟩ := s'
  cases hscope
  cases hid
  obtain ⟨t, hsit⟩ := Option.isSome_iff_exists.1 hs
  obtain ⟨t', hsit'⟩ := Option.isSome_iff_exists.1 hs'
  obtain ⟨hmem, hk⟩ := mem_of_sitter? hsit
  obtain ⟨hmem', hk'⟩ := mem_of_sitter? hsit'
  obtain ⟨map, x, hmap, hx, ht, -⟩ := exists_threadsAt hmem
  obtain ⟨map', x', hmap', hx', ht', -⟩ := exists_threadsAt hmem'
  cases hmap.symm.trans hmap'
  have heq := (hm scope map hmap).staffed.apart i i' _ _ (MapScope.getElem?_plan hx) (MapScope.getElem?_plan hx')
    t.role (List.mem_map_of_mem ht) t'.role (List.mem_map_of_mem ht') (hk.trans hk'.symm)
  rw [heq]

/-- Threads that sit in the tree are not more than the ids that they may have. -/
theorem Ordered.length_le (hm : m.Ordered) (ids : ScopeId → List Nat) (hN : N.Nodup)
    (hsits : ∀ s ∈ N, (m.sitter? s).isSome) (hids : ∀ s ∈ N, s.id.toNat ∈ ids s.scope) :
    N.length ≤ (m.scopes.mapIds.map fun id => (ids id).length).sum := by
  have hkeys : (N.map fun s => (s.scope, s.id.toNat)).Nodup := by
    refine hN.map_on fun s hs s' hs' heq => ?_
    obtain ⟨hscope, hid⟩ := Prod.mk.inj heq
    exact hm.seat_unique (hsits s hs) (hsits s' hs') hscope (UInt32.toNat_inj.1 hid)
  have hsub : (N.map fun s => (s.scope, s.id.toNat)) ⊆
      m.scopes.mapIds.flatMap fun id => (ids id).map (Prod.mk id) := by
    intro key hkey
    obtain ⟨s, hs, rfl⟩ := List.mem_map.1 hkey
    obtain ⟨t, hsit⟩ := Option.isSome_iff_exists.1 (hsits s hs)
    exact List.mem_flatMap.2 ⟨s.scope, mem_mapIds_of_known (hm.known_of_sitter? hsit),
      List.mem_map_of_mem (hids s hs)⟩
  have hlen := hkeys.length_le_of_subset hsub
  simpa [List.length_flatMap] using hlen

/-- There are as many seats taken as there are threads. -/
theorem Ordered.length_le_threadCount (hm : m.Ordered) (hN : N.Nodup)
    (hsits : ∀ s ∈ N, (m.sitter? s).isSome) : N.length ≤ m.threadCount := by
  have hlen : N.length ≤ _ := hm.length_le
    (fun id => ((m.scopes.map? id).map fun map => map.threads.map (·.id.toNat)).getD []) hN hsits ?_
  · rw [threadCount, ScopeTree.sum_maps]
    refine Nat.le_trans hlen (Nat.le_of_eq (congrArg List.sum (List.map_congr_left fun id _ => ?_)))
    cases m.scopes.map? id with
    | none => rfl
    | some map => exact List.length_map ..
  · intro s hs
    obtain ⟨t, hsit⟩ := Option.isSome_iff_exists.1 (hsits s hs)
    obtain ⟨hmem, hid⟩ := mem_of_sitter? hsit
    obtain ⟨map, x, hmap, hx, ht, -⟩ := exists_threadsAt hmem
    rw [hmap, Option.map_some, Option.getD_some, ← hid]
    exact List.mem_map.2 ⟨t, List.mem_flatMap.2 ⟨x, List.mem_of_getElem? hx, ht⟩, rfl⟩

/-- New threads are not more than the ids that have been taken. -/
theorem Ordered.length_le_of_new (hb : b.Ordered) (hshape : b.scopes.shape = m.scopes.shape)
    (hknown : ∀ s, m.Known s → b.Known s) (hN : N.Nodup) (hsits : ∀ s ∈ N, (b.sitter? s).isSome)
    (hnew : ∀ s ∈ N, ¬ m.Known s) : N.length + m.idCount ≤ b.idCount := by
  have hnext : ∀ id, m.nextId id ≤ b.nextId id := by
    intro id
    cases hmap : b.scopes.map? id with
    | none =>
      have hnone : m.scopes.map? id = none := by
        rw [← Option.not_isSome_iff_eq_none, ← ScopeTree.isSome_map?_eq_of_shape hshape, hmap]
        exact Bool.false_ne_true
      simp [nextId, hnone]
    | some map =>
      have hle := Nat.le_of_not_lt fun hlt => not_known_next hmap 0 (hknown _ (known_iff.2 hlt))
      rw [nextId, nextId, hmap]
      exact hle
  have hlen := hb.length_le (fun id => List.range' (m.nextId id) (b.nextId id - m.nextId id)) hN hsits
    fun s hs => ?_
  · have hsum : (b.scopes.mapIds.map b.nextId).sum = (b.scopes.mapIds.map m.nextId).sum +
        (b.scopes.mapIds.map fun id => b.nextId id - m.nextId id).sum := by
      rw [← List.sum_map_add]
      exact congrArg List.sum (List.map_congr_left fun id _ => (Nat.add_sub_cancel' (hnext id)).symm)
    simp only [List.length_range'] at hlen
    rw [idCount_eq, idCount_eq, ← ScopeTree.mapIds_eq_of_shape hshape]
    omega
  · obtain ⟨t, hsit⟩ := Option.isSome_iff_exists.1 (hsits s hs)
    have hlt := known_iff.1 (hb.known_of_sitter? hsit)
    have hge := mt known_iff.2 (hnew s hs)
    rw [List.mem_range'_1]
    omega

/-! ## Counting the turns of a tick -/

/-- A thread that is entered in a walk, and whose id had been given out, sat there. -/
theorem Walk.sits_of_known (h : Walk quietHost fuel m xs m') (hm : m.Underway) (hfresh : ¬ m'.Exhausted)
    (hknown : m.Known s) (hs : s ∈ entries (xs.flatMap (Visiting.marks quietHost fuel))) :
    (m.sitter? s).isSome := by
  obtain ⟨y, hy, hseat⟩ : ∃ y ∈ xs, y.seat? = some s := by
    by_contra hnone
    exact ((h.bypasses hm hfresh).2.2 s hknown fun y hy hseat => hnone ⟨y, hy, hseat⟩).2.2 hs
  exact (h.newcomers hm hfresh hy hseat).resolve_right fun hnew => hnew.1 hknown

/-- **New threads that are entered** in a walk are not more than the ids that are taken in it. -/
theorem Walk.length_le_of_new (h : Walk quietHost fuel m xs m') (hm : m.Underway) (hfresh : ¬ m'.Exhausted)
    (hN : N.Nodup) (hnew : ∀ s ∈ N, ¬ m.Known s)
    (hentered : ∀ s ∈ N, s ∈ entries (xs.flatMap (Visiting.marks quietHost fuel))) :
    N.length + m.idCount ≤ m'.idCount := by
  induction h generalizing N with
  | nil m =>
    obtain rfl : N = [] := List.eq_nil_iff_forall_not_mem.2 fun s hs => List.not_mem_nil (hentered s hs)
    exact Nat.le_of_eq (Nat.zero_add _)
  | @cons x v b m' xs hrun rest ih =>
    have hbusy := ((ticks_run hm.executing hrun).executing tame_never).trans hm.executing
    have hfreshb : ¬ b.Exhausted := fun he => hfresh (he.mono (rest.trace hbusy))
    have hb := hm.visit hrun hfreshb
    have hround := round_run hm hrun hfreshb
    -- those that the visit starts, and those that are started later
    have hfirst := hb.ordered.length_le_of_new (N := N.filter fun s => b.Known s) hround.shape hround.known
      (hN.filter _) (fun s hs => ?_) fun s hs => hnew s (List.mem_of_mem_filter hs)
    · have hlater := ih hb hfresh (N := N.filter fun s => !b.Known s) (hN.filter _)
        (fun s hs => by simpa using (List.mem_filter.1 hs).2) fun s hs => ?_
      · have hlen := List.length_eq_length_filter_add (l := N) fun s => decide (b.Known s)
        omega
      · obtain ⟨hmem, hunknown⟩ := List.mem_filter.1 hs
        have hall := hentered s hmem
        rw [List.flatMap_cons, entries_append, List.mem_append] at hall
        refine hall.resolve_left fun hown => ?_
        have hknown := (hround.spent s (.inl hown)).1
        simp [hknown] at hunknown
    · obtain ⟨hmem, hknown⟩ := List.mem_filter.1 hs
      have hall := hentered s hmem
      rw [List.flatMap_cons, entries_append, List.mem_append] at hall
      rcases hall with hown | hlater
      · exact hm.sits_of_entered hrun hfreshb hown
      · exact rest.sits_of_known hb hfresh (of_decide_eq_true hknown) hlater

/-- The turns that the visits give, and those within them, are all that is entered. -/
theorem entries_perm (fuel : Nat) (xs : List Visiting) :
    (entries (xs.flatMap (Visiting.marks quietHost fuel))).Perm
      (xs.filterMap Visiting.given? ++ xs.flatMap (Visiting.atOnce fuel)) := by
  induction xs with
  | nil => exact .refl []
  | cons y xs ih =>
    rw [List.flatMap_cons, entries_append, Visiting.entries_marks, List.flatMap_cons, List.append_assoc]
    have hmove : (y.atOnce fuel ++ entries (xs.flatMap (Visiting.marks quietHost fuel))).Perm
        (xs.filterMap Visiting.given? ++ (y.atOnce fuel ++ xs.flatMap (Visiting.atOnce fuel))) :=
      (ih.append_left _).trans (List.perm_append_comm_assoc ..)
    cases hgiven : y.given? with
    | none =>
      rw [List.filterMap_cons_none hgiven]
      exact hmove
    | some s =>
      rw [List.filterMap_cons_some hgiven]
      exact hmove.cons s

/-- Threads that have a turn at once in a visit are new. -/
theorem Underway.unknown_of_atOnce {v : Visit} (hy : y.machine.Underway)
    (hrun : y.run quietHost fuel = some (v, b)) (hfresh : ¬ b.Exhausted) (hs : s ∈ y.atOnce fuel) :
    ¬ y.machine.Known s := by
  intro hknown
  have hround := round_run hy hrun hfresh
  cases hturn : y.turn? with
  | none =>
    rw [Visiting.atOnce, hturn] at hs
    cases hs
  | some p =>
    have hgiven : y.given? = some p.2.seat := by rw [Visiting.given?, hturn]; rfl
    have hentries := Visiting.entries_marks fuel y
    rw [hgiven] at hentries
    -- a thread that was there is entered only as the one that is visited
    have hvisited := (hround.due s (by rw [hentries]; exact List.mem_cons_of_mem _ hs) hknown).1
    rw [Visiting.visited_marks, (hy.begun_turn hturn).2.2] at hvisited
    obtain rfl := List.mem_singleton.1 hvisited
    have hnodup := hround.nodup
    rw [hentries] at hnodup
    exact (List.nodup_cons.1 hnodup).1 hs

/-- **The turns of a tick are counted.**  Where scripts call built-in functions only, no thread has two turns
in a tick.  A thread that the scheduler gives a turn sat in the tree when the tick began, or it was started
in the tick, ahead of the place where the tick was; these are the new threads that the tick comes to, and all
others wait for the next one.  Threads whose scripts are started for their results have a turn at once, and no
other.  So there are no more turns of both kinds than there were threads when the tick began and ids that were
taken in it. -/
theorem Managed.turns_counted (hm : Managed m)
    (hrest : m.executing = false) (hexec : ∀ host, m.exec host fuel = some m') (hfresh : ¬ m'.Exhausted) :
    (m.turnsGiven fuel ++ m.turnsAtOnce fuel).Nodup ∧
      (∀ s ∈ m.turnsGiven fuel, (m.sitter? s).isSome ∨ m.StartedAhead fuel s) ∧
      (∀ s, m.StartedAhead fuel s ↔ ¬ m.Known s ∧ ∃ y ∈ m.tickVisits quietHost fuel, y.seat? = some s) ∧
      (∀ s ∈ m.turnsAtOnce fuel, ¬ m.Known s) ∧
      (m.turnsGiven fuel).length + (m.turnsAtOnce fuel).length + m.idCount ≤ m.threadCount + m'.idCount := by
  obtain ⟨m₁, hmaps, rfl⟩ := visitMaps_of_exec hrest (hexec quietHost)
  have hwalk : Walk quietHost fuel m.begun (m.tickVisits quietHost fuel) m₁ := walk_maps hmaps
  have hfresh₁ : ¬ m₁.Exhausted := hfresh
  have hbegun := hm.underway fun he => hfresh₁ (he.mono (hwalk.trace rfl))
  have hnodup : (entries ((m.tickVisits quietHost fuel).flatMap (Visiting.marks quietHost fuel))).Nodup := by
    rw [← tickMarks_eq]
    exact (hbegun.round_tick hmaps hfresh₁).nodup
  have hperm := entries_perm fuel (m.tickVisits quietHost fuel)
  have hcomes : ∀ s, m.StartedAhead fuel s ↔ ¬ m.Known s ∧
      ∃ y ∈ m.tickVisits quietHost fuel, y.seat? = some s := fun s => hbegun.comes_to hmaps hfresh₁
  refine ⟨hperm.nodup hnodup, fun s hs => ?_, hcomes, fun s hs => ?_, ?_⟩
  · obtain ⟨y, hy, hgiven⟩ := List.mem_filterMap.1 hs
    obtain ⟨p, hturn, rfl⟩ := Option.map_eq_some_iff.1 hgiven
    obtain ⟨before, after, hsplit⟩ := List.append_of_mem hy
    obtain ⟨-, -, -, hunder, -⟩ := (hsplit ▸ hwalk).exists_visit hbegun hfresh₁
    have hseat := (hunder.begun_turn hturn).2.2
    exact (hwalk.newcomers hbegun hfresh₁ hy hseat).imp id fun hnew =>
      (hcomes _).2 ⟨hnew.1, y, hy, hseat⟩
  · obtain ⟨y, hy, hs⟩ := List.mem_flatMap.1 hs
    obtain ⟨before, after, hsplit⟩ := List.append_of_mem hy
    rw [hsplit] at hwalk
    obtain ⟨v, b, hfirst, hunder, hfreshy, hrun, -, hfreshb, -⟩ := hwalk.exists_visit hbegun hfresh₁
    exact fun hknown => hunder.unknown_of_atOnce hrun hfreshb hs (hfirst.known hbegun hfreshy hknown)
  · -- those that were there, and those that are new
    generalize hall : entries ((m.tickVisits quietHost fuel).flatMap (Visiting.marks quietHost fuel)) = all
      at hnodup hperm
    have hold : (all.filter fun s => m.Known s).length ≤ m.threadCount := by
      refine hbegun.ordered.length_le_threadCount (hnodup.filter _) fun s hs => ?_
      obtain ⟨hmem, hknown⟩ := List.mem_filter.1 hs
      exact hwalk.sits_of_known hbegun hfresh₁ (of_decide_eq_true hknown) (hall ▸ hmem)
    have hnew : (all.filter fun s => !m.Known s).length + m.idCount ≤ m₁.idCount := by
      refine hwalk.length_le_of_new hbegun hfresh₁ (hnodup.filter _) (fun s hs => ?_) fun s hs => ?_
      · have hunknown : ¬ m.Known s := by simpa using (List.mem_filter.1 hs).2
        exact hunknown
      · exact hall ▸ (List.mem_filter.1 hs).1
    have hlen := List.length_eq_length_filter_add (l := all) fun s => decide (m.Known s)
    have hsum := hperm.length_eq
    rw [List.length_append] at hsum
    change (m.turnsGiven fuel).length + (m.turnsAtOnce fuel).length + m.idCount ≤ m.threadCount + m₁.idCount
    unfold turnsGiven turnsAtOnce
    omega

/-- A unit whose first script starts the second one for its result, and then the third one. -/
def startingUnit : Bytecode where
  regCount := 0
  arrCount := 0
  strings := []
  functions := []
  scripts := [{
    name := .number 1, type := 0, flags := 0, argCount := 0, regCount := 0, arrCount := 0
    entry := 0 }, {
    name := .number 2, type := 0, flags := 0, argCount := 0, regCount := 0, arrCount := 0
    entry := 13 }, {
    name := .number 3, type := 0, flags := 0, argCount := 0, regCount := 0, arrCount := 0
    entry := 13 }]
  code := [10, 2, 69, 1, 12, 11, 10, 3, 69, 1, 8, 11, 2, 2]

/-- The machine with the unit loaded. -/
def providedMachine : Machine := (smallMachine.loadModule { name := "starting" } startingUnit.write).2

/-- The unit is added to a map and its first script started. -/
def startingMachine : Machine :=
  ((providedMachine.addNamed {} [{ name := "starting" }]).2.serve
    (.start {} (.number 1) [] {})).2

/-- The machine after a tick. -/
def spreadMachine : Machine := (startingMachine.exec quietHost 9).getD startingMachine

/-- How the machine with the first script started comes about. -/
theorem managed_startingMachine : Managed startingMachine := (Managed.make _).launch ..

/-- The tick passes whatever host there is. -/
theorem exec_startingMachine (host : Host) : startingMachine.exec host 9 = some spreadMachine := by
  have hruns : startingMachine.hostFuncs = #[] ∧ (startingMachine.exec quietHost 9).isSome = true := by
    decide +kernel
  obtain ⟨m, hm⟩ := Option.isSome_iff_exists.1 hruns.2
  rw [exec_eq_of_hostFuncs hruns.1, spreadMachine, hm, Option.getD_some]

/-- Where there was one thread, the scheduler gives two turns.  The second one is that of the script that is
started in the tick and not for its result. -/
theorem Managed.turns_counted_starting : Managed startingMachine ∧
    startingMachine.threadCount = 1 ∧ startingMachine.turnsGiven 9 = [⟨{}, 0, 1⟩, ⟨{}, 0, 3⟩] ∧
    startingMachine.turnsAtOnce 9 = [⟨{}, 0, 2⟩] ∧ startingMachine.StartedAhead 9 ⟨{}, 0, 3⟩ ∧
    (startingMachine.turnsGiven 9).length + (startingMachine.turnsAtOnce 9).length + startingMachine.idCount ≤
      startingMachine.threadCount + spreadMachine.idCount := by
  obtain ⟨hrest, hlast, hthreads, hgiven, hatOnce, hnone⟩ : startingMachine.executing = false ∧
      (∀ e ∈ spreadMachine.trace, logEnd? e ≠ some '5') ∧ startingMachine.threadCount = 1 ∧
      startingMachine.turnsGiven 9 = [⟨{}, 0, 1⟩, ⟨{}, 0, 3⟩] ∧
      startingMachine.turnsAtOnce 9 = [⟨{}, 0, 2⟩] ∧ (startingMachine.sitter? ⟨{}, 0, 3⟩).isSome = false := by
    decide +kernel
  have hfresh : ¬ spreadMachine.Exhausted := not_exhausted_of_logEnd? hlast
  obtain ⟨-, hturns, -, -, hcount⟩ :=
    Managed.turns_counted managed_startingMachine hrest exec_startingMachine hfresh
  have hahead : startingMachine.StartedAhead 9 ⟨{}, 0, 3⟩ := by
    refine (hturns _ ?_).resolve_left (by rw [hnone]; exact Bool.false_ne_true)
    rw [hgiven]
    exact List.mem_cons_of_mem _ List.mem_cons_self
  exact ⟨managed_startingMachine, hthreads, hgiven, hatOnce, hahead, hcount⟩

end Machine

end ScriptMachine
