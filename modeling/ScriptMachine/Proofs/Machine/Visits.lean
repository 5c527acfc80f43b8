import ScriptMachine.Proofs.Machine.Standing

/-!
# The visits of a tick

`Machine.tickVisits` lists the visits of a tick, in order, each with the machine as it begins.  One visit
begins where the one before ended, so they make up a walk (`Machine.Walk`).  What is noted of a tick is what
is noted of its visits (`tickMarks_eq`).

A thread of an active map that was there when the tick began has one visit, and neither the visits before nor
those after change more of it than its state (`Managed.attended`).
-/

namespace ScriptMachine

open Machine

/-- A visit: the machine as it begins, and the place in the tree. -/
structure Visiting where
  machine : Machine
  scope : ScopeId
  moduleIndex : Nat
  index : Nat

namespace Visiting

/-- The thread that is visited. -/
def thread? (x : Visiting) : Option Thread :=
  if x.machine.scopes.isActive x.scope then (x.machine.threadsAt x.scope x.moduleIndex)[x.index]?
  else none

/-- The seat that is visited. -/
def seat? (x : Visiting) : Option Seat := x.thread?.map fun u => ⟨x.scope, x.moduleIndex, u.id⟩

/-- The machine and the thread as the turn begins that the visit gives. -/
def turn? (x : Visiting) : Option (Machine × Thread) :=
  x.machine.visitedTurn? x.scope x.moduleIndex x.index

/-- What the visit comes to. -/
def run (host : Host) (fuel : Nat) (x : Visiting) : Option (Visit × Machine) :=
  x.machine.visit (turn host fuel) x.scope x.moduleIndex x.index

/-- What is noted of the visit. -/
def marks (host : Host) (fuel : Nat) (x : Visiting) : List Mark :=
  x.machine.visitMarks host fuel x.scope x.moduleIndex x.index

variable {x : Visiting} {s : Seat} {u : Thread}

/-- A visit is to the thread at its place, in a map that is active. -/
theorem thread?_eq_some : x.thread? = some u ↔ x.machine.scopes.isActive x.scope = true ∧
    (x.machine.threadsAt x.scope x.moduleIndex)[x.index]? = some u := by
  unfold thread?
  split
  · rename_i hactive
    simp [hactive]
  · rename_i hactive
    simp [hactive]

/-- A visit is to the seat of its thread. -/
theorem seat?_eq_some : x.seat? = some s ↔
    ∃ u, x.thread? = some u ∧ s = ⟨x.scope, x.moduleIndex, u.id⟩ := by
  rw [seat?, Option.map_eq_some_iff]
  exact exists_congr fun u => and_congr_right fun _ => eq_comm

/-- Whoever is visited is marked once. -/
theorem visited_marks (host : Host) (fuel : Nat) (x : Visiting) :
    visited (x.marks host fuel) = x.seat?.toList := by
  unfold marks visitMarks seat? thread?
  cases hactive : x.machine.scopes.isActive x.scope with
  | false => rfl
  | true =>
    simp only [Bool.not_true, Bool.false_eq_true, if_false, if_true]
    cases (x.machine.threadsAt x.scope x.moduleIndex)[x.index]? with
    | none => rfl
    | some u =>
      dsimp only
      cases x.machine.visitedTurn? x.scope x.moduleIndex x.index with
      | none => rfl
      | some p => exact congrArg _ (visited_enters _)

/-- A visit to a thread that nothing keeps and that has not had its turn in this tick. -/
theorem run_of_due {host : Host} {fuel : Nat} (hu : x.thread? = some u) (hlive : u.state.isFinished = false)
    (hrunnable : (x.machine.isRunnable x.scope u.state).1 = true) (hstamp : u.lastTick ≠ x.machine.tick) :
    ∃ m₀, Works x.scope x.machine m₀ ∧ m₀.scopes = x.machine.scopes ∧ m₀.tick = x.machine.tick ∧
      x.run host fuel = m₀.takeTurn (turn host fuel) x.scope x.moduleIndex x.index u ∧
      x.turn? = if 0 < (u.awake x.machine.tick).delay then none
        else some (m₀.detach x.scope x.moduleIndex (fun _ => x.index) u.id, u.awake x.machine.tick) := by
  obtain ⟨hactive, hat⟩ := thread?_eq_some.1 hu
  rw [getElem?_threadsAt] at hat
  have hasked := works_isRunnable x.scope u.state (m := x.machine)
  have htree : (x.machine.isRunnable x.scope u.state).2.scopes = x.machine.scopes := by
    unfold isRunnable
    split <;> first | rfl | (split <;> rfl)
  have htick : (x.machine.isRunnable x.scope u.state).2.tick = x.machine.tick :=
    hasked.stirs.evolves.tick
  unfold run turn? visit visitedTurn?
  simp only [hactive, Bool.not_true, Bool.false_eq_true, if_false, hat, hlive, hrunnable, htick,
    Bool.false_or, beq_iff_eq, hstamp]
  -- the message that the thread resumes
  split
  · exact ⟨_, hasked, htree, htick, rfl, by rw [htick]; rfl⟩
  · exact ⟨_, hasked.trans (works_log ..), htree, htick, rfl, by rw [← htick]; rfl⟩

/-- A visit that gives no turn enters nobody. -/
theorem entries_marks_of_none {host : Host} {fuel : Nat} (h : x.turn? = none) :
    entries (x.marks host fuel) = [] := by
  have hvisited := visited_marks host fuel x
  unfold turn? at h
  unfold marks visitMarks at hvisited ⊢
  split
  · rfl
  · cases (x.machine.threadsAt x.scope x.moduleIndex)[x.index]? with
    | none => rfl
    | some u =>
      simp only [h]
      rfl

/-- The first thread that is entered in a visit is the one that is visited. -/
theorem entries_marks_of_some {host : Host} {fuel : Nat} {n : Machine} {w : Thread} (hu : x.thread? = some u)
    (h : x.turn? = some (n, w)) :
    entries (x.marks host fuel) = entered (turnEntries host fuel) n w := by
  obtain ⟨hactive, hat⟩ := thread?_eq_some.1 hu
  unfold turn? at h
  unfold marks visitMarks
  simp only [hactive, Bool.not_true, Bool.false_eq_true, if_false, hat, h]
  exact entries_enters _

/-- What a visit comes to: a thread that has ended is removed, nothing happens to one that is kept or has had
its turn in this tick, a delay is lowered, or the turn begins. -/
theorem run_cases {host : Host} {fuel : Nat} {v : Visit} {b : Machine} (hu : x.thread? = some u)
    (h : x.run host fuel = some (v, b)) :
    (u.state.isFinished = true ∧ b = x.machine.reap x.scope x.moduleIndex x.index ∧ x.turn? = none) ∨
      u.state.isFinished = false ∧
        ((¬ ((x.machine.isRunnable x.scope u.state).1 = true ∧ u.lastTick ≠ x.machine.tick) ∧
            Works x.scope x.machine b ∧ b.scopes = x.machine.scopes ∧ x.turn? = none) ∨
          ((x.machine.isRunnable x.scope u.state).1 = true ∧ u.lastTick ≠ x.machine.tick ∧
            ∃ m₀, Works x.scope x.machine m₀ ∧ m₀.scopes = x.machine.scopes ∧
              ((0 < (u.awake x.machine.tick).delay ∧ x.turn? = none ∧
                  b = m₀.modifyThreadAt x.scope x.moduleIndex x.index fun _ => u.awake x.machine.tick) ∨
                ((u.awake x.machine.tick).delay = 0 ∧
                  x.turn? = some (m₀.detach x.scope x.moduleIndex (fun _ => x.index) u.id,
                    u.awake x.machine.tick))))) := by
  obtain ⟨hactive, hat⟩ := thread?_eq_some.1 hu
  rw [getElem?_threadsAt] at hat
  rcases visit_cases h with ⟨-, -, hnone⟩ | ⟨u', hu', -, hcases⟩
  · rw [hnone hactive] at hat
    cases hat
  cases hat.symm.trans hu'
  rcases hcases with ⟨hend, -, rfl, hturn⟩ | ⟨hlive, -, n, hworks, hscopes, hrest⟩
  · exact .inl ⟨hend, rfl, hturn⟩
  refine .inr ⟨hlive, ?_⟩
  by_cases hdue : (x.machine.isRunnable x.scope u.state).1 = true ∧ u.lastTick ≠ x.machine.tick
  · obtain ⟨m₀, hworks₀, hscopes₀, htick₀, hrun, hturn⟩ :=
      @run_of_due x u host fuel hu hlive hdue.1 hdue.2
    refine .inr ⟨hdue.1, hdue.2, m₀, hworks₀, hscopes₀, ?_⟩
    by_cases hdelay : 0 < (u.awake x.machine.tick).delay
    · rw [if_pos hdelay] at hturn
      rw [hrun, takeTurn, htick₀] at h
      rw [if_pos (by exact hdelay)] at h
      cases h
      exact .inl ⟨hdelay, hturn, rfl⟩
    · rw [if_neg hdelay] at hturn
      exact .inr ⟨by simpa using hdelay, hturn⟩
  · have htick : n.tick = x.machine.tick := hworks.stirs.evolves.tick
    rw [htick] at hrest
    rcases hrest with ⟨rfl, hturn⟩ | ⟨hrunnable, hstamp, -⟩ | ⟨hrunnable, hstamp, -⟩
    · exact .inl ⟨hdue, hworks, hscopes, hturn⟩
    · exact absurd ⟨hrunnable, hstamp⟩ hdue
    · exact absurd ⟨hrunnable, hstamp⟩ hdue

/-- How the turn begins that a visit gives. -/
theorem exists_turn {p : Machine × Thread} (h : x.turn? = some p) : ∃ u m₀, x.thread? = some u ∧
    Works x.scope x.machine m₀ ∧ m₀.scopes = x.machine.scopes ∧ u.state.isFinished = false ∧
      u.lastTick ≠ x.machine.tick ∧
      p = (m₀.detach x.scope x.moduleIndex (fun _ => x.index) u.id, u.awake x.machine.tick) := by
  cases hu : x.thread? with
  | none =>
    unfold thread? at hu
    unfold turn? visitedTurn? at h
    split at hu
    · rename_i hactive
      rw [getElem?_threadsAt] at hu
      simp [hactive, hu] at h
    · rename_i hactive
      simp [hactive] at h
  | some u =>
    obtain ⟨hactive, hat⟩ := thread?_eq_some.1 hu
    rw [getElem?_threadsAt] at hat
    have hturn := h
    unfold turn? visitedTurn? at h
    simp only [hactive, Bool.not_true, Bool.false_eq_true, if_false, hat] at h
    have htick : (x.machine.isRunnable x.scope u.state).2.tick = x.machine.tick :=
      (works_isRunnable x.scope u.state (m := x.machine)).stirs.evolves.tick
    split at h
    · cases h
    · rename_i hlive
      split at h
      · cases h
      · rename_i hdue
        rw [htick, Bool.or_eq_true, Bool.not_eq_true', beq_iff_eq, not_or, Bool.not_eq_false] at hdue
        have hlive : u.state.isFinished = false := by simpa using hlive
        obtain ⟨m₀, hworks, hscopes, -, -, heq⟩ :=
          @run_of_due x u quietHost 0 hu hlive hdue.1 hdue.2
        rw [hturn] at heq
        split at heq
        · cases heq
        · cases heq
          exact ⟨u, m₀, rfl, hworks, hscopes, hlive, hdue.2, rfl⟩

/-- The thread that is visited has the turn. -/
theorem turn?_snd {host : Host} {fuel : Nat} {v : Visit} {b n : Machine} {w : Thread}
    (hu : x.thread? = some u) (h : x.run host fuel = some (v, b)) (hturn : x.turn? = some (n, w)) :
    w = u.awake x.machine.tick := by
  rcases run_cases hu h with ⟨-, -, hnone⟩ | ⟨-, ⟨-, -, -, hnone⟩ | ⟨-, -, m₀, -, -, ⟨-, hnone, -⟩ |
    ⟨-, hsome⟩⟩⟩
  · cases hnone.symm.trans hturn
  · cases hnone.symm.trans hturn
  · cases hnone.symm.trans hturn
  · cases hsome.symm.trans hturn
    rfl

end Visiting

namespace Machine

open Thread

/-! ## The visits of a tick -/

/-- The visits to the threads of a module scope from a place on. -/
def threadVisits (host : Host) (fuel : Nat) (scope : ScopeId) (i : Nat) :
    (n j : Nat) → Machine → List Visiting
  | 0, _, _ => []
  | n + 1, j, m =>
    ⟨m, scope, i, j⟩ ::
      match m.visit (turn host fuel) scope i j with
      | some (.removed, m) => threadVisits host fuel scope i n j m
      | some (.next, m) => threadVisits host fuel scope i n (j + 1) m
      | _ => []

/-- The visits to the module scopes of a map from a number on. -/
def moduleVisits (host : Host) (fuel : Nat) (scope : ScopeId) : (n i : Nat) → Machine → List Visiting
  | 0, _, _ => []
  | n + 1, i, m =>
    match m.scopes.map? scope with
    | none => []
    | some map =>
      if i < map.modules.length then
        threadVisits host fuel scope i n 0 m ++
          match visitThreads (turn host fuel) scope i n 0 m with
          | none => []
          | some m => moduleVisits host fuel scope n (i + 1) m
      else []

/-- The visits to maps. -/
def mapVisits (host : Host) (fuel : Nat) : List ScopeId → Machine → List Visiting
  | [], _ => []
  | scope :: rest, m =>
    if m.scopes.isActive scope then
      moduleVisits host fuel scope fuel 0 m ++
        match visitModules (turn host fuel) scope fuel 0 m with
        | none => []
        | some m => mapVisits host fuel rest m
    else mapVisits host fuel rest m

/-- The machine as the visits of a tick begin. -/
def begun (m : Machine) : Machine := { m with executing := true, tick := m.tick + 1 }

/-- The visits of a tick that begins at rest. -/
def tickVisits (host : Host) (fuel : Nat) (m : Machine) : List Visiting :=
  mapVisits host fuel m.scopes.mapIds m.begun

section

variable {host : Host} {fuel : Nat} {scope : ScopeId} {i n j : Nat} {m m' : Machine}

/-- The marks of a module scope are those of its visits. -/
theorem threadMarks_eq : threadMarks host fuel scope i n j m =
    (threadVisits host fuel scope i n j m).flatMap (Visiting.marks host fuel) := by
  induction n generalizing j m with
  | zero => rfl
  | succ n ih =>
    unfold threadMarks threadVisits
    rw [List.flatMap_cons]
    refine congrArg _ ?_
    cases m.visit (turn host fuel) scope i j with
    | none => rfl
    | some p =>
      obtain ⟨v, m₁⟩ := p
      cases v with
      | finished => rfl
      | removed => exact ih
      | next => exact ih

/-- The marks of a map are those of its visits. -/
theorem moduleMarks_eq : moduleMarks host fuel scope n i m =
    (moduleVisits host fuel scope n i m).flatMap (Visiting.marks host fuel) := by
  induction n generalizing i m with
  | zero => rfl
  | succ n ih =>
    unfold moduleMarks moduleVisits
    cases m.scopes.map? scope with
    | none => rfl
    | some map =>
      dsimp only
      split
      · rw [List.flatMap_append, threadMarks_eq]
        refine congrArg _ ?_
        cases visitThreads (turn host fuel) scope i n 0 m with
        | none => rfl
        | some m₁ => exact ih
      · rfl

/-- The marks of all maps are those of their visits. -/
theorem mapMarks_eq {scopes : List ScopeId} : mapMarks host fuel scopes m =
    (mapVisits host fuel scopes m).flatMap (Visiting.marks host fuel) := by
  induction scopes generalizing m with
  | nil => rfl
  | cons scope rest ih =>
    unfold mapMarks mapVisits
    split
    · rw [List.flatMap_append, moduleMarks_eq]
      refine congrArg _ ?_
      cases visitModules (turn host fuel) scope fuel 0 m with
      | none => rfl
      | some m₁ => exact ih
    · exact ih

/-- What is noted of a tick is what is noted of its visits. -/
theorem tickMarks_eq (host : Host) (fuel : Nat) (m : Machine) :
    m.tickMarks host fuel = (m.tickVisits host fuel).flatMap (Visiting.marks host fuel) :=
  mapMarks_eq

/-- The visits tell who is visited. -/
theorem visited_flatMap (xs : List Visiting) :
    visited (xs.flatMap (Visiting.marks host fuel)) = xs.filterMap Visiting.seat? := by
  induction xs with
  | nil => rfl
  | cons x xs ih =>
    rw [List.flatMap_cons, visited_append, ih, Visiting.visited_marks]
    cases hseat : x.seat? with
    | none => rw [List.filterMap_cons_none hseat]; rfl
    | some s => rw [List.filterMap_cons_some hseat]; rfl

/-- Visits one after another, each of which begins where the one before ended. -/
inductive Walk (host : Host) (fuel : Nat) : Machine → List Visiting → Machine → Prop
  | nil (m : Machine) : Walk host fuel m [] m
  | cons {x : Visiting} {v : Visit} {m m' : Machine} {xs : List Visiting}
      (h : x.run host fuel = some (v, m)) (rest : Walk host fuel m xs m') :
    Walk host fuel x.machine (x :: xs) m'

/-- Walking on. -/
theorem Walk.append {m'' : Machine} {xs ys : List Visiting} (h : Walk host fuel m xs m')
    (h' : Walk host fuel m' ys m'') : Walk host fuel m (xs ++ ys) m'' := by
  induction h with
  | nil => exact h'
  | cons h _ ih => exact .cons h (ih h')

/-- A walk is cut in two. -/
theorem Walk.exists_of_append {xs ys : List Visiting} (h : Walk host fuel m (xs ++ ys) m') :
    ∃ a, Walk host fuel m xs a ∧ Walk host fuel a ys m' := by
  induction xs generalizing m with
  | nil => exact ⟨m, .nil m, h⟩
  | cons x xs ih =>
    cases h with
    | cons h rest =>
      obtain ⟨a, hfirst, hlast⟩ := ih rest
      exact ⟨a, .cons h hfirst, hlast⟩

/-- Each of the visits begins where a walk of those before it ends. -/
def Leads (host : Host) (fuel : Nat) (m : Machine) (xs : List Visiting) : Prop :=
  ∀ before x after, xs = before ++ x :: after → Walk host fuel m before x.machine

theorem leads_nil (m : Machine) : Leads host fuel m [] := by
  rintro before x after h
  cases before <;> cases h

/-- Visits that lead on from where others end. -/
theorem Leads.append {xs ys : List Visiting} (hxs : Leads host fuel m xs)
    (hys : ys ≠ [] → ∃ m', Walk host fuel m xs m' ∧ Leads host fuel m' ys) :
    Leads host fuel m (xs ++ ys) := by
  rintro before x after h
  rcases List.append_eq_append_iff.1 h with ⟨before', rfl, heq⟩ | ⟨after', rfl, heq⟩
  · obtain ⟨m', hwalk, hleads⟩ := hys (heq ▸ List.append_ne_nil_of_right_ne_nil _ (List.cons_ne_nil _ _))
    exact hwalk.append (hleads before' x after heq)
  · cases after' with
    | nil =>
      obtain ⟨m', hwalk, hleads⟩ := hys fun hnil => by rw [hnil] at heq; cases heq
      rw [List.append_nil] at hwalk
      have hfirst := hwalk.append (hleads [] x after heq.symm)
      rwa [List.append_nil] at hfirst
    | cons y after' =>
      cases heq
      exact hxs before x after' rfl

/-- **A walk over threads** is a visit and, unless that comes to the end, the walk over the other threads. -/
theorem threads_cases (h : visitThreads (turn host fuel) scope i (n + 1) j m = some m') :
    ∃ v b, (⟨m, scope, i, j⟩ : Visiting).run host fuel = some (v, b) ∧
      (v = .finished ∧ b = m' ∧ threadVisits host fuel scope i (n + 1) j m = [⟨m, scope, i, j⟩] ∨
        v ≠ .finished ∧
          visitThreads (turn host fuel) scope i n (if v = .removed then j else j + 1) b = some m' ∧
          threadVisits host fuel scope i (n + 1) j m = ⟨m, scope, i, j⟩ ::
            threadVisits host fuel scope i n (if v = .removed then j else j + 1) b) := by
  unfold visitThreads at h
  rw [threadVisits]
  cases hvisit : m.visit (turn host fuel) scope i j with
  | none =>
    rw [hvisit] at h
    cases h
  | some p =>
    obtain ⟨v, b⟩ := p
    rw [hvisit] at h
    refine ⟨v, b, hvisit, ?_⟩
    cases v with
    | finished => exact .inl ⟨rfl, Option.some.inj h, rfl⟩
    | removed => exact .inr ⟨by rintro ⟨⟩, h, rfl⟩
    | next => exact .inr ⟨by rintro ⟨⟩, h, rfl⟩

/-- **A walk over module scopes** is at the end, or it is a walk over the threads of one and the walk over the
other module scopes. -/
theorem modules_cases (h : visitModules (turn host fuel) scope (n + 1) i m = some m') :
    m' = m ∧ moduleVisits host fuel scope (n + 1) i m = [] ∨
      ∃ b, visitThreads (turn host fuel) scope i n 0 m = some b ∧
        visitModules (turn host fuel) scope n (i + 1) b = some m' ∧
        moduleVisits host fuel scope (n + 1) i m =
          threadVisits host fuel scope i n 0 m ++ moduleVisits host fuel scope n (i + 1) b := by
  unfold visitModules at h
  rw [moduleVisits]
  cases hmap : m.scopes.map? scope with
  | none =>
    rw [hmap] at h
    exact .inl ⟨(Option.some.inj h).symm, rfl⟩
  | some map =>
    simp only [hmap] at h ⊢
    by_cases hlt : i < map.modules.length
    · rw [if_pos hlt] at h ⊢
      cases hthreads : visitThreads (turn host fuel) scope i n 0 m with
      | none =>
        rw [hthreads] at h
        cases h
      | some b =>
        rw [hthreads] at h
        exact .inr ⟨b, rfl, h, rfl⟩
    · rw [if_neg hlt] at h ⊢
      exact .inl ⟨(Option.some.inj h).symm, rfl⟩

/-- **A walk over maps** passes over a map that is not active. -/
theorem maps_cases {rest : List ScopeId}
    (h : visitMaps (turn host fuel) fuel (scope :: rest) m = some m') :
    m.scopes.isActive scope ≠ true ∧ visitMaps (turn host fuel) fuel rest m = some m' ∧
        mapVisits host fuel (scope :: rest) m = mapVisits host fuel rest m ∨
      m.scopes.isActive scope = true ∧ ∃ b, visitModules (turn host fuel) scope fuel 0 m = some b ∧
        visitMaps (turn host fuel) fuel rest b = some m' ∧
        mapVisits host fuel (scope :: rest) m =
          moduleVisits host fuel scope fuel 0 m ++ mapVisits host fuel rest b := by
  unfold visitMaps at h
  rw [mapVisits]
  by_cases hactive : m.scopes.isActive scope = true
  · rw [if_pos hactive] at h ⊢
    cases hmodules : visitModules (turn host fuel) scope fuel 0 m with
    | none =>
      rw [hmodules] at h
      cases h
    | some b =>
      rw [hmodules] at h
      exact .inr ⟨hactive, b, rfl, h, rfl⟩
  · rw [if_neg hactive] at h ⊢
    exact .inl ⟨hactive, h, rfl⟩

/-- The visits to the threads of a module scope are a walk. -/
theorem walk_threads (h : visitThreads (turn host fuel) scope i n j m = some m') :
    Walk host fuel m (threadVisits host fuel scope i n j m) m' := by
  induction n generalizing j m with
  | zero => cases h
  | succ n ih =>
    obtain ⟨v, b, hrun, ⟨-, rfl, hvisits⟩ | ⟨-, hrest, hvisits⟩⟩ := threads_cases h
    · rw [hvisits]
      exact .cons hrun (.nil _)
    · rw [hvisits]
      exact .cons hrun (ih hrest)

/-- The visits to the module scopes of a map are a walk. -/
theorem walk_modules (h : visitModules (turn host fuel) scope n i m = some m') :
    Walk host fuel m (moduleVisits host fuel scope n i m) m' := by
  induction n generalizing i m with
  | zero => cases h
  | succ n ih =>
    obtain ⟨rfl, hvisits⟩ | ⟨b, hthreads, hrest, hvisits⟩ := modules_cases h
    · rw [hvisits]
      exact .nil _
    · rw [hvisits]
      exact (walk_threads hthreads).append (ih hrest)

/-- The visits to all maps are a walk. -/
theorem walk_maps {scopes : List ScopeId} (h : visitMaps (turn host fuel) fuel scopes m = some m') :
    Walk host fuel m (mapVisits host fuel scopes m) m' := by
  induction scopes generalizing m with
  | nil =>
    cases h
    exact .nil _
  | cons scope rest ih =>
    obtain ⟨-, hrest, hvisits⟩ | ⟨-, b, hmodules, hrest, hvisits⟩ := maps_cases h
    · rw [hvisits]
      exact ih hrest
    · rw [hvisits]
      exact (walk_modules hmodules).append (ih hrest)

/-- Each visit to a module scope begins where those before it end. -/
theorem leads_threads (n j : Nat) (m : Machine) :
    Leads host fuel m (threadVisits host fuel scope i n j m) := by
  induction n generalizing j m with
  | zero => exact leads_nil m
  | succ n ih =>
    unfold threadVisits
    have hone : Leads host fuel m [⟨m, scope, i, j⟩] := by
      rintro before x after h
      cases before with
      | nil =>
        cases h
        exact .nil m
      | cons y before => cases before <;> cases h
    refine hone.append fun hne => ?_
    cases hvisit : m.visit (turn host fuel) scope i j with
    | none =>
      rw [hvisit] at hne
      exact absurd rfl hne
    | some p =>
      obtain ⟨v, m₁⟩ := p
      have hfirst : (⟨m, scope, i, j⟩ : Visiting).run host fuel = some (v, m₁) := hvisit
      refine ⟨m₁, .cons hfirst (.nil m₁), ?_⟩
      cases v with
      | finished => exact leads_nil m₁
      | removed => exact ih j m₁
      | next => exact ih (j + 1) m₁

/-- Each visit to a map begins where those before it end. -/
theorem leads_modules (n i : Nat) (m : Machine) :
    Leads host fuel m (moduleVisits host fuel scope n i m) := by
  induction n generalizing i m with
  | zero => exact leads_nil m
  | succ n ih =>
    unfold moduleVisits
    cases m.scopes.map? scope with
    | none => exact leads_nil m
    | some map =>
      dsimp only
      split
      · refine (leads_threads n 0 m).append fun hne => ?_
        cases hthreads : visitThreads (turn host fuel) scope i n 0 m with
        | none =>
          rw [hthreads] at hne
          exact absurd rfl hne
        | some m₁ => exact ⟨m₁, walk_threads hthreads, ih (i + 1) m₁⟩
      · exact leads_nil m

/-- **The visits of a tick** begin one where the other ends, also where the tick does not end. -/
theorem leads_maps (scopes : List ScopeId) (m : Machine) :
    Leads host fuel m (mapVisits host fuel scopes m) := by
  induction scopes generalizing m with
  | nil => exact leads_nil m
  | cons scope rest ih =>
    unfold mapVisits
    split
    · refine (leads_modules fuel 0 m).append fun hne => ?_
      cases hmodules : visitModules (turn host fuel) scope fuel 0 m with
      | none =>
        rw [hmodules] at hne
        exact absurd rfl hne
      | some m₁ => exact ⟨m₁, walk_modules hmodules, ih m₁⟩
    · exact ih m

/-- A tick that begins at rest walks over all maps. -/
theorem visitMaps_of_exec (hrest : m.executing = false) (h : m.exec host fuel = some m') :
    ∃ m₁, visitMaps (turn host fuel) fuel m.scopes.mapIds m.begun = some m₁ ∧
      { m₁ with executing := false } = m' := by
  rw [exec, execWith, if_neg (by simp [hrest])] at h
  exact Option.map_eq_some_iff.1 h

/-- **A tick is a walk** of its visits. -/
theorem walk_exec (hrest : m.executing = false) (h : m.exec host fuel = some m') :
    ∃ m₁, Walk host fuel m.begun (m.tickVisits host fuel) m₁ ∧ { m₁ with executing := false } = m' := by
  obtain ⟨m₁, hmaps, hend⟩ := visitMaps_of_exec hrest h
  exact ⟨m₁, walk_maps hmaps, hend⟩

end

/-! ## What a walk does to a thread -/

/-- Between two visits of a tick the machine is in order, and no thread is out of the tree. -/
structure Underway (m : Machine) : Prop where
  executing : m.executing = true
  ordered : m.Ordered
  filled : m.Filled

variable {fuel : Nat} {m m' b : Machine} {x : Visiting} {xs : List Visiting} {v : Visit} {s : Seat}
  {t u : Thread}

/-- Where no thread is out of the tree, a seat is taken by a real one. -/
theorem Filled.real_of_sitter? (hm : m.Filled) (hsit : m.sitter? s = some t) : t.isPlaceholder = false := by
  obtain ⟨map, place, hmap, hplace, hmem, -⟩ := exists_threadsAt (mem_of_sitter? hsit).1
  exact hm _ map hmap place (List.mem_of_getElem? hplace) _ hmem

/-- The run of a visit. -/
theorem ticks_run (hx : x.machine.executing = true) (h : x.run quietHost fuel = some (v, b)) :
    Ticks Never x.machine b :=
  ticks_visit (acts_turn (obeys_quietHost Never) tame_never) hx h

/-- A visit leaves a tick under way. -/
theorem Underway.visit (hx : x.machine.Underway) (h : x.run quietHost fuel = some (v, b))
    (hfresh : ¬ b.Exhausted) : b.Underway := by
  have hticks := ticks_run hx.executing h
  obtain ⟨hordered, hfilled⟩ := hticks.orderly hx.ordered hx.filled hfresh
  exact ⟨(hticks.executing tame_never).trans hx.executing, hordered, hfilled⟩

/-- The trace only grows along a walk. -/
theorem Walk.trace (h : Walk quietHost fuel m xs m') (hm : m.executing = true) :
    m.trace <:+ m'.trace := by
  induction h with
  | nil => exact List.suffix_refl _
  | cons h _ ih =>
    have hticks := ticks_run hm h
    exact hticks.trace.trans (ih ((hticks.executing tame_never).trans hm))

/-- Scripts run along a walk. -/
theorem Walk.busy (h : Walk quietHost fuel m xs m') (hm : m.executing = true) : m'.executing = true := by
  induction h with
  | nil => exact hm
  | cons h _ ih => exact ih (((ticks_run hm h).executing tame_never).trans hm)

/-- What single visits keep, a walk keeps. -/
theorem Walk.along {R : Machine → List Visiting → Machine → Prop} (h : Walk quietHost fuel m xs m')
    (hm : m.Underway) (hfresh : ¬ m'.Exhausted) (hnil : ∀ m, R m [] m)
    (hcons : ∀ {x v b xs m'}, x.machine.Underway → x.run quietHost fuel = some (v, b) →
      ¬ b.Exhausted → R b xs m' → R x.machine (x :: xs) m') : m'.Underway ∧ R m xs m' := by
  induction h with
  | nil m => exact ⟨hm, hnil m⟩
  | @cons x v b m' xs h rest ih =>
    have hbusy := ((ticks_run hm.executing h).executing tame_never).trans hm.executing
    have hfresh₁ : ¬ b.Exhausted := fun he => hfresh (he.mono (rest.trace hbusy))
    obtain ⟨hm', hrest⟩ := ih (hm.visit h hfresh₁) hfresh
    exact ⟨hm', hcons hm h hfresh₁ hrest⟩

/-- A walk leaves a tick under way. -/
theorem Walk.underway (h : Walk quietHost fuel m xs m') (hm : m.Underway) (hfresh : ¬ m'.Exhausted) :
    m'.Underway :=
  (h.along (R := fun _ _ _ => True) hm hfresh (fun _ => trivial) fun _ _ _ _ => trivial).1

/-- A visit of a walk. -/
theorem Walk.exists_visit {before after : List Visiting}
    (h : Walk quietHost fuel m (before ++ x :: after) m') (hm : m.Underway) (hfresh : ¬ m'.Exhausted) :
    ∃ v b, Walk quietHost fuel m before x.machine ∧ x.machine.Underway ∧ ¬ x.machine.Exhausted ∧
      x.run quietHost fuel = some (v, b) ∧ b.Underway ∧ ¬ b.Exhausted ∧ Walk quietHost fuel b after m' := by
  obtain ⟨a, hfirst, hrest⟩ := h.exists_of_append
  obtain ⟨v, b, hrun, hlast, rfl⟩ : ∃ v b, x.run quietHost fuel = some (v, b) ∧
      Walk quietHost fuel b after m' ∧ a = x.machine := by
    cases hrest with
    | cons h rest => exact ⟨_, _, h, rest, rfl⟩
  have hbusy : x.machine.executing = true := hfirst.busy hm.executing
  have hbusy' : b.executing = true := ((ticks_run hbusy hrun).executing tame_never).trans hbusy
  have hfreshb : ¬ b.Exhausted := fun he => hfresh (he.mono (hlast.trace hbusy'))
  have hfreshx : ¬ x.machine.Exhausted := fun he => hfreshb (he.mono (ticks_run hbusy hrun).trace)
  have hx := hfirst.underway hm hfreshx
  exact ⟨v, b, hfirst, hx, hfreshx, hrun, hx.visit hrun hfreshb, hfreshb, hlast⟩

/-- A walk is a course. -/
theorem Walk.course {home : ScopeId} (h : Walk quietHost fuel m xs m') (hm : m.Underway)
    (hfresh : ¬ m'.Exhausted) : Moment.Course .tick home ⟨m, []⟩ ⟨m', []⟩ :=
  (h.along (R := fun m _ m' => Moment.Course .tick home ⟨m, []⟩ ⟨m', []⟩) hm hfresh (fun _ => .refl)
    fun hx hrun hfresh₁ hrest => (Moment.course_visit hx.ordered hrun hfresh₁).1.trans hrest).2

/-- A visit is a round over its seat. -/
theorem round_run (hx : x.machine.Underway) (h : x.run quietHost fuel = some (v, b))
    (hfresh : ¬ b.Exhausted) :
    x.machine.Round (fun s => x.seat? = some s) (x.marks quietHost fuel) b := by
  cases hu : x.thread? with
  | none =>
    have hseat : x.seat? = none := by rw [Visiting.seat?, hu]; rfl
    have hmarks : x.marks quietHost fuel = [] := by
      unfold Visiting.thread? at hu
      unfold Visiting.marks visitMarks
      split at hu
      · rename_i hactive
        simp [hactive, hu]
      · rename_i hactive
        simp [hactive]
    rcases visit_cases h with ⟨-, rfl, -⟩ | ⟨u, hat, hactive, -⟩
    · rw [hmarks]
      refine .nil rfl rfl fun s hs => ?_
      rw [hseat] at hs
      cases hs
    · rw [← getElem?_threadsAt] at hat
      cases hu.symm.trans (Visiting.thread?_eq_some.2 ⟨hactive, hat⟩)
  | some u =>
    obtain ⟨hactive, hat⟩ := Visiting.thread?_eq_some.1 hu
    have hround := (round_visit (obeys_quietHost Never) hx.executing hx.ordered hx.filled hat hactive h
      hfresh).1
    refine hround.congr (fun s hs => ?_) fun s hs _ _ _ => ?_
    · exact Visiting.seat?_eq_some.2 ⟨u, hu, hs⟩
    · obtain ⟨u', hu', hs⟩ := Visiting.seat?_eq_some.1 hs
      cases hu.symm.trans hu'
      exact hs

/-- The thread that is visited sits in the seat. -/
theorem sitter?_of_seat? (hx : x.machine.Underway) (hseat : x.seat? = some s) :
    ∃ u, x.thread? = some u ∧ x.machine.sitter? s = some u ∧ u.isPlaceholder = false ∧
      x.machine.Known s := by
  obtain ⟨u, hu, rfl⟩ := Visiting.seat?_eq_some.1 hseat
  obtain ⟨-, hat⟩ := Visiting.thread?_eq_some.1 hu
  exact ⟨u, hu, hx.ordered.distinct.sitter? hat, hx.filled.real (getElem?_threadsAt ▸ hat),
    hx.ordered.known (List.mem_of_getElem? hat)⟩

/-- Ids that have been given out stay given out. -/
theorem Walk.known (h : Walk quietHost fuel m xs m') (hm : m.Underway) (hfresh : ¬ m'.Exhausted)
    (hs : m.Known s) : m'.Known s :=
  (h.along (R := fun m _ m' => m.Known s → m'.Known s) hm hfresh (fun _ => id)
    fun hx hrun hfresh₁ hrest hs => hrest ((round_run hx hrun hfresh₁).known s hs)).2 hs

/-- **Visits to others** leave a thread as it is but for its state, and it is not entered. -/
theorem Walk.bypasses (h : Walk quietHost fuel m xs m') (hm : m.Underway) (hfresh : ¬ m'.Exhausted) :
    m'.tick = m.tick ∧ m'.scopes.shape = m.scopes.shape ∧ ∀ s, m.Known s →
      (∀ x ∈ xs, x.seat? ≠ some s) → m'.Known s ∧
        Option.Rel Thread.Restates (m.sitter? s) (m'.sitter? s) ∧
        s ∉ entries (xs.flatMap (Visiting.marks quietHost fuel)) := by
  have hnil : ∀ (m : Machine) s, Option.Rel Thread.Restates (m.sitter? s) (m.sitter? s) := by
    intro m s
    cases m.sitter? s with
    | none => exact .none
    | some t => exact .some (.refl t)
  refine (h.along (R := fun m xs m' => m'.tick = m.tick ∧ m'.scopes.shape = m.scopes.shape ∧
    ∀ s, m.Known s → (∀ x ∈ xs, x.seat? ≠ some s) → m'.Known s ∧
      Option.Rel Thread.Restates (m.sitter? s) (m'.sitter? s) ∧
      s ∉ entries (xs.flatMap (Visiting.marks quietHost fuel))) hm hfresh
    (fun m => ⟨rfl, rfl, fun s hs _ => ⟨hs, hnil m s, nofun⟩⟩) ?_).2
  rintro x v b xs m' hx hrun hfresh₁ ⟨htick, hshape, hrest⟩
  have hround := round_run hx hrun hfresh₁
  refine ⟨htick.trans hround.tick, hshape.trans hround.shape, fun s hs hnot => ?_⟩
  have hown : s ∉ visited (x.marks quietHost fuel) := by
    rw [Visiting.visited_marks, Option.mem_toList]
    exact hnot x List.mem_cons_self
  obtain ⟨hknown, hrel', hentries⟩ := hrest s (hround.known s hs) fun y hy =>
    hnot y (List.mem_cons_of_mem _ hy)
  have hrel := hround.stay s hs hown
  refine ⟨hknown, ?_, ?_⟩
  · generalize x.machine.sitter? s = p, b.sitter? s = q, m'.sitter? s = r at hrel hrel'
    cases hrel with
    | none => exact hrel'
    | some hr =>
      cases hrel' with
      | some hr' => exact .some (hr.trans hr')
  · rw [List.flatMap_cons, entries_append, List.mem_append, not_or]
    exact ⟨fun hmem => hown (hround.due s hmem hs).1, hentries⟩

/-- A thread that has had its turn in this tick is as it is but for its state, as long as it keeps its
seat. -/
theorem Walk.rests (h : Walk quietHost fuel m xs m') (hm : m.Underway) (hfresh : ¬ m'.Exhausted)
    (hs : m.Spent s) : m'.Spent s ∧ ∀ t', m'.sitter? s = some t' →
      ∃ t, m.sitter? s = some t ∧ t.Restates t' := by
  refine (h.along (R := fun m xs m' => m.Spent s → m'.Spent s ∧ ∀ t', m'.sitter? s = some t' →
    ∃ t, m.sitter? s = some t ∧ t.Restates t') hm hfresh (fun m hs => ⟨hs, fun t' ht' =>
      ⟨t', ht', .refl t'⟩⟩) ?_).2 hs
  intro x v b xs m' hx hrun hfresh₁ hrest hs
  have hround := round_run hx hrun hfresh₁
  obtain ⟨hspent, hback⟩ := hrest (hround.spent s (.inr hs))
  refine ⟨hspent, fun t' ht' => ?_⟩
  obtain ⟨w, hw, hrestates⟩ := hback t' ht'
  suffices hfirst : ∃ t, x.machine.sitter? s = some t ∧ t.Restates w by
    obtain ⟨t, ht, hr⟩ := hfirst
    exact ⟨t, ht, hr.trans hrestates⟩
  by_cases hseat : x.seat? = some s
  · -- the visit finds that the thread has had its turn
    obtain ⟨u, hu, hsit, hreal, -⟩ := sitter?_of_seat? hx hseat
    have hstamp : u.lastTick = x.machine.tick := by
      rcases hs.2 u hsit with hplace | hstamp
      · cases hreal.symm.trans hplace
      · exact hstamp
    refine ⟨u, hsit, ?_⟩
    obtain ⟨u₀, hu₀, rfl⟩ := Visiting.seat?_eq_some.1 hseat
    cases hu.symm.trans hu₀
    obtain ⟨-, hat⟩ := Visiting.thread?_eq_some.1 hu
    rcases Visiting.run_cases hu hrun with ⟨-, rfl, -⟩ | ⟨-, ⟨-, -, hscopes, -⟩ | ⟨-, hnew, -⟩⟩
    · rw [hx.ordered.distinct.sitter?_reap hat, if_pos rfl] at hw
      cases hw
    · rw [sitter?, threadsAt_congr hscopes] at hw
      cases hsit.symm.trans hw
      exact .refl w
    · exact absurd hstamp hnew
  · have hrel := hround.stay s hs.1 (by
      rw [Visiting.visited_marks, Option.mem_toList]
      exact hseat)
    rw [hw] at hrel
    generalize x.machine.sitter? s = p at hrel
    cases hrel with
    | some hr => exact ⟨_, rfl, hr⟩

/-! ## The visit of a thread -/

/-- In the tick from `m` to `m'` the thread `t` in the seat `s` has the visit `x`.  There it is `u`, and `b`
is what the visit leaves. -/
structure Attends (fuel : Nat) (s : Seat) (t : Thread) (m : Machine) (before : List Visiting)
    (x : Visiting) (after : List Visiting) (u : Thread) (b m' : Machine) : Prop where
  visits : m.tickVisits quietHost fuel = before ++ x :: after
  seat : x.seat? = some s
  once : ∀ y ∈ before ++ after, y.seat? ≠ some s
  walkBefore : Walk quietHost fuel m.begun before x.machine
  run : ∃ v, x.run quietHost fuel = some (v, b)
  walkAfter : ∃ m₁, Walk quietHost fuel b after m₁ ∧ { m₁ with executing := false } = m'
  underway : x.machine.Underway
  left : b.Underway
  tick : x.machine.tick = m.tick + 1
  thread : x.thread? = some u
  restates : t.Restates u
  real : u.isPlaceholder = false
  unspent : u.lastTick ≠ x.machine.tick
  stays : Option.Rel Thread.Restates (b.sitter? s) (m'.sitter? s)
  /-- The thread is entered in the tick just if the visit gives it a turn. -/
  entered : s ∈ entries (m.tickMarks quietHost fuel) ↔ ∃ p, x.turn? = some p

/-- Ids that are fresh at the end of a tick were fresh before. -/
theorem Attends.fresh {before after : List Visiting} (h : Attends fuel s t m before x after u b m')
    (hfresh : ¬ m'.Exhausted) : ¬ m.Exhausted ∧ ¬ x.machine.Exhausted ∧ ¬ b.Exhausted := by
  obtain ⟨v, hrun⟩ := h.run
  obtain ⟨m₁, hlast, rfl⟩ := h.walkAfter
  have hfreshb : ¬ b.Exhausted := fun he => hfresh (he.mono (hlast.trace h.left.executing))
  have hfreshx : ¬ x.machine.Exhausted := fun he =>
    hfreshb (he.mono (ticks_run h.underway.executing hrun).trace)
  exact ⟨fun he => hfreshx (he.mono (h.walkBefore.trace rfl)), hfreshx, hfreshb⟩

/-- A tick is under way when it has begun. -/
theorem Managed.underway (hm : Managed m) (hfresh : ¬ m.Exhausted) :
    m.begun.Underway :=
  ⟨rfl, (hm.ordered hfresh).of_scopes rfl, hm.filled hfresh⟩

/-- A tick is a round through all maps. -/
theorem Underway.round_tick (hm : m.begun.Underway)
    (h : visitMaps (turn quietHost fuel) fuel m.scopes.mapIds m.begun = some m') (hfresh : ¬ m'.Exhausted) :
    m.begun.Round (·.scope ∈ m.scopes.mapIds) (m.tickMarks quietHost fuel) m' :=
  round_maps (obeys_quietHost Never) m.scopes.pairwise_mapIds rfl hm.ordered hm.filled h hfresh

/-- A thread of an active map is visited, and only once. -/
theorem Managed.visited_once (hm : Managed m) (hrest : m.executing = false)
    (hexec : m.exec quietHost fuel = some m') (hfresh : ¬ m'.Exhausted) (hsit : m.sitter? s = some t)
    (hactive : m.scopes.isActive s.scope = true) :
    ∃ before x after, m.tickVisits quietHost fuel = before ++ x :: after ∧ x.seat? = some s ∧
      ∀ y ∈ before ++ after, y.seat? ≠ some s := by
  obtain ⟨m₁, hmaps, rfl⟩ := visitMaps_of_exec hrest hexec
  have hfresh₁ : ¬ m₁.Exhausted := hfresh
  have hfresh₀ : ¬ m.Exhausted := fun he => hfresh₁ (he.mono ((walk_maps hmaps).trace rfl))
  have hknown : m.begun.Known s := (hm.ordered hfresh₀).known_of_sitter? hsit
  have hround := (hm.underway hfresh₀).round_tick hmaps hfresh₁
  have hvisited : visited (m.tickMarks quietHost fuel) =
      (m.tickVisits quietHost fuel).filterMap Visiting.seat? := by
    rw [tickMarks_eq, visited_flatMap]
  have hmem : s ∈ (m.tickVisits quietHost fuel).filterMap Visiting.seat? := by
    obtain ⟨map, hmap, -⟩ := id hknown
    rw [← hvisited]
    exact hround.covers s (ScopeTree.mem_mapIds hmap) hknown hactive (Option.isSome_iff_exists.2 ⟨t, hsit⟩)
  obtain ⟨x, hx, hseat⟩ := List.mem_filterMap.1 hmem
  obtain ⟨before, after, hsplit⟩ := List.append_of_mem hx
  refine ⟨before, x, after, hsplit, hseat, ?_⟩
  -- the seats are visited in their order
  have hsorted := hround.sorted
  rw [hvisited, hsplit, List.filterMap_append, List.filterMap_cons_some hseat, List.pairwise_append,
    List.pairwise_cons] at hsorted
  obtain ⟨-, ⟨hafter, -⟩, hbefore⟩ := hsorted
  intro y hy hys
  rcases List.mem_append.1 hy with hy | hy
  · exact s.not_before_self (hbefore s (List.mem_filterMap.2 ⟨y, hy, hys⟩) s List.mem_cons_self)
  · exact s.not_before_self (hafter s (List.mem_filterMap.2 ⟨y, hy, hys⟩))

/-- The thread that a visit comes to is entered just if the visit gives it a turn. -/
theorem Underway.mem_entries_marks (hx : x.machine.Underway) (hseat : x.seat? = some s)
    (hrun : x.run quietHost fuel = some (v, b)) :
    s ∈ entries (x.marks quietHost fuel) ↔ ∃ p, x.turn? = some p := by
  constructor
  · intro hmem
    cases hturn : x.turn? with
    | none =>
      rw [Visiting.entries_marks_of_none hturn] at hmem
      cases hmem
    | some p => exact ⟨p, rfl⟩
  · rintro ⟨⟨n, w⟩, hturn⟩
    obtain ⟨u, hu, rfl⟩ := Visiting.seat?_eq_some.1 hseat
    have hmem := List.mem_of_getElem? (Visiting.thread?_eq_some.1 hu).2
    obtain ⟨u', hu', -, hreal, -⟩ := sitter?_of_seat? hx hseat
    cases hu.symm.trans hu'
    have hown : u.seat = ⟨x.scope, x.moduleIndex, u.id⟩ := hx.ordered.seat_eq hmem hreal
    have hplace : w.seat = ⟨x.scope, x.moduleIndex, u.id⟩ := by
      rw [Visiting.turn?_snd hu hrun hturn]
      exact hown
    rw [Visiting.entries_marks_of_some hu hturn]
    exact hplace ▸ List.mem_cons_self

/-- **Every thread of an active map has its visit.** -/
theorem Managed.attended (hm : Managed m) (hrest : m.executing = false)
    (hexec : m.exec quietHost fuel = some m') (hfresh : ¬ m'.Exhausted) (hsit : m.sitter? s = some t)
    (hactive : m.scopes.isActive s.scope = true) :
    ∃ before x after u b, Attends fuel s t m before x after u b m' := by
  obtain ⟨before, x, after, hsplit, hseat, honce⟩ := hm.visited_once hrest hexec hfresh hsit hactive
  obtain ⟨m₁, hwalk, rfl⟩ := walk_exec hrest hexec
  have hfresh₁ : ¬ m₁.Exhausted := hfresh
  have hfresh₀ : ¬ m.Exhausted := fun he => hfresh₁ (he.mono (hwalk.trace rfl))
  have hbegun := hm.underway hfresh₀
  have hknown : m.begun.Known s := (hm.ordered hfresh₀).known_of_sitter? hsit
  rw [hsplit] at hwalk
  obtain ⟨v, b, hfirst, hx, hfreshx, hrun, hb, hfreshb, hlast⟩ := hwalk.exists_visit hbegun hfresh₁
  -- the visits before and after are to other seats
  obtain ⟨htick, -, hbypass⟩ := hfirst.bypasses hbegun hfreshx
  obtain ⟨hknownx, hrel, hnot⟩ := hbypass s hknown fun y hy => honce y (List.mem_append_left _ hy)
  obtain ⟨-, -, hbypass'⟩ := hlast.bypasses hb hfresh₁
  obtain ⟨-, hrel', hnot'⟩ := hbypass' s ((round_run hx hrun hfreshb).known s hknownx) fun y hy =>
    honce y (List.mem_append_right _ hy)
  obtain ⟨u, hu, hsitx, hreal, -⟩ := sitter?_of_seat? hx hseat
  have hrestates : t.Restates u := by
    have hsit' : m.begun.sitter? s = some t := hsit
    rw [hsit', hsitx] at hrel
    cases hrel with
    | some hr => exact hr
  refine ⟨before, x, after, u, b, hsplit, hseat, honce, hfirst, ⟨v, hrun⟩, ⟨m₁, hlast, rfl⟩, hx, hb, htick,
    hu, hrestates, hreal, ?_, hrel', ?_⟩
  · -- ticks that were noted before lie in the past
    obtain ⟨map, place, hmap, hplace, hmem, -⟩ := exists_threadsAt (mem_of_sitter? hsit).1
    have hpast := (hm.settled s.scope map hmap place (List.mem_of_getElem? hplace) t hmem).past
    rw [hrestates.lastTick_eq, htick]
    exact Nat.ne_of_lt (Nat.lt_succ_of_le hpast)
  · rw [tickMarks_eq, hsplit, List.flatMap_append, List.flatMap_cons, entries_append, entries_append,
      List.mem_append, List.mem_append, hx.mem_entries_marks hseat hrun]
    exact ⟨fun h => (h.resolve_left hnot).resolve_right hnot', fun h => .inr (.inl h)⟩

end Machine

end ScriptMachine
