import Mathlib.Data.List.InsertIdx
import ScriptMachine.Proofs.Machine.ViewSteps

/-!
# Where turns begin, in the view

The turn that a start for a result or a visit gives begins, in the view, with what it begins with, as
it shows (`startedTurn?_view`, `visitedTurn?_view`); and where no turn is given, the view of what is
left is left (`startResult_view`, `visit_view`).  Whether a thread had its turn in the current tick is
seen only from a vantage that tells it, which is why visits ask for one (`Vantage.Tells`).
-/

namespace ScriptMachine

/-- The vantage tells the threads that had their turn in the current tick of the machine. -/
structure Vantage.Tells (V : Vantage) (m : Machine) : Prop where
  told : V.told = true
  pos : 0 < V.now
  tick : m.tick = V.now

/-- Whether a tick is the present one shows where the vantage tells. -/
theorem Vantage.Tells.stamp_beq {V : Vantage} {m : Machine} (h : V.Tells m) (n : Nat) :
    (V.stamp n == V.stamp m.tick) = (n == m.tick) := by
  rw [Bool.eq_iff_iff, beq_iff_eq, beq_iff_eq, h.tick, stamp, stamp, h.told]
  exact stamp_eq_iff h.pos

namespace Machine

variable {L : Lens} {V : Vantage} (m : Machine) {scope : ScopeId} (hs : V.sees scope.global)
include hs

/-! ## Starts for a result -/

theorem canTakeName_view (name : ScriptName) (slot : ScriptSlot) :
    (m.view L V).canTakeName scope name slot = m.canTakeName scope name slot := by
  simp only [canTakeName, map?_view m hs]
  cases m.scopes.map? scope with
  | none => rfl
  | some map =>
    simp only [Option.map_some, MapScope.script?_recast, MapScope.scriptActive_recast]
    rfl

/-- The turn of a start for a result begins alike in what shows. -/
theorem startedTurn?_view (name : ScriptName) (args : List Word) (info : ThreadInfo) :
    (m.view L V).startedTurn? scope name args info =
      (m.startedTurn? scope name args info).map (V.shown L) := by
  unfold startedTurn?
  rw [resolveScript?_view m hs]
  cases m.resolveScript? scope name with
  | none => rfl
  | some slot =>
    simp only [canTakeName_view m hs, spawn_view m hs]
    generalize m.spawn scope slot.moduleIndex slot.scriptIndex args info _ = spawned
    obtain ⟨id, m₁⟩ := spawned
    cases id with
    | none => rfl
    | some id =>
      simp only [threadNamed_view m₁ hs, Option.map_map]
      have hout := view_modifyThread (L := L) (m := m₁) hs (f := fun _ => Thread.placeholder id)
        (g := fun _ => Thread.placeholder id)
        (fun _ => Thread.recast_placeholder _ V.stamp_zero id) slot.moduleIndex id
      refine congrArg (Option.map · _) (funext fun t => ?_)
      exact Prod.ext (congrArg (fun x : Machine => { x with executing := true }) hout) rfl

/-- A start that gives no turn. -/
theorem startResult_view {name : ScriptName} {args : List Word} {info : ThreadInfo}
    (h : m.startedTurn? scope name args info = none) (turn : Turn) :
    (m.view L V).startResult turn scope name args info =
      (m.startResult turn scope name args info).map fun q => (q.1, q.2.view L V) := by
  unfold startedTurn? at h
  unfold startResult
  rw [resolveScript?_view m hs]
  cases hslot : m.resolveScript? scope name with
  | none => rfl
  | some slot =>
    simp only [hslot] at h
    simp only [canTakeName_view m hs, spawn_view m hs]
    generalize m.spawn scope slot.moduleIndex slot.scriptIndex args info _ = spawned at h ⊢
    obtain ⟨id, m₁⟩ := spawned
    cases id with
    | none => rfl
    | some id =>
      simp only [Option.map_eq_none_iff] at h
      simp only [threadNamed_view m₁ hs, h, Option.map_none, Option.map_some]

/-! ## Visits -/

theorem isActive_view : (m.view L V).scopes.isActive scope = m.scopes.isActive scope := by
  rw [← Vantage.isActive_tree hs m.scopes]
  exact ScopeTree.isActive_recast ..

/-- What a visit asks the host. -/
theorem isRunnable_view (state : ThreadState) :
    (m.view L V).isRunnable scope state =
      ((m.isRunnable scope state).1, (m.isRunnable scope state).2.view L V) := by
  have hhas : (m.view L V).hooks.has .checkTag = m.hooks.has .checkTag := m.hooks.has_bare (by decide)
  cases state with
  | waitTag type tag =>
    simp only [isRunnable, hhas]
    split <;> rfl
  | waitNumber n => simp only [isRunnable, scriptActive_view m hs]
  | waitName s => simp only [isRunnable, scriptActive_view m hs]
  | _ => rfl

/-- A thread that is replaced shows. -/
theorem modifyThreadAt_view (i j : Nat) (t : Thread) :
    (m.view L V).modifyThreadAt scope i j (fun _ => V.face t) =
      (m.modifyThreadAt scope i j fun _ => t).view L V := by
  refine view_modifyModule hs (fun x => ?_) i
  have hthreads := map_modify (h := V.face) (f := fun _ => t) (g := fun _ => V.face t)
    (fun _ => rfl) x.threads j
  exact congrArg (fun ts => { x.recast (fun _ => 0) V.stamp with threads := ts }) hthreads

theorem reap_view (i j : Nat) : (m.view L V).reap scope i j = (m.reap scope i j).view L V := by
  unfold reap
  rw [threadAt_view m hs]
  cases (m.scopes.module? scope i).bind (·.threads[j]?) with
  | none => rfl
  | some t =>
    have hremoved := view_modifyMap (L := L) (m := m) hs
      (f := fun map => (map.modifyModule i fun s =>
        { s with threads := s.threads.eraseIdx j }).releaseSlot t)
      (g := fun map => (map.modifyModule i fun s =>
        { s with threads := s.threads.eraseIdx j }).releaseSlot (V.face t)) (fun map => by
        rw [MapScope.recast_releaseSlot, Vantage.face]
        congr 1
        refine MapScope.recast_modifyModule _ _ (fun s => ?_) map i
        simp only [ModuleScope.recast, ← List.eraseIdx_map])
    have hid : (V.face t).id = t.id := rfl
    simp only [Option.map_some, hid, hremoved, log_view]
    exact report_view _ (by decide) (.threadStop t)

omit hs in
/-- No tick begins when it is looked whether a thread may run. -/
theorem isRunnable_tick (state : ThreadState) : (m.isRunnable scope state).2.tick = m.tick := by
  unfold isRunnable
  split <;> first | rfl | (split <;> rfl)

section

variable {m} (hV : V.Tells m)
include hV

omit hs in
/-- Whether the thread had its turn. -/
theorem lastTick_view (state : ThreadState) (n : Nat) :
    (V.stamp n == ((m.isRunnable scope state).2.view L V).tick) =
      (n == (m.isRunnable scope state).2.tick) := by
  have hstamp := hV.stamp_beq n
  have htick : (m.isRunnable scope state).2.tick = m.tick := isRunnable_tick m state
  rw [← htick] at hstamp
  exact hstamp

omit hs hV in
/-- The message that a thread resumes. -/
theorem resumes_view (state : ThreadState) (text : String) :
    (if state = .running then m.view L V else (m.view L V).log .trace text) =
      (if state = .running then m else m.log .trace text).view L V := by
  split <;> rfl

/-- The turn of a visit begins alike in what shows. -/
theorem visitedTurn?_view (i j : Nat) :
    (m.view L V).visitedTurn? scope i j = (m.visitedTurn? scope i j).map (V.shown L) := by
  unfold visitedTurn?
  rw [isActive_view m hs, threadAt_view m hs]
  split
  · rfl
  · cases (m.scopes.module? scope i).bind (·.threads[j]?) with
    | none => rfl
    | some t =>
      have hstate : (V.face t).state = t.state := rfl
      have hid : (V.face t).id = t.id := rfl
      have hlast : (V.face t).lastTick = V.stamp t.lastTick := rfl
      have hdelay : (V.face t).delay = t.delay := rfl
      simp only [Option.map_some, hstate, hid, hlast, hdelay, isRunnable_view m hs, lastTick_view hV,
        resumes_view]
      split
      · rfl
      · split
        · rfl
        · generalize (if t.state = .running then (m.isRunnable scope t.state).2 else _) = m₀
          have hout := modifyThreadAt_view (L := L) m₀ hs i j (Thread.placeholder t.id)
          rw [Vantage.face, Thread.recast_placeholder _ V.stamp_zero] at hout
          split
          · rfl
          · rw [hout]
            rfl

/-- A visit that gives no turn. -/
theorem visit_view {i j : Nat} (h : m.visitedTurn? scope i j = none) (turn : Turn) :
    (m.view L V).visit turn scope i j =
      (m.visit turn scope i j).map fun q => (q.1, q.2.view L V) := by
  unfold visitedTurn? at h
  unfold visit
  rw [isActive_view m hs, threadAt_view m hs]
  split
  · rfl
  · rename_i hactive
    rw [if_neg hactive] at h
    cases ht : (m.scopes.module? scope i).bind (·.threads[j]?) with
    | none => rfl
    | some t =>
      have hstate : (V.face t).state = t.state := rfl
      have hid : (V.face t).id = t.id := rfl
      have hlast : (V.face t).lastTick = V.stamp t.lastTick := rfl
      simp only [ht] at h
      simp only [Option.map_some, hstate, hid, hlast, isRunnable_view m hs, lastTick_view hV,
        resumes_view, reap_view m hs]
      split
      · rfl
      · rename_i hend
        rw [if_neg hend] at h
        split
        · rfl
        · rename_i hwaits
          rw [if_neg hwaits] at h
          generalize (if t.state = .running then (m.isRunnable scope t.state).2 else _) = m₀ at h ⊢
          split at h
          · rename_i hdelay
            have hwait := modifyThreadAt_view (L := L) m₀ hs i j
              { t with lastTick := m₀.tick, state := .running, delay := t.delay - min t.delay 1 }
            have hdelay' : 0 < (V.face t).delay - min (V.face t).delay 1 := hdelay
            simp only [takeTurn]
            rw [if_pos hdelay, if_pos hdelay']
            exact congrArg (fun x => some (Visit.next, x)) hwait
          · cases h

end

end Machine

end ScriptMachine
