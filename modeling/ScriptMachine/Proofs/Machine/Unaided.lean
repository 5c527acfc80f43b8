import ScriptMachine.Proofs.Machine.Nesting
import ScriptMachine.Proofs.Machine.Order

/-!
# Machines without host functions

What the host gave a machine, its settings, services and functions, stays while scripts run
(`Machine.tools`).  Where no host function is installed, ticks are the same whatever the host is
(`exec_eq_of_hostFuncs`).
-/

namespace ScriptMachine.Machine

/-- What the host gave a machine. -/
def tools (m : Machine) : Settings × Hooks × CodeTable × OrdMap Word Builtin × Array Nat :=
  (m.settings, m.hooks, m.codeTable, m.builtins, m.hostFuncs)

/-- Host functions that are never called are tame. -/
theorem tame_never : Tame Never := ⟨fun h => h.elim, fun h => h.elim⟩

variable {m m' : Machine} {t t' : Thread}

/-- A report leaves what the host set up alone. -/
theorem report_tools (m : Machine) (k : Hook) (e : Event) : (m.report k e).tools = m.tools := by
  unfold report
  split <;> rfl

/-- Putting a thread back leaves what the host set up alone. -/
theorem reattach_tools (m : Machine) (scope : ScopeId) (i : Nat) (t : Thread) :
    (m.reattach scope i t).tools = m.tools := by
  unfold reattach
  simp only
  split
  · rfl
  · exact report_tools ..

/-- Requests leave what the host set up alone. -/
theorem Stirs.tools (h : m.Stirs m') : m'.tools = m.tools := by
  induction h with
  | trans _ _ ih ih' => exact ih'.trans ih
  | spawn hmap hplace ht hname =>
    rw [spawn_eq hmap hplace ht]
    simp only
    split
    · exact report_tools ..
    · rfl
  | _ => rfl

/-- Turns without host functions leave what the host set up alone. -/
theorem Acts.tools (h : Acts Never m t m' t') : m'.tools = m.tools := by
  induction h with
  | stir h => exact h.tools
  | proceed _ => rfl
  | host h => exact h.elim
  | trans _ _ ih ih' => exact ih'.trans ih
  | result hmap hplace hv hname hu hid _ ih =>
    have hspawn := (Stirs.spawn hmap hplace hv hname).tools
    exact (reattach_tools ..).trans (ih.trans hspawn)

/-- Visits without host functions leave what the host set up alone. -/
theorem Ticks.tools (h : Ticks Never m m') : m'.tools = m.tools := by
  induction h with
  | stir h => exact h.tools
  | trans _ _ ih ih' => exact ih'.trans ih
  | @reap m scope i j u hu hend =>
    rw [Machine.reap, hu]
    exact report_tools ..
  | wait _ _ => rfl
  | turn _ _ h => exact (reattach_tools ..).trans h.tools

/-- The turn begins with what the host set up, and scripts run. -/
theorem startedTurn?_tools {scope : ScopeId} {name : ScriptName} {args : List Word} {info : ThreadInfo}
    {p : Machine × Thread} (h : m.startedTurn? scope name args info = some p) :
    p.1.tools = m.tools ∧ p.1.executing = true := by
  obtain ⟨map, place, v, u, i, j, takesName, hmap, hplace, hv, hname, hu, hid, rfl, -⟩ :=
    exists_started h
  have hspawn := (Stirs.spawn hmap hplace hv hname).tools
  exact ⟨hspawn, rfl⟩

/-- The turn of a visit begins with what the host set up. -/
theorem visitedTurn?_tools {scope : ScopeId} {i j : Nat} {p : Machine × Thread}
    (h : m.visitedTurn? scope i j = some p) :
    p.1.tools = m.tools ∧ p.1.executing = m.executing := by
  unfold visitedTurn? at h
  split at h
  · cases h
  · split at h
    · cases h
    · rename_i t ht
      split at h
      · cases h
      · simp only at h
        have hasked := stirs_isRunnable scope t.state (m := m)
        split at h
        · cases h
        · split at h
          · cases h
          · cases h
            constructor
            · refine Eq.trans ?_ hasked.tools
              unfold modifyThreadAt
              split <;> rfl
            · refine Eq.trans ?_ hasked.executing
              unfold modifyThreadAt
              split <;> rfl

/-! ## Runs -/

section

variable {host : Host}

/-- Without host functions, instructions do the same whatever the host is. -/
theorem loop_eq_of_hostFuncs {fuel : Nat} {limit count : Word} {module : LoadedModule}
    (hfuncs : m.hostFuncs = #[]) (hm : m.executing = true) :
    loop host fuel limit count module m t = loop quietHost fuel limit count module m t := by
  induction fuel generalizing limit count module m t with
  | zero => rfl
  | succ fuel ih =>
    have hturn : ∀ {m : Machine} {t : Thread}, m.hostFuncs = #[] → m.executing = true →
        runDetached (turnWith (loop host fuel)) m t = runDetached (turnWith (loop quietHost fuel)) m t := by
      intro m t hfuncs hm
      have hsame : ∀ running, turnWith (loop host fuel) { m with running } t =
          turnWith (loop quietHost fuel) { m with running } t := by
        intro running
        unfold turnWith
        split
        · rfl
        · exact ih hfuncs hm
      simp only [runDetached, hsame]
    have hstart : ∀ {m : Machine} {scope name args info}, m.hostFuncs = #[] →
        m.startResult (turnWith (loop host fuel)) scope name args info =
          m.startResult (turnWith (loop quietHost fuel)) scope name args info := by
      intro m scope name args info hfuncs
      cases hstarted : m.startedTurn? scope name args info with
      | none => exact startResult_of_none hstarted _ _
      | some p =>
        obtain ⟨slot, -, hk⟩ := startResult_of_some hstarted
        obtain ⟨htools, hbusy⟩ := startedTurn?_tools hstarted
        rw [hk, hk, hturn ((congrArg (·.2.2.2.2) htools).trans hfuncs) hbusy]
    rw [loop, loop]
    split
    · rfl
    · split
      · rfl
      · split
        · rfl
        · rename_i op operands _
          simp only
          have hstep : step host (turnWith (loop host fuel)) (execWith (turnWith (loop host fuel)) fuel)
              module op operands m { t with codePtr := t.codePtr + 1 + op.arity } =
              step quietHost (turnWith (loop quietHost fuel))
                (execWith (turnWith (loop quietHost fuel)) fuel) module op operands m
                { t with codePtr := t.codePtr + 1 + op.arity } := by
            cases hcall : resultCall? op operands m { t with codePtr := t.codePtr + 1 + op.arity } with
            | none =>
              refine step_of_none _ _ _ _ _ _ hcall fun key hkey => ?_
              -- no function is there to be called
              cases op <;> simp [hostCall?, hfuncs] at hkey
            | some p => rw [step_of_some hcall, step_of_some hcall, hstart hfuncs]
          rw [hstep]
          split
          · rfl
          · rfl
          · rename_i m₁ t₁ hs
            have hacts : Acts Never m { t with codePtr := t.codePtr + 1 + op.arity } m₁ t₁ :=
              acts_step (acts_turn (obeys_quietHost Never) tame_never) (obeys_quietHost Never) tame_never
                stirs_execWith hm hs
            exact ih ((congrArg (·.2.2.2.2) hacts.tools).trans hfuncs)
              ((hacts.executing tame_never).trans hm)

/-- Where there are no host functions, a turn does not depend on the host. -/
theorem turn_eq_of_hostFuncs {fuel : Nat} (hfuncs : m.hostFuncs = #[]) (hm : m.executing = true) :
    turn host fuel m t = turn quietHost fuel m t := by
  unfold turn turnWith
  split
  · rfl
  · exact loop_eq_of_hostFuncs hfuncs hm

/-- Where there are no host functions, a visit does not depend on the host. -/
theorem visit_eq_of_hostFuncs {fuel : Nat} {scope : ScopeId} {i j : Nat} (hfuncs : m.hostFuncs = #[])
    (hm : m.executing = true) :
    m.visit (turn host fuel) scope i j = m.visit (turn quietHost fuel) scope i j := by
  cases hvisited : m.visitedTurn? scope i j with
  | none => exact visit_of_none hvisited _ _
  | some p =>
    obtain ⟨htools, hbusy⟩ := visitedTurn?_tools hvisited
    have hsame : ∀ running, turn host fuel { p.1 with running } p.2 =
        turn quietHost fuel { p.1 with running } p.2 := fun running =>
      turn_eq_of_hostFuncs ((congrArg (·.2.2.2.2) htools).trans hfuncs) (hbusy.trans hm)
    rw [visit_of_some hvisited, visit_of_some hvisited, runDetached, runDetached, hsame]

/-- Where there are no host functions, the visits to threads do not depend on the host. -/
theorem visitThreads_eq_of_hostFuncs {fuel n j : Nat} {scope : ScopeId} {i : Nat}
    (hfuncs : m.hostFuncs = #[]) (hm : m.executing = true) :
    visitThreads (turn host fuel) scope i n j m = visitThreads (turn quietHost fuel) scope i n j m := by
  induction n generalizing j m with
  | zero => rfl
  | succ n ih =>
    rw [visitThreads, visitThreads, visit_eq_of_hostFuncs hfuncs hm]
    have hnext : ∀ {v m₁}, m.visit (turn quietHost fuel) scope i j = some (v, m₁) →
        m₁.hostFuncs = #[] ∧ m₁.executing = true := by
      intro v m₁ hvisit
      have hticks : Ticks Never m m₁ := ticks_visit (acts_turn (obeys_quietHost Never) tame_never) hm hvisit
      exact ⟨(congrArg (·.2.2.2.2) hticks.tools).trans hfuncs, (hticks.executing tame_never).trans hm⟩
    split
    · rfl
    · rfl
    · rename_i m₁ hvisit
      exact ih (hnext hvisit).1 (hnext hvisit).2
    · rename_i m₁ hvisit
      exact ih (hnext hvisit).1 (hnext hvisit).2

/-- Where there are no host functions, the visits to module scopes do not depend on the host. -/
theorem visitModules_eq_of_hostFuncs {fuel n i : Nat} {scope : ScopeId} (hfuncs : m.hostFuncs = #[])
    (hm : m.executing = true) :
    visitModules (turn host fuel) scope n i m = visitModules (turn quietHost fuel) scope n i m := by
  induction n generalizing i m with
  | zero => rfl
  | succ n ih =>
    rw [visitModules, visitModules, visitThreads_eq_of_hostFuncs hfuncs hm]
    split
    · rfl
    · split
      · split
        · rfl
        · rename_i m₁ hthreads
          have hticks : Ticks Never m m₁ := ticks_visitThreads tame_never
            (acts_turn (obeys_quietHost Never) tame_never) hm hthreads
          exact ih ((congrArg (·.2.2.2.2) hticks.tools).trans hfuncs)
            ((hticks.executing tame_never).trans hm)
      · rfl

/-- Where there are no host functions, the visits to maps do not depend on the host. -/
theorem visitMaps_eq_of_hostFuncs {fuel n : Nat} {scopes : List ScopeId} (hfuncs : m.hostFuncs = #[])
    (hm : m.executing = true) :
    visitMaps (turn host fuel) n scopes m = visitMaps (turn quietHost fuel) n scopes m := by
  induction scopes generalizing m with
  | nil => rfl
  | cons scope rest ih =>
    rw [visitMaps, visitMaps, visitModules_eq_of_hostFuncs hfuncs hm]
    split
    · split
      · rfl
      · rename_i m₁ hmodules
        have hticks : Ticks Never m m₁ := ticks_visitModules tame_never
          (acts_turn (obeys_quietHost Never) tame_never) hm hmodules
        exact ih ((congrArg (·.2.2.2.2) hticks.tools).trans hfuncs)
          ((hticks.executing tame_never).trans hm)
    · exact ih hfuncs hm

/-- **Without host functions, a tick is the same** whatever the host is. -/
theorem exec_eq_of_hostFuncs {fuel : Nat} (hfuncs : m.hostFuncs = #[]) :
    m.exec host fuel = m.exec quietHost fuel := by
  unfold exec execWith
  split
  · rfl
  · simp only
    rw [visitMaps_eq_of_hostFuncs]
    · exact hfuncs
    · rfl

end

end ScriptMachine.Machine
