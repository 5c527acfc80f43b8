import ScriptMachine.Proofs.Machine.Acts
import ScriptMachine.Proofs.Machine.Evolution

/-!
# How a machine goes on

For properties that do not tell what scripts do from what the scheduler does, one relation is enough:
`Machine.Goes` lets the machine evolve, the thread out of the tree proceed, the host change both,
and another thread have a turn.  Turns, ticks and starts for a result are all instances (`goes_exec`,
`goes_startResult`).
-/

namespace ScriptMachine.Machine

open Thread

/-- What can happen to a machine and a thread that is out of its tree, where the host changes both as
`A` allows. -/
inductive Goes (A : ChangeRule) : Machine → Thread → Machine → Thread → Prop
  | evolve {m m' t} (h : m.Evolves m') : Goes A m t m' t
  | proceed {m t t'} (h : Proceeds t t') : Goes A m t m t'
  | host {m t m' t'} (h : A m t m' t') : Goes A m t m' t'
  | trans {m₁ t₁ m₂ t₂ m₃ t₃} (h : Goes A m₁ t₁ m₂ t₂) (h' : Goes A m₂ t₂ m₃ t₃) :
    Goes A m₁ t₁ m₃ t₃
  /-- The machine begins or ends to run scripts; a tick may begin. -/
  | busy {m t} (executing : Bool) {tick : Nat} (h : m.tick ≤ tick) :
    Goes A m t { m with executing, tick } t
  /-- Another thread has a turn. -/
  | turn {m m' t scope i x u u₁ u'} {j : List Thread → Nat} (hx : m.scopes.module? scope i = some x)
      (hu : x.threads[j x.threads]? = some u) (hu₁ : u.Restated m.tick u₁)
      (h : Goes A (m.detach scope i j u.id) u₁ m' u') :
    Goes A m t (m'.reattach scope i u') t

variable {A : ChangeRule} {m m' : Machine} {t t' : Thread}

/-- Noting a tick restates a thread. -/
theorem restated_noted (t : Thread) (now : Nat) : t.Restated now { t with lastTick := now } :=
  ⟨.refl _, .inr (Nat.le_refl _)⟩

/-- Waking up restates a thread. -/
theorem restated_awake (t : Thread) (now : Nat) : t.Restated now (t.awake now) :=
  ⟨((Stays.refl { t with lastTick := now }).setState _).setDelay _, .inr (Nat.le_refl _)⟩

/-- What happens in a turn. -/
theorem Acts.goes (h : Acts A m t m' t') : Goes A m t m' t' := by
  induction h with
  | stir h => exact .evolve h.evolves
  | proceed h => exact .proceed h
  | host h => exact .host h
  | trans _ _ ih ih' => exact ih.trans ih'
  | @result m m' t u u' v map place scope i j args info takesName hmap hplace hv hname hu hid _ ih =>
    have hspawn := Goes.evolve (A := A) (t := t) (evolves_spawn hmap hplace hv takesName)
    have hat : (place.threads ++ [v])[(place.threads ++ [v]).findIdx (·.id == u.id)]? = some u := by
      rw [← List.find?_eq_getElem?_findIdx]
      exact hu
    refine hspawn.trans (.turn (module?_spawn hmap hplace hv takesName) hat (restated_noted u _) ?_)
    exact (Goes.busy true (Nat.le_refl _)).trans (ih.trans (.busy _ (Nat.le_refl _)))

/-- What the scheduler does, whatever thread is out of the tree. -/
theorem Ticks.goes (h : Ticks A m m') : Goes A m t m' t := by
  induction h with
  | stir h => exact .evolve h.evolves
  | trans _ _ ih ih' => exact ih.trans ih'
  | reap _ _ => exact .evolve (evolves_reap ..)
  | wait hu _ =>
    refine .evolve (evolves_modifyThreadAt _ _ _ fun u' hu' => ?_)
    cases hu.symm.trans hu'
    exact restated_awake _ _
  | turn hu _ h =>
    obtain ⟨x, hx, hat⟩ := Option.bind_eq_some_iff.1 hu
    exact .turn (j := fun _ => _) hx hat (restated_awake _ _) h.goes

variable {host : Host} (hhost : host.Obeys A) (hA : Tame A)
include hhost hA

/-- **A tick** is an instance, whatever thread is out of the tree. -/
theorem goes_exec {fuel : Nat} (h : m.exec host fuel = some m') : Goes A m t m' t := by
  rcases exec_cases hhost hA h with ⟨-, hstirs⟩ | ⟨-, m₁, hticks, rfl⟩
  · exact .evolve hstirs.evolves
  · refine ((Goes.busy true (Nat.le_succ m.tick)).trans hticks.goes).trans ?_
    exact .busy false (Nat.le_refl _)

/-- **A start for a result** is an instance. -/
theorem goes_startResult {fuel : Nat} {scope : ScopeId} {name : ScriptName} {args : List Word}
    {info : ThreadInfo} {r : Option Word}
    (h : m.startResult (Machine.turn host fuel) scope name args info = some (r, m')) :
    Goes A m t m' t :=
  (acts_startResult (acts_turn hhost hA) h).goes

end ScriptMachine.Machine
