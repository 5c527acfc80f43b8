import ScriptMachine.Proofs.Machine.Turns

/-!
# What lasts through turns

Some properties of machines and threads are kept by everything that can happen: by what scripts and
requests do to the tree, by threads that are taken out of it and put back, by host functions, and by
each instruction.  `Machine.Lasting` says this of a property of machines and one of the threads in them.
What is lasting holds after turns, starts for a result and ticks if it held before
(`Lasting.turn`, `Lasting.startResult`, `Lasting.exec`).

The proof is along the instructions.  Besides those that start a script for its result, which has a turn
of its own, and those that call host functions, instructions do nothing but stir the machine
(`stirs_step`).
-/

namespace ScriptMachine.Machine

open Thread

variable {m m' : Machine} {t t' : Thread}

/-! ## Instructions without turns of their own -/

/-- A start on behalf of a script, not for its result, stirs the machine. -/
theorem stirs_startFrom {turn : Turn} {mode : StartMode} {name : Option ScriptName} {args : List Word}
    (h : m.startFrom turn t mode name args = some (m', t')) (hmode : mode = .result → name = none) :
    m.Stirs m' := by
  unfold startFrom at h
  cases name with
  | none =>
    cases h
    exact .refl m
  | some name =>
    cases mode with
    | normal =>
      simp only at h
      split at h
      · cases h
        exact .refl m
      · cases h
        exact stirs_startScript ..
    | forced =>
      cases h
      exact stirs_startForced ..
    | result => exact absurd (hmode rfl) nofun

/-- A built-in function that starts no script for its result. -/
theorem stirs_callBuiltin {turn : Turn} {f : Builtin} {args : List Word}
    (hnumber : f ≠ .startResultNumber)
    (hname : f = .startResultName → m.nameOf? (args.headD 0) = none)
    (h : m.callBuiltin turn t f args = some (m', t')) : m.Stirs m' := by
  have hstir : ∀ {p : Machine × Thread}, m.Stirs p.1 → some p = some (m', t') → m.Stirs m' := by
    intro p hp heq
    cases heq
    exact hp
  cases f <;> simp only [callBuiltin] at h
  case startNumber => exact stirs_startFrom h (by rintro ⟨⟩)
  case startName => exact stirs_startFrom h (by rintro ⟨⟩)
  case startForcedNumber => exact stirs_startFrom h (by rintro ⟨⟩)
  case startForcedName => exact stirs_startFrom h (by rintro ⟨⟩)
  case startResultNumber => exact absurd rfl hnumber
  case startResultName => exact stirs_startFrom h fun _ => hname rfl
  case printEnd => exact hstir (stirs_endMessage t) h
  case printArray => exact hstir (stirs_printArray t _) h
  case stopNumber => exact hstir (stirs_haltFrom t _ _) h
  case stopName => exact hstir (stirs_haltFrom t _ _) h
  case pauseNumber => exact hstir (stirs_haltFrom t _ _) h
  case pauseName => exact hstir (stirs_haltFrom t _ _) h
  case random =>
    cases h
    exact stirs_random ..
  case checkLock =>
    split at h
    · exact hstir (.note m rfl) h
    · exact hstir (.refl m) h
  all_goals exact hstir (.refl m) h

/-- **An instruction** that starts no script for its result and calls no host function. -/
theorem stirs_step {host : Host} {turn : Turn} {exec : Machine → Option Machine}
    {module : LoadedModule} {op : Opcode} {operands : List Word} {waits : Bool}
    (hresult : resultCall? op operands m t = none) (hcall : hostCall? op operands m = none)
    (h : step host turn exec module op operands m t = some (m', t', waits)) : m.Stirs m' := by
  have hstir : ∀ {p : Machine × Thread × Bool}, m.Stirs p.1 → some p = some (m', t', waits) →
      m.Stirs m' := by
    intro p hp heq
    cases heq
    exact hp
  cases op with
  | callFunc =>
    rcases callFunc_cases hresult hcall h with ⟨f, hnumber, hname, hbuiltin⟩ | hkill
    · exact stirs_callBuiltin hnumber hname hbuiltin
    · exact hstir (stirs_kill _ _ _) hkill
  | kill => exact hstir (stirs_kill t _ _) h
  | var level action => exact hstir (stirs_accessVar t level action _) h
  | restart =>
    simp only [step] at h
    split at h <;> exact hstir (.refl m) h
  | jumpEqual =>
    simp only [step] at h
    split at h <;> exact hstir (.refl m) h
  | call | callDiscard =>
    simp only [step] at h
    split at h
    · exact hstir (.refl m) h
    · exact hstir (stirs_kill t _ _) h
  | _ => exact hstir (.refl m) h

/-! ## Turns -/

/-- `I` lasts with machines, and `P` with all threads of such machines, where host functions change
machines and threads as `A` allows. -/
structure Lasting (A : ChangeRule) (I : Machine → Prop) (P : Thread → Prop) : Prop where
  evolve : ∀ {m m'}, m.Evolves m' → I m → I m'
  busy : ∀ {m} (executing : Bool) (tick : Nat), I m → I { m with executing, tick }
  detach : ∀ {m} (scope : ScopeId) (i : Nat) (j : List Thread → Nat) (id : Word), I m →
    I (m.detach scope i j id)
  reattach : ∀ {m t} (scope : ScopeId) (i : Nat), I m → P t → I (m.reattach scope i t)
  thread : ∀ {m t scope i} {s : ModuleScope}, I m → m.scopes.module? scope i = some s → t ∈ s.threads →
    P t
  restated : ∀ {t t' now}, t.Restated now t' → P t → P t'
  place : ∀ {t} (n : Nat), P t → P { t with codePtr := n }
  moves : ∀ {x op operands t t'}, t.module = some x → Moves x op operands t t' → P t → P t'
  host : ∀ {m t m' t'}, A m t m' t' → I m → I m'

/-- Starts for a result leave alone whether scripts run. -/
theorem startResult_executing {turn : Turn} {scope : ScopeId} {name : ScriptName} {args : List Word}
    {info : ThreadInfo} {r : Option Word}
    (h : m.startResult turn scope name args info = some (r, m')) : m'.executing = m.executing := by
  cases hstarted : m.startedTurn? scope name args info with
  | none => exact (stirs_of_startedTurn? hstarted h).executing
  | some p =>
    obtain ⟨slot, -, hresult⟩ := startResult_of_some hstarted
    rw [hresult turn] at h
    obtain ⟨q, -, heq⟩ := Option.map_eq_some_iff.1 h
    cases heq
    exact reattach_executing ..

namespace Lasting

variable {A : ChangeRule} {I : Machine → Prop} {P : Thread → Prop} (L : Lasting A I P)
include L

/-- What lasts holds of a thread that stays where it is. -/
theorem stays (h : Stays t t') (ht : P t) : P t' :=
  have hr : t.Restated 0 t' := .of_stays h
  L.restated hr ht

/-- What lasts holds after requests. -/
theorem stirs (h : m.Stirs m') (hm : I m) : I m' := L.evolve h.evolves hm

section

variable {turn : Turn} (hturn : ∀ {m t m' t'}, m.executing = true → I m → P t →
  turn m t = some (m', t') → I m' ∧ P t')
include hturn

/-- What lasts holds after a turn outside the tree. -/
theorem runDetached (hbusy : m.executing = true) (hm : I m) (ht : P t)
    (h : Machine.runDetached turn m t = some (m', t')) : I m' ∧ P t' := by
  unfold Machine.runDetached at h
  obtain ⟨⟨m₁, t₁⟩, hrun, heq⟩ := Option.map_eq_some_iff.1 h
  cases heq
  have hnoted := L.stirs (.aside m m.rng ((t.module.map (·.serial)).toList ++ m.running) (.refl _)) hm
  have hran := hturn (by exact hbusy) hnoted ht hrun
  have hdropped := Stirs.aside m₁ m₁.rng
    (m₁.running.drop (t.module.map (·.serial)).toList.length) (.refl _)
  exact ⟨L.stirs hdropped hran.1, hran.2⟩

/-- A start for a result, with turns in which the properties last. -/
theorem startResult_of_turn {scope : ScopeId} {name : ScriptName} {args : List Word}
    {info : ThreadInfo} {r : Option Word} (hm : I m)
    (h : m.startResult turn scope name args info = some (r, m')) : I m' := by
  cases hstarted : m.startedTurn? scope name args info with
  | none => exact L.stirs (stirs_of_startedTurn? hstarted h) hm
  | some p =>
    obtain ⟨map, place, v, u, i, j, takesName, hmap, hplace, hv, hname, hu, -, rfl, hresult⟩ :=
      exists_started hstarted
    rw [hresult turn] at h
    obtain ⟨⟨m₂, u₂⟩, hrun, heq⟩ := Option.map_eq_some_iff.1 h
    cases heq
    have hspawned := L.evolve (evolves_spawn hmap hplace hv takesName) hm
    have hthread := L.thread hspawned (module?_spawn hmap hplace hv takesName)
      (List.mem_of_find?_eq_some hu)
    have hdetached := L.detach scope i (fun ts => ts.findIdx (·.id == u.id)) u.id hspawned
    have hran := L.runDetached hturn rfl (L.busy true _ hdetached)
      (L.restated (restated_noted u _) hthread) hrun
    exact L.reattach scope i (L.busy m.executing m₂.tick hran.1) hran.2

section

variable {host : Host} (hhost : host.Obeys A) (hA : Tame A) {exec : Machine → Option Machine}
  (hexec : ∀ {m m'}, m.executing = true → exec m = some m' → m.Stirs m')
include hhost hA hexec

/-- **An instruction.** -/
theorem step {module : LoadedModule} {op : Opcode} {operands : List Word} {waits : Bool}
    (hbusy : m.executing = true) (hmodule : t.module = some module) (hm : I m) (ht : P t)
    (h : Machine.step host turn exec module op operands m t = some (m', t', waits)) : I m' ∧ P t' := by
  refine ⟨?_, L.moves hmodule (step_moves hhost hA.stays h) ht⟩
  cases hcall : hostCall? op operands m with
  | some key =>
    rw [step_of_host hcall] at h
    have hrun := HostProgram.Obeys.run (A := A)
      (R := fun m _ m' _ => m.executing = true → I m → m'.executing = true ∧ I m')
      (fun _ _ hbusy hm => ⟨hbusy, hm⟩)
      (fun h h' hbusy hm => h' (h hbusy hm).1 (h hbusy hm).2)
      (fun h hbusy hm => ⟨(hA.executing h).trans hbusy, L.host h hm⟩)
      (fun h hbusy hm => ⟨(startResult_executing h).trans hbusy, L.startResult_of_turn hturn hm h⟩)
      (fun h hbusy hm => ⟨(hexec hbusy h).executing.trans hbusy, L.stirs (hexec hbusy h) hm⟩)
      (hhost _ _ _ _) h
    exact (hrun hbusy hm).2
  | none =>
    cases hresult : resultCall? op operands m t with
    | some p =>
      rw [step_of_some hresult] at h
      obtain ⟨⟨r, m₁⟩, hstart, heq⟩ := Option.map_eq_some_iff.1 h
      cases heq
      exact L.startResult_of_turn hturn hm hstart
    | none => exact L.stirs (stirs_step hresult hcall h) hm

end

/-- **A visit** of a thread. -/
theorem visit {scope : ScopeId} {i j : Nat} {v : Visit} (hbusy : m.executing = true) (hm : I m)
    (h : m.visit turn scope i j = some (v, m')) : I m' := by
  obtain ⟨-, rfl, -⟩ | ⟨u, hu, -, ⟨hend, -, rfl, -⟩ | ⟨hend, -, m₀, hworks, hscopes, hrest⟩⟩ :=
    visit_cases h
  · exact hm
  · exact L.evolve (evolves_reap ..) hm
  · have hm₀ := L.stirs hworks.stirs hm
    rw [← hscopes] at hu
    rcases hrest with ⟨rfl, -⟩ | ⟨-, -, -, rfl, -⟩ | ⟨-, -, -, -, m₂, u', hrun, rfl⟩
    · exact hm₀
    · refine L.evolve (evolves_modifyThreadAt _ _ _ fun u' hu' => ?_) hm₀
      cases hu.symm.trans hu'
      exact restated_awake _ _
    · obtain ⟨x, hx, hat⟩ := Option.bind_eq_some_iff.1 hu
      have hthread := L.thread hm₀ hx (List.mem_of_getElem? hat)
      have hdetached := L.detach scope i (fun _ => j) u.id hm₀
      have hran := L.runDetached (m := m₀.detach scope i (fun _ => j) u.id) hturn
        (hworks.stirs.executing.trans hbusy) hdetached (L.restated (restated_awake u _) hthread) hrun
      exact L.reattach scope i hran.1 hran.2

end

section

variable {host : Host} (hhost : host.Obeys A) (hA : Tame A)
include hhost hA

/-- What lasts holds after any number of instructions. -/
theorem loop {fuel : Nat} {limit count : Word} {module : LoadedModule} (hbusy : m.executing = true)
    (hmodule : t.module = some module) (hm : I m) (ht : P t)
    (h : Machine.loop host fuel limit count module m t = some (m', t')) : I m' ∧ P t' := by
  induction fuel generalizing limit count module m t m' t' with
  | zero => cases h
  | succ fuel ih =>
    have hkill : ∀ {reason data}, some (m.kill t reason data) = some (m', t') → I m' ∧ P t' := by
      intro reason data heq
      cases heq
      exact ⟨L.stirs (stirs_kill t reason data) hm, L.stays ((Stays.refl t).setState _) ht⟩
    have hturn : ∀ {m t m' t'}, m.executing = true → I m → P t →
        Machine.turn host fuel m t = some (m', t') → I m' ∧ P t' := by
      intro m t m' t' hbusy hm ht hturn
      unfold Machine.turn turnWith at hturn
      split at hturn
      · cases hturn
        exact ⟨hm, L.stays ((Stays.refl t).setState _) ht⟩
      · rename_i hmodule
        exact ih hbusy hmodule hm ht hturn
    unfold Machine.loop at h
    split at h
    · cases h
      exact ⟨hm, ht⟩
    · split at h
      · exact hkill h
      · split at h
        · exact hkill h
        · rename_i op operands _
          dsimp only at h
          have hstep := fun {m₁ t₁ waits} (hs : Machine.step host (turnWith (Machine.loop host fuel))
              (execWith (turnWith (Machine.loop host fuel)) fuel) module op operands m
              { t with codePtr := t.codePtr + 1 + op.arity } = some (m₁, t₁, waits)) =>
            L.step hturn hhost hA stirs_execWith hbusy (by exact hmodule) hm (L.place _ ht) hs
          split at h
          · cases h
          · rename_i m₁ t₁ hs
            cases h
            exact hstep hs
          · rename_i m₁ t₁ hs
            have hbusy₁ := (acts_step (acts_turn hhost hA) hhost hA stirs_execWith hbusy hs).executing hA
            have hmodule₁ := (step_moves hhost hA.stays hs).same.module
            exact ih (hbusy₁.trans hbusy) (hmodule₁.trans hmodule) (hstep hs).1 (hstep hs).2 h

/-- **A turn.** -/
theorem turn {fuel : Nat} (hbusy : m.executing = true) (hm : I m) (ht : P t)
    (h : Machine.turn host fuel m t = some (m', t')) : I m' ∧ P t' := by
  unfold Machine.turn turnWith at h
  split at h
  · cases h
    exact ⟨hm, L.stays ((Stays.refl t).setState _) ht⟩
  · rename_i hmodule
    exact L.loop hhost hA hbusy hmodule hm ht h

/-- **A start for a result.** -/
theorem startResult {fuel : Nat} {scope : ScopeId} {name : ScriptName} {args : List Word}
    {info : ThreadInfo} {r : Option Word} (hm : I m)
    (h : m.startResult (Machine.turn host fuel) scope name args info = some (r, m')) : I m' :=
  L.startResult_of_turn (L.turn hhost hA) hm h

/-- **A tick.** -/
theorem exec {fuel : Nat} (hm : I m) (h : m.exec host fuel = some m') : I m' := by
  have hturn : ∀ {m t m' t'}, m.executing = true → I m → P t →
      Machine.turn host fuel m t = some (m', t') → I m' ∧ P t' := L.turn hhost hA
  unfold Machine.exec at h
  cases hbusy : m.executing with
  | true => exact L.stirs (stirs_execWith hbusy h) hm
  | false =>
    unfold execWith at h
    rw [if_neg (by simp [hbusy])] at h
    obtain ⟨m₁, hmaps, rfl⟩ := Option.map_eq_some_iff.1 h
    have hrounds := visitMaps_of_visit
      (R := fun m m' => m.executing = true → I m → m'.executing = true ∧ I m')
      (fun _ hbusy hm => ⟨hbusy, hm⟩) (fun h h' hbusy hm => h' (h hbusy hm).1 (h hbusy hm).2)
      (fun h hbusy hm => ⟨((ticks_visit (acts_turn hhost hA) hbusy h).executing hA).trans hbusy,
        L.visit hturn hbusy hm h⟩) hmaps
    exact L.busy false _ (hrounds rfl (L.busy true _ hm)).2

end

end Lasting

end ScriptMachine.Machine
