import ScriptMachine.Machine.Step

/-!
# Turns within turns

Scripts are run in two places: the scheduler gives a thread its turn, and a start for a result gives
the new thread a turn at once.  So an instruction, a start and a visit each give at most one turn of
their own.  `startedTurn?` and `visitedTurn?` say with which machine and thread it begins, and
`resultCall?` says which script an instruction starts.  What is done is a function of what that turn
comes to, and where there is no such turn nothing depends on turns.  In the same way an instruction
depends on the host only if it calls a host function.
-/

namespace ScriptMachine.Machine

/-! ## Starts for a result -/

/-- The machine and the thread as the turn begins that a start for a result gives. -/
def startedTurn? (m : Machine) (scope : ScopeId) (name : ScriptName) (args : List Word)
    (info : ThreadInfo) : Option (Machine × Thread) :=
  match m.resolveScript? scope name with
  | none => none
  | some slot =>
    match m.spawn scope slot.moduleIndex slot.scriptIndex args info (m.canTakeName scope name slot) with
    | (none, _) => none
    | (some id, m) =>
      ((m.scopes.module? scope slot.moduleIndex).bind (·.thread? id)).map fun t =>
        ({ m with
            executing := true
            scopes := m.scopes.modifyModule scope slot.moduleIndex fun s =>
              s.modifyThread id fun _ => Thread.placeholder id },
          { t with lastTick := m.tick })

section

variable {m : Machine} {scope : ScopeId} {name : ScriptName} {args : List Word} {info : ThreadInfo}

/-- A start without a turn does not depend on turns. -/
theorem startResult_of_none (h : m.startedTurn? scope name args info = none) (turn turn' : Turn) :
    m.startResult turn scope name args info = m.startResult turn' scope name args info := by
  unfold startedTurn? at h
  cases hslot : m.resolveScript? scope name with
  | none => simp only [startResult, hslot]
  | some slot =>
    simp only [hslot] at h
    split at h
    · rename_i hspawn
      simp only [startResult, hslot, hspawn]
    · rename_i id m₁ hspawn
      rw [Option.map_eq_none_iff] at h
      simp only [startResult, hslot, hspawn, h]

/-- A report leaves alone whether scripts run. -/
theorem report_executing (m : Machine) (k : Hook) (e : Event) :
    (m.report k e).executing = m.executing := by
  unfold report
  split <;> rfl

/-- A new thread leaves alone whether scripts run. -/
theorem spawn_executing (m : Machine) (scope : ScopeId) (i j : Nat) (args : List Word)
    (info : ThreadInfo) (takesName : Bool) :
    (m.spawn scope i j args info takesName).2.executing = m.executing := by
  unfold spawn
  split
  · rfl
  · dsimp only
    split
    · rfl
    · split
      · rfl
      · -- whether the thread takes the name, and whether it is found
        split <;> split <;> first | exact report_executing .. | rfl

/-- A start with a turn depends on what the turn comes to. -/
theorem startResult_of_some {p : Machine × Thread} (h : m.startedTurn? scope name args info = some p) :
    ∃ slot, m.resolveScript? scope name = some slot ∧ ∀ turn : Turn,
      m.startResult turn scope name args info = (runDetached turn p.1 p.2).map fun q =>
        (if q.2.state = .stopped then some q.2.result else none,
          { q.1 with executing := m.executing }.reattach scope slot.moduleIndex q.2) := by
  unfold startedTurn? at h
  cases hslot : m.resolveScript? scope name with
  | none =>
    rw [hslot] at h
    cases h
  | some slot =>
    simp only [hslot] at h
    split at h
    · cases h
    · rename_i id m₁ hspawn
      obtain ⟨t, ht, rfl⟩ := Option.map_eq_some_iff.1 h
      have hbusy : m₁.executing = m.executing := by
        have hsame := m.spawn_executing scope slot.moduleIndex slot.scriptIndex args info
          (m.canTakeName scope name slot)
        rwa [hspawn] at hsame
      refine ⟨slot, rfl, fun turn => ?_⟩
      simp only [startResult, hslot, hspawn, ht, hbusy]
      rw [Option.map_eq_bind]
      rfl

end

/-! ## Instructions -/

/-- The script that an instruction starts for its result, with the arguments. -/
def resultCall? (op : Opcode) (operands : List Word) (m : Machine) (t : Thread) :
    Option (ScriptName × List Word) :=
  match op with
  | .callFunc =>
    let args := (t.takeArgs (operands.headD 0)).1
    let func := operands.tail.headD 0
    if func < m.settings.funcBase then
      match m.builtins.find? func with
      | some .startResultNumber => some (.number (args.headD 0).signed, args.tail)
      | some .startResultName => (m.nameOf? (args.headD 0)).map fun name => (name, args.tail)
      | _ => none
    else none
  | _ => none

/-- The host function that an instruction calls. -/
def hostCall? (op : Opcode) (operands : List Word) (m : Machine) : Option Nat :=
  match op with
  | .callFunc =>
    let func := operands.tail.headD 0
    if func < m.settings.funcBase then none
    else m.hostFuncs[(func - m.settings.funcBase).toNat]?
  | _ => none

section

variable {op : Opcode} {operands : List Word} {m : Machine} {t : Thread} {module : LoadedModule}

/-- An instruction that starts no script for its result does not depend on turns. -/
theorem step_of_none (host host' : Host) (turn turn' : Turn) (exec exec' : Machine → Option Machine)
    (hcall : resultCall? op operands m t = none)
    (hhost : ∀ key, hostCall? op operands m = some key → ∀ args,
      (host key args).run turn exec m (t.takeArgs (operands.headD 0)).2 =
        (host' key args).run turn' exec' m (t.takeArgs (operands.headD 0)).2) :
    step host turn exec module op operands m t = step host' turn' exec' module op operands m t := by
  cases op with
  | callFunc =>
    simp only [step, callFunc]
    simp only [resultCall?] at hcall
    simp only [hostCall?] at hhost
    split
    · rename_i hfunc
      rw [if_pos hfunc] at hcall
      split
      · rename_i f hf
        rw [hf] at hcall
        cases f with
        | startResultNumber => cases hcall
        | startResultName =>
          simp only [Option.map_eq_none_iff] at hcall
          simp only [callBuiltin, startFrom, hcall]
        | _ => rfl
      · rfl
    · rename_i hfunc
      rw [if_neg hfunc] at hhost
      split
      · rename_i key hkey
        exact hhost key hkey _
      · rfl
  | _ => rfl

/-- An instruction that starts a script for its result does nothing else. -/
theorem step_of_some {p : ScriptName × List Word} (h : resultCall? op operands m t = some p)
    (host : Host) (turn : Turn) (exec : Machine → Option Machine) :
    step host turn exec module op operands m t =
      (m.startResult turn t.scope p.1 p.2 t.info).map fun q =>
        (q.2, (t.takeArgs (operands.headD 0)).2.push (q.1.getD 0), false) := by
  have hmap : ∀ (r : Option (Option Word × Machine)) (u : Thread),
      (r.map fun q => (q.2, u.push (q.1.getD 0))).map (fun q => (q.1, q.2, false)) =
        r.map fun q => (q.2, u.push (q.1.getD 0), false) := by
    intro r u
    rw [Option.map_map]
    rfl
  cases op with
  | callFunc =>
    simp only [resultCall?] at h
    split at h
    · rename_i hfunc
      split at h
      · rename_i hf
        cases h
        simp only [step, callFunc, if_pos hfunc, hf, callBuiltin, startFrom]
        exact hmap _ _
      · rename_i hf
        obtain ⟨name, hname, rfl⟩ := Option.map_eq_some_iff.1 h
        simp only [step, callFunc, if_pos hfunc, hf, callBuiltin, hname, startFrom]
        exact hmap _ _
      · cases h
    · cases h
  | _ => cases h

/-- A function call that neither starts a script for its result nor calls a host function calls another
built-in function, or its number is that of no function. -/
theorem callFunc_cases {host : Host} {turn : Turn} {exec : Machine → Option Machine} {m' : Machine}
    {t' : Thread} {waits : Bool} (hresult : resultCall? .callFunc operands m t = none)
    (hhost : hostCall? .callFunc operands m = none)
    (h : step host turn exec module .callFunc operands m t = some (m', t', waits)) :
    (∃ f, f ≠ .startResultNumber ∧
        (f = .startResultName → m.nameOf? ((t.takeArgs (operands.headD 0)).1.headD 0) = none) ∧
        m.callBuiltin turn (t.takeArgs (operands.headD 0)).2 f (t.takeArgs (operands.headD 0)).1 =
          some (m', t')) ∨
      m.killStep (t.takeArgs (operands.headD 0)).2 .unknownFunc (operands.tail.headD 0) =
        some (m', t', waits) := by
  simp only [step, callFunc] at h
  simp only [resultCall?] at hresult
  simp only [hostCall?] at hhost
  split at h
  · rename_i hfunc
    rw [if_pos hfunc] at hresult
    split at h
    · rename_i f hf
      obtain ⟨⟨m₁, t₁⟩, hbuiltin, heq⟩ := Option.map_eq_some_iff.1 h
      cases heq
      rw [hf] at hresult
      refine .inl ⟨f, ?_, ?_, hbuiltin⟩
      · rintro rfl
        cases hresult
      · rintro rfl
        simpa using hresult
    · exact .inr h
  · rename_i hfunc
    rw [if_neg hfunc] at hhost
    rw [hhost] at h
    exact .inr h

/-- A call of a host function. -/
theorem step_of_host {host : Host} {turn : Turn} {exec : Machine → Option Machine} {key : Nat}
    (h : hostCall? op operands m = some key) (module : LoadedModule) :
    step host turn exec module op operands m t =
      (host key (t.takeArgs (operands.headD 0)).1).run turn exec m (t.takeArgs (operands.headD 0)).2 := by
  cases op with
  | callFunc =>
    simp only [hostCall?] at h
    split at h
    · cases h
    · rename_i hfunc
      simp only [step, callFunc, if_neg hfunc, h]
  | _ => cases h

end

/-! ## Visits -/

/-- The machine and the thread as the turn begins that a visit gives. -/
def visitedTurn? (m : Machine) (scope : ScopeId) (i j : Nat) : Option (Machine × Thread) :=
  if !m.scopes.isActive scope then none
  else
    match (m.scopes.module? scope i).bind (·.threads[j]?) with
    | none => none
    | some t =>
      if t.state.isFinished then none
      else
        let (runnable, m) := m.isRunnable scope t.state
        if !runnable || t.lastTick == m.tick then none
        else
          let m := if t.state = .running then m
            else m.log .trace s!"thread {t.id} resumes after {t.state.display}"
          let t := { t with lastTick := m.tick, state := .running, delay := t.delay - min t.delay 1 }
          if 0 < t.delay then none
          else some (m.modifyThreadAt scope i j fun _ => Thread.placeholder t.id, t)

section

variable {m : Machine} {scope : ScopeId} {i j : Nat}

/-- A visit without a turn does not depend on turns. -/
theorem visit_of_none (h : m.visitedTurn? scope i j = none) (turn turn' : Turn) :
    m.visit turn scope i j = m.visit turn' scope i j := by
  unfold visitedTurn? at h
  unfold visit
  split at h
  · rename_i hactive
    rw [if_pos hactive, if_pos hactive]
  · rename_i hactive
    rw [if_neg hactive, if_neg hactive]
    cases ht : (m.scopes.module? scope i).bind (·.threads[j]?) with
    | none => rfl
    | some t =>
      simp only [ht] at h ⊢
      split at h
      · rename_i hend
        rw [if_pos hend, if_pos hend]
      · rename_i hend
        rw [if_neg hend, if_neg hend]
        split at h
        · rename_i hwaits
          rw [if_pos hwaits, if_pos hwaits]
        · rename_i hwaits
          rw [if_neg hwaits, if_neg hwaits]
          split at h
          · rename_i hdelay
            simp only [takeTurn]
            rw [if_pos hdelay, if_pos hdelay]
          · cases h

/-- A visit with a turn depends on what the turn comes to. -/
theorem visit_of_some {p : Machine × Thread} (h : m.visitedTurn? scope i j = some p) (turn : Turn) :
    m.visit turn scope i j =
      (runDetached turn p.1 p.2).map fun q => (.next, q.1.reattach scope i q.2) := by
  unfold visitedTurn? at h
  unfold visit
  split at h
  · cases h
  · rename_i hactive
    rw [if_neg hactive]
    cases ht : (m.scopes.module? scope i).bind (·.threads[j]?) with
    | none =>
      simp only [ht] at h
      cases h
    | some t =>
      simp only [ht] at h ⊢
      split at h
      · cases h
      · rename_i hend
        rw [if_neg hend]
        split at h
        · cases h
        · rename_i hwaits
          rw [if_neg hwaits]
          split at h
          · cases h
          · rename_i hdelay
            cases h
            simp only [takeTurn]
            rw [if_neg hdelay, Option.map_eq_bind]
            rfl

end

/-! ## Rounds of visits -/

section

variable {R : Machine → Machine → Prop} {turn : Turn} {m m' : Machine} (refl : ∀ m, R m m)
  (trans : ∀ {m₁ m₂ m₃}, R m₁ m₂ → R m₂ m₃ → R m₁ m₃)
  (hvisit : ∀ {m m' scope i j v}, m.visit turn scope i j = some (v, m') → R m m')
include refl trans hvisit

omit refl in
/-- What holds of each visit holds of those to a module scope. -/
theorem visitThreads_of_visit {scope : ScopeId} {i fuel j : Nat}
    (h : visitThreads turn scope i fuel j m = some m') : R m m' := by
  induction fuel generalizing j m with
  | zero => cases h
  | succ fuel ih =>
    unfold visitThreads at h
    split at h
    · cases h
    · rename_i hfirst
      cases h
      exact hvisit hfirst
    · rename_i hfirst
      exact trans (hvisit hfirst) (ih h)
    · rename_i hfirst
      exact trans (hvisit hfirst) (ih h)

/-- What holds of each visit holds of those to a map. -/
theorem visitModules_of_visit {scope : ScopeId} {fuel i : Nat}
    (h : visitModules turn scope fuel i m = some m') : R m m' := by
  induction fuel generalizing i m with
  | zero => cases h
  | succ fuel ih =>
    unfold visitModules at h
    split at h
    · cases h
      exact refl _
    · split at h
      · split at h
        · cases h
        · rename_i hthreads
          exact trans (visitThreads_of_visit trans hvisit hthreads) (ih h)
      · cases h
        exact refl _

/-- What every visit does, and what is done one after another, is done in a round of visits. -/
theorem visitMaps_of_visit {fuel : Nat} {scopes : List ScopeId}
    (h : visitMaps turn fuel scopes m = some m') : R m m' := by
  induction scopes generalizing m with
  | nil =>
    cases h
    exact refl _
  | cons scope rest ih =>
    unfold visitMaps at h
    split at h
    · split at h
      · cases h
      · rename_i hmodules
        exact trans (visitModules_of_visit refl trans hvisit hmodules) (ih h)
    · exact ih h

end

end ScriptMachine.Machine
