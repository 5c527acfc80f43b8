import ScriptMachine.Proofs.Machine.Lasting
import ScriptMachine.Proofs.Machine.Unaided

/-!
# What does not depend on the branch limit

Only turns look at the branch limit of a machine.  Whatever gives no turn of its own does the same to a
machine with another limit: requests, kills, starts and instructions (`step_withLimit`).  A start for a
result does the same if its turn does (`startResult_follows`).
-/

namespace ScriptMachine.Machine

open Thread

/-- The machine with another branch limit. -/
def withLimit (m : Machine) (limit : Word) : Machine :=
  { m with settings := { m.settings with branchLimit := limit } }

/-! ## What does not depend on the limit -/

section

variable (m : Machine) (t : Thread) (L : Word)

theorem report_withLimit (k : Hook) (e : Event) :
    (m.withLimit L).report k e = (m.report k e).withLimit L := by
  have hhooks : (m.withLimit L).hooks = m.hooks := rfl
  simp only [report, hhooks]
  split <;> rfl

theorem kill_withLimit (reason : KillReason) (data : Word) :
    (m.withLimit L).kill t reason data =
      ((m.kill t reason data).1.withLimit L, (m.kill t reason data).2) :=
  Prod.ext (report_withLimit (m.log .warn _) L .kill _) rfl

theorem spawn_withLimit (scope : ScopeId) (i j : Nat) (args : List Word) (info : ThreadInfo)
    (takesName : Bool) : (m.withLimit L).spawn scope i j args info takesName =
      ((m.spawn scope i j args info takesName).1,
        (m.spawn scope i j args info takesName).2.withLimit L) := by
  have hscopes : (m.withLimit L).scopes = m.scopes := rfl
  cases hmap : m.scopes.map? scope with
  | none => simp only [spawn, hscopes, hmap]
  | some map =>
    cases hplace : map.modules[i]? with
    | none =>
      simp only [spawn, hscopes, hmap, MapScope.takeThreadId, hplace]
      rfl
    | some place =>
      cases hmake : Thread.make? map.nextThreadId place.module scope i j args info with
      | none =>
        simp only [spawn, hscopes, hmap, MapScope.takeThreadId, hplace, hmake]
        rfl
      | some t =>
        have hmap' : (m.withLimit L).scopes.map? scope = some map := hmap
        let added : Machine :=
          { m with scopes := m.scopes.modifyMap scope fun _ => withThread map i t takesName }
        rw [spawn_eq hmap' hplace hmake, spawn_eq hmap hplace hmake]
        simp only
        split
        · exact congrArg (Prod.mk _) (report_withLimit (added.log .debug _) L .threadStart _)
        · rfl

theorem startAt_withLimit (scope : ScopeId) (i j : Nat) (args : List Word) (info : ThreadInfo)
    (forced : Bool) : (m.withLimit L).startAt scope i j args info forced =
      ((m.startAt scope i j args info forced).1,
        (m.startAt scope i j args info forced).2.withLimit L) := by
  have hscopes : (m.withLimit L).scopes = m.scopes := rfl
  have hset : ∀ (k : Word) (state : ThreadState),
      { m.withLimit L with
        scopes := m.scopes.modifyModule scope i fun s =>
          s.modifyThread k fun t => { t with state } } =
      { m with
        scopes := m.scopes.modifyModule scope i fun s =>
          s.modifyThread k fun t => { t with state } }.withLimit L := fun _ _ => rfl
  simp only [startAt, hscopes, hset, spawn_withLimit]
  cases m.scopes.map? scope with
  | none => rfl
  | some map =>
    dsimp only
    cases map.script? i j with
    | none => rfl
    | some script =>
      dsimp only
      split
      · rfl
      · split
        · rfl
        · split
          · rfl
          · split <;> rfl

theorem startScript_withLimit (scope : ScopeId) (name : ScriptName) (args : List Word)
    (info : ThreadInfo) : (m.withLimit L).startScript scope name args info =
      ((m.startScript scope name args info).1, (m.startScript scope name args info).2.withLimit L) := by
  have hresolve : (m.withLimit L).resolveScript? scope name = m.resolveScript? scope name := rfl
  simp only [startScript, hresolve, startAt_withLimit]
  cases m.resolveScript? scope name <;> rfl

theorem startForced_withLimit (scope : ScopeId) (name : ScriptName) (args : List Word)
    (info : ThreadInfo) : (m.withLimit L).startForced scope name args info =
      ((m.startForced scope name args info).1, (m.startForced scope name args info).2.withLimit L) := by
  have hresolve : (m.withLimit L).resolveScript? scope name = m.resolveScript? scope name := rfl
  simp only [startForced, hresolve, startAt_withLimit]
  cases m.resolveScript? scope name <;> rfl

theorem setScriptState_withLimit (scope : ScopeId) (name : ScriptName) (state : ThreadState) :
    (m.withLimit L).setScriptState scope name state =
      ((m.setScriptState scope name state).1, (m.setScriptState scope name state).2.withLimit L) := by
  have hresolve : (m.withLimit L).resolveScript? scope name = m.resolveScript? scope name := rfl
  have hscopes : (m.withLimit L).scopes = m.scopes := rfl
  simp only [setScriptState, hresolve, hscopes]
  cases m.resolveScript? scope name with
  | none => rfl
  | some slot =>
    dsimp only
    cases m.scopes.module? scope slot.moduleIndex with
    | none => rfl
    | some place =>
      dsimp only
      split <;> rfl

theorem reattach_withLimit (scope : ScopeId) (i : Nat) :
    (m.withLimit L).reattach scope i t = (m.reattach scope i t).withLimit L := by
  have hscopes : (m.withLimit L).scopes = m.scopes := rfl
  simp only [reattach, hscopes]
  split
  · rfl
  · exact report_withLimit (m.log .debug _) L .threadStop _

theorem haltFrom_withLimit (pause : Bool) (name : Option ScriptName) :
    (m.withLimit L).haltFrom t pause name =
      ((m.haltFrom t pause name).1.withLimit L, (m.haltFrom t pause name).2) := by
  cases name with
  | none => rfl
  | some name =>
    have hholds : ∀ n : Machine, (n.withLimit L).holdsName t name = n.holdsName t name := fun _ => rfl
    simp only [haltFrom]
    generalize (if pause = true then ThreadState.paused else ThreadState.stopped) = state
    simp only [setScriptState_withLimit, hholds]
    split <;> rfl

theorem endMessage_withLimit :
    (m.withLimit L).endMessage t = ((m.endMessage t).1.withLimit L, (m.endMessage t).2) := by
  have hhooks : (m.withLimit L).hooks = m.hooks := rfl
  simp only [endMessage, hhooks]
  split <;> rfl

theorem printArray_withLimit (i : Word) :
    (m.withLimit L).printArray t i = ((m.printArray t i).1.withLimit L, (m.printArray t i).2) := by
  have hhooks : (m.withLimit L).hooks = m.hooks := rfl
  have hscopes : (m.withLimit L).scopes = m.scopes := rfl
  simp only [printArray, hhooks, hscopes]
  split
  · rfl
  · split <;> rfl

theorem accessVar_withLimit (level : Level) (action : VarAction) (i : Word) :
    (m.withLimit L).accessVar t level action i =
      ((m.accessVar t level action i).1.withLimit L, (m.accessVar t level action i).2) := by
  have hscopes : (m.withLimit L).scopes = m.scopes := rfl
  cases action with
  | dropArr =>
    cases level with
    | thread => rfl
    | _ =>
      simp only [accessVar, hscopes]
      split <;> rfl
  | _ => cases level <;> rfl

/-- A start that gives no turn. -/
theorem startFrom_withLimit (turn turn' : Turn) (mode : StartMode) (name : Option ScriptName)
    (args : List Word) (hmode : mode = .result → name = none) :
    (m.withLimit L).startFrom turn' t mode name args =
      (m.startFrom turn t mode name args).map fun p => (p.1.withLimit L, p.2) := by
  cases name with
  | none => rfl
  | some name =>
    have hholds : (m.withLimit L).holdsName t name = m.holdsName t name := rfl
    cases mode with
    | normal =>
      simp only [startFrom, hholds, startScript_withLimit]
      split <;> rfl
    | forced =>
      simp only [startFrom, hholds, startForced_withLimit]
      rfl
    | result => exact absurd (hmode rfl) (by rintro ⟨⟩)

/-- A built-in function that starts no script for its result. -/
theorem callBuiltin_withLimit (turn turn' : Turn) {f : Builtin} {args : List Word}
    (hnumber : f ≠ .startResultNumber)
    (hname : f = .startResultName → m.nameOf? (args.headD 0) = none) :
    (m.withLimit L).callBuiltin turn' t f args =
      (m.callBuiltin turn t f args).map fun p => (p.1.withLimit L, p.2) := by
  have hnames : ∀ i, (m.withLimit L).nameOf? i = m.nameOf? i := fun _ => rfl
  have hhooks : (m.withLimit L).hooks = m.hooks := rfl
  cases f with
  | startResultNumber => exact absurd rfl hnumber
  | startNumber => exact startFrom_withLimit m t L turn turn' .normal (some _) _ nofun
  | startName => exact startFrom_withLimit m t L turn turn' .normal _ _ nofun
  | startForcedNumber => exact startFrom_withLimit m t L turn turn' .forced (some _) _ nofun
  | startForcedName => exact startFrom_withLimit m t L turn turn' .forced _ _ nofun
  | startResultName => exact startFrom_withLimit m t L turn turn' .result _ _ fun _ => hname rfl
  | stopNumber => exact congrArg some (haltFrom_withLimit ..)
  | stopName => exact congrArg some (haltFrom_withLimit ..)
  | pauseNumber => exact congrArg some (haltFrom_withLimit ..)
  | pauseName => exact congrArg some (haltFrom_withLimit ..)
  | printEnd => exact congrArg some (endMessage_withLimit ..)
  | printArray => exact congrArg some (printArray_withLimit ..)
  | checkLock =>
    simp only [callBuiltin, hhooks]
    split <;> rfl
  | _ => rfl

/-- **An instruction** that gives no turn does not depend on the limit. -/
theorem step_withLimit (host host' : Host) (turn turn' : Turn) (exec exec' : Machine → Option Machine)
    (x : LoadedModule) {op : Opcode} {operands : List Word}
    (hresult : resultCall? op operands m t = none) (hcall : hostCall? op operands m = none) :
    step host' turn' exec' x op operands (m.withLimit L) t =
      (step host turn exec x op operands m t).map fun p => (p.1.withLimit L, p.2) := by
  have hkill : ∀ (u : Thread) (reason : KillReason) (data : Word),
      (m.withLimit L).killStep u reason data =
        (m.killStep u reason data).map fun p => (p.1.withLimit L, p.2) := by
    intro u reason data
    simp only [killStep, kill_withLimit, Option.map_some]
  cases op with
  | callFunc =>
    have hbase : (m.withLimit L).settings.funcBase = m.settings.funcBase := rfl
    have hbuiltins : (m.withLimit L).builtins = m.builtins := rfl
    have hfuncs : (m.withLimit L).hostFuncs = m.hostFuncs := rfl
    simp only [step, callFunc, hbase, hbuiltins, hfuncs]
    simp only [resultCall?] at hresult
    simp only [hostCall?] at hcall
    split
    · rename_i hfunc
      rw [if_pos hfunc] at hresult
      cases hf : m.builtins.find? (operands.tail.headD 0) with
      | none => exact hkill ..
      | some f =>
        rw [hf] at hresult
        have hbuiltin : (m.withLimit L).callBuiltin turn' (t.takeArgs (operands.headD 0)).2 f
            (t.takeArgs (operands.headD 0)).1 = _ :=
          callBuiltin_withLimit _ _ _ turn turn' (by rintro rfl; cases hresult)
            (by rintro rfl; simpa using hresult)
        simp only [hbuiltin, Option.map_map]
        rfl
    · rename_i hfunc
      rw [if_neg hfunc] at hcall
      rw [hcall]
      exact hkill ..
  | kill => exact hkill ..
  | var level action =>
    simp only [step, accessVar_withLimit]
    rfl
  | restart =>
    simp only [step]
    split <;> rfl
  | jumpEqual =>
    simp only [step]
    split <;> rfl
  | call | callDiscard =>
    simp only [step, hkill]
    split <;> rfl
  | _ => rfl

end

/-! ## Starts for a result -/

/-- The machine has no limit, and scripts run. -/
structure Free (m : Machine) : Prop where
  limit : m.settings.branchLimit = 0
  executing : m.executing = true

/-- The machine as the thread begins its turn, with its module noted. -/
def noting (m : Machine) (t : Thread) : Machine :=
  { m with running := (t.module.map (·.serial)).toList ++ m.running }

/-- The second turn, if it comes to an end without a limit, comes to the same as the first one does with
the limit `L`. -/
def FollowsAt (L : Word) (turn turn₀ : Turn) (m : Machine) (t : Thread) : Prop :=
  Free m → ∀ m' t', turn₀ m t = some (m', t') →
    turn (m.withLimit L) t = some (m'.withLimit L, t') ∧ Free m'

variable {L : Word} {m m' : Machine} {t t' : Thread}

/-- Requests set no limit. -/
theorem Free.stirs (h : Free m) (hm : m.Stirs m') : Free m' :=
  ⟨by rw [hm.evolves.settings]; exact h.limit, hm.executing.trans h.executing⟩

/-- The turn of a start for a result begins alike, whatever the limit. -/
theorem startedTurn?_withLimit (m : Machine) (L : Word) (scope : ScopeId) (name : ScriptName)
    (args : List Word) (info : ThreadInfo) : (m.withLimit L).startedTurn? scope name args info =
      (m.startedTurn? scope name args info).map fun q => (q.1.withLimit L, q.2) := by
  have hresolve : (m.withLimit L).resolveScript? scope name = m.resolveScript? scope name := rfl
  have htakes : ∀ slot, (m.withLimit L).canTakeName scope name slot = m.canTakeName scope name slot :=
    fun _ => rfl
  simp only [startedTurn?, hresolve, htakes, spawn_withLimit]
  cases m.resolveScript? scope name with
  | none => rfl
  | some slot =>
    dsimp only
    generalize m.spawn scope slot.moduleIndex slot.scriptIndex args info (m.canTakeName scope name slot)
      = p
    obtain ⟨id, m₁⟩ := p
    cases id with
    | none => rfl
    | some id =>
      have hscopes : (m₁.withLimit L).scopes = m₁.scopes := rfl
      simp only [hscopes, Option.map_map]
      rfl

/-- A start for a result without a turn. -/
theorem startResult_withLimit_of_none {scope : ScopeId} {name : ScriptName} {args : List Word}
    {info : ThreadInfo} (h : m.startedTurn? scope name args info = none) (turn turn' : Turn) :
    (m.withLimit L).startResult turn' scope name args info =
      (m.startResult turn scope name args info).map fun q => (q.1, q.2.withLimit L) := by
  have hresolve : (m.withLimit L).resolveScript? scope name = m.resolveScript? scope name := rfl
  have htakes : ∀ slot, (m.withLimit L).canTakeName scope name slot = m.canTakeName scope name slot :=
    fun _ => rfl
  unfold startedTurn? at h
  simp only [startResult, hresolve, htakes, spawn_withLimit]
  cases hslot : m.resolveScript? scope name with
  | none => rfl
  | some slot =>
    simp only [hslot] at h ⊢
    generalize m.spawn scope slot.moduleIndex slot.scriptIndex args info (m.canTakeName scope name slot)
      = p at h ⊢
    obtain ⟨id, m₁⟩ := p
    cases id with
    | none => rfl
    | some id =>
      have hscopes : (m₁.withLimit L).scopes = m₁.scopes := rfl
      simp only [Option.map_eq_none_iff] at h
      simp only [hscopes, h]
      rfl

/-- The machine and the thread as the turn of a start for a result begins. -/
theorem Free.started {scope : ScopeId} {name : ScriptName} {args : List Word} {info : ThreadInfo}
    {q : Machine × Thread} (h : Free m) (hstarted : m.startedTurn? scope name args info = some q) :
    Free (q.1.noting q.2) := by
  obtain ⟨map, place, v, u, i, j, takesName, hmap, hplace, hv, -, -, -, rfl, -⟩ := exists_started hstarted
  have hsettings := (evolves_spawn hmap hplace hv takesName).settings
  exact ⟨(congrArg Settings.branchLimit hsettings).trans h.limit, rfl⟩

/-- A turn outside the tree does the same as its turn does. -/
theorem runDetached_follows {turn turn₀ : Turn} (hm : Free (m.noting t))
    (hturn : FollowsAt L turn turn₀ (m.noting t) t) (h : runDetached turn₀ m t = some (m', t')) :
    runDetached turn (m.withLimit L) t = some (m'.withLimit L, t') ∧ Free m' := by
  unfold runDetached at h
  obtain ⟨⟨m₁, t₁⟩, hran, heq⟩ := Option.map_eq_some_iff.1 h
  cases heq
  obtain ⟨hran', hm₁⟩ := hturn hm m₁ t' hran
  refine ⟨?_, hm₁.limit, hm₁.executing⟩
  unfold runDetached
  exact congrArg (Option.map _) hran'

/-- **A start for a result** comes to the same if its turn does. -/
theorem startResult_follows {turn turn₀ : Turn} {scope : ScopeId} {name : ScriptName}
    {args : List Word} {info : ThreadInfo} {r : Option Word} (hfree : Free m)
    (hturn : ∀ q, m.startedTurn? scope name args info = some q →
      FollowsAt L turn turn₀ (q.1.noting q.2) q.2)
    (h : m.startResult turn₀ scope name args info = some (r, m')) :
    (m.withLimit L).startResult turn scope name args info = some (r, m'.withLimit L) ∧ Free m' := by
  cases hstarted : m.startedTurn? scope name args info with
  | none =>
    rw [startResult_withLimit_of_none hstarted turn₀ turn, h]
    exact ⟨rfl, hfree.stirs (stirs_of_startedTurn? hstarted h)⟩
  | some q =>
    have hstarted' : (m.withLimit L).startedTurn? scope name args info = some (q.1.withLimit L, q.2) := by
      rw [startedTurn?_withLimit, hstarted, Option.map_some]
    obtain ⟨slot, hslot, hresult⟩ := startResult_of_some hstarted
    obtain ⟨slot', hslot', hresult'⟩ := startResult_of_some hstarted'
    cases hslot.symm.trans hslot'
    rw [hresult turn₀] at h
    obtain ⟨⟨m₁, u⟩, hrun, heq⟩ := Option.map_eq_some_iff.1 h
    cases heq
    obtain ⟨hrun', hm₁⟩ := runDetached_follows (hfree.started hstarted) (hturn q hstarted) hrun
    have hback := reattach_withLimit { m₁ with executing := m.executing } u L scope slot.moduleIndex
    refine ⟨?_, ?_, ?_⟩
    · rw [hresult' turn, hrun', Option.map_some]
      exact congrArg (fun n => some (_, n)) hback
    · have htools := reattach_tools { m₁ with executing := m.executing } scope slot.moduleIndex u
      exact (congrArg (·.1.branchLimit) htools).trans hm₁.limit
    · rw [reattach_executing]
      exact hfree.executing

end ScriptMachine.Machine
