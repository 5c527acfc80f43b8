import ScriptMachine.Proofs.Machine.Nesting
import ScriptMachine.Proofs.Machine.Stirring
import ScriptMachine.Proofs.Thread.Framing

/-!
# What happens in a turn

A turn is a sequence of three things: the machine is stirred, the thread proceeds, and a host function
changes both as it is allowed to; and a script that is started for its result has a turn of its own
in between.  `Machine.Acts` is this as a relation between what is before and after.  While scripts run
no tick begins, so the scheduler is described by a second relation: `Machine.Ticks` removes threads
that have ended, lowers delays, and gives turns.

`acts_turn`, `acts_startResult` and `exec_cases` say that turns, starts for a result and ticks are
instances.  What holds along these relations holds of every run.
-/

namespace ScriptMachine

/-- The thread as it begins its turn in a tick. -/
def Thread.awake (t : Thread) (tick : Nat) : Thread :=
  { t with lastTick := tick, state := .running, delay := t.delay - min t.delay 1 }

namespace Machine

open Thread

/-- Puts a placeholder where a thread was; `j` says where in the list of threads. -/
def detach (m : Machine) (scope : ScopeId) (i : Nat) (j : List Thread → Nat) (id : Word) : Machine :=
  { m with scopes := m.scopes.modifyModule scope i fun s =>
      { s with threads := s.threads.modify (j s.threads) fun _ => placeholder id } }

/-- What can happen to a machine and the thread that runs, where the host changes both as `A`
allows. -/
inductive Acts (A : ChangeRule) : Machine → Thread → Machine → Thread → Prop
  | stir {m m' : Machine} {t : Thread} (h : m.Stirs m') : Acts A m t m' t
  | proceed {m : Machine} {t t' : Thread} (h : t.Proceeds t') : Acts A m t m t'
  | host {m m' : Machine} {t t' : Thread} (h : A m t m' t') : Acts A m t m' t'
  | trans {m₁ m₂ m₃ : Machine} {t₁ t₂ t₃ : Thread} (h : Acts A m₁ t₁ m₂ t₂)
      (h' : Acts A m₂ t₂ m₃ t₃) : Acts A m₁ t₁ m₃ t₃
  /-- A thread is added and has a turn at once.  It is looked up by its id. -/
  | result {m m' : Machine} {t u u' v : Thread} {map : MapScope} {place : ModuleScope}
      {scope : ScopeId} {i j : Nat} {args : List Word} {info : ThreadInfo} {takesName : Bool}
      (hmap : m.scopes.map? scope = some map) (hplace : map.modules[i]? = some place)
      (hv : Thread.make? map.nextThreadId place.module scope i j args info = some v)
      (hname : takesName = true → map.Single i j)
      (hu : (place.threads ++ [v]).find? (·.id == u.id) = some u) (hid : u.id = v.id)
      (h : Acts A { (m.spawn scope i j args info takesName).2.detach scope i
          (fun ts => ts.findIdx (·.id == u.id)) u.id with executing := true }
        { u with lastTick := (m.spawn scope i j args info takesName).2.tick } m' u') :
    Acts A m t ({ m' with executing := m.executing }.reattach scope i u') t

/-- What the scheduler does within a tick. -/
inductive Ticks (A : ChangeRule) : Machine → Machine → Prop
  | stir {m m' : Machine} (h : m.Stirs m') : Ticks A m m'
  | trans {m₁ m₂ m₃ : Machine} (h : Ticks A m₁ m₂) (h' : Ticks A m₂ m₃) : Ticks A m₁ m₃
  /-- A thread that has ended is removed. -/
  | reap {m : Machine} {scope : ScopeId} {i j : Nat} {u : Thread}
      (hu : (m.scopes.module? scope i).bind (·.threads[j]?) = some u)
      (hend : u.state.isFinished = true) : Ticks A m (m.reap scope i j)
  /-- A delay is lowered. -/
  | wait {m : Machine} {scope : ScopeId} {i j : Nat} {u : Thread}
      (hu : (m.scopes.module? scope i).bind (·.threads[j]?) = some u)
      (hend : u.state.isFinished = false) :
    Ticks A m (m.modifyThreadAt scope i j fun _ => u.awake m.tick)
  /-- A thread has its turn. -/
  | turn {m m' : Machine} {scope : ScopeId} {i j : Nat} {u u' : Thread}
      (hu : (m.scopes.module? scope i).bind (·.threads[j]?) = some u)
      (hend : u.state.isFinished = false)
      (h : Acts A (m.detach scope i (fun _ => j) u.id) (u.awake m.tick) m' u') :
    Ticks A m (m'.reattach scope i u')

/-- Nothing happens. -/
theorem Acts.refl {A : ChangeRule} (m : Machine) (t : Thread) : Acts A m t m t := .stir (.refl m)

/-! ## Whether scripts run -/

/-- Requests leave alone whether scripts run. -/
theorem Stirs.executing {m m' : Machine} (h : m.Stirs m') : m'.executing = m.executing := by
  induction h with
  | refl m => rfl
  | trans _ _ ih ih' => exact ih'.trans ih
  | note => rfl
  | aside => rfl
  | vars => rfl
  | restate => rfl
  | spawn hmap hplace ht hname =>
    rw [spawn_eq hmap hplace ht]
    simp only
    split
    · exact report_executing ..
    · rfl
  | stray => rfl

/-- Putting a thread back leaves alone whether scripts run. -/
theorem reattach_executing (m : Machine) (scope : ScopeId) (i : Nat) (t : Thread) :
    (m.reattach scope i t).executing = m.executing := by
  unfold reattach
  simp only
  split
  · rfl
  · exact report_executing ..

/-- What the host may do: the calling thread stays, and no script begins or ends to run. -/
structure Tame (A : ChangeRule) : Prop where
  stays : ∀ {m t m' t'}, A m t m' t' → Stays t t'
  executing : ∀ {m t m' t'}, A m t m' t' → m'.executing = m.executing

/-- Tame turns leave alone whether scripts run. -/
theorem Acts.executing {A : ChangeRule} (hA : Tame A) {m m' : Machine} {t t' : Thread}
    (h : Acts A m t m' t') : m'.executing = m.executing := by
  induction h with
  | stir h => exact h.executing
  | proceed _ => rfl
  | host h => exact hA.executing h
  | trans _ _ ih ih' => exact ih'.trans ih
  | result => exact reattach_executing ..

/-! ## Instructions -/

/-- Popping a word leaves the state alone. -/
theorem pop_state (t : Thread) : t.pop.2.state = t.state := by
  unfold Thread.pop
  split <;> rfl

/-- A thread that has returned is inactive only if it was so before. -/
theorem inactive_ret {t : Thread} {value : Option Word} (h : (t.ret value).state = .inactive) :
    t.state = .inactive := by
  unfold Thread.ret at h
  split at h
  · cases h
  · dsimp only at h
    split at h <;> exact h

/-- Access to a variable leaves the state alone. -/
theorem accessVar_state (m : Machine) (t : Thread) (level : Level) (action : VarAction) (i : Word) :
    (m.accessVar t level action i).2.state = t.state := by
  cases action <;> cases level <;>
    simp only [accessVar, Thread.push] <;> first | rfl | exact pop_state _ | skip
  all_goals first
    | exact (pop_state _).trans (pop_state _)
    | (split <;> exact (pop_state _).trans (pop_state _))

/-- No instruction but a function call makes its thread inactive. -/
theorem inactive_step {host : Host} {turn : Turn} {exec : Machine → Option Machine}
    {module : LoadedModule} {op : Opcode} {operands : List Word} {m m' : Machine} {t t' : Thread}
    {waits : Bool} (h : step host turn exec module op operands m t = some (m', t', waits))
    (hop : op ≠ .callFunc) (hstate : t'.state = .inactive) : t.state = .inactive := by
  cases op with
  | callFunc => exact absurd rfl hop
  | restart =>
    simp only [step] at h
    split at h <;> cases h
    · exact hstate
    · cases hstate
  | var level action =>
    simp only [step, Option.some.injEq, Prod.mk.injEq] at h
    rw [← accessVar_state m t level action (operands.headD 0), h.2.1]
    exact hstate
  | jumpTrue =>
    simp only [step, Option.some.injEq, Prod.mk.injEq] at h
    rw [← pop_state t, ← hstate, ← h.2.1]
    split <;> rfl
  | jumpZero =>
    simp only [step, Option.some.injEq, Prod.mk.injEq] at h
    rw [← pop_state t, ← hstate, ← h.2.1]
    split <;> rfl
  | jumpEqual =>
    simp only [step] at h
    split at h <;> cases h
    · exact (pop_state t).symm.trans hstate
    · exact hstate
  | call =>
    simp only [step] at h
    split at h <;> cases h
    · exact hstate
    · cases hstate
  | callDiscard =>
    simp only [step] at h
    split at h <;> cases h
    · exact hstate
    · cases hstate
  | ret =>
    cases h
    exact inactive_ret hstate
  | retValue =>
    cases h
    exact (pop_state t).symm.trans (inactive_ret hstate)
  | swap =>
    cases h
    exact ((pop_state _).trans (pop_state t)).symm.trans hstate
  | binary b =>
    cases h
    exact ((pop_state _).trans (pop_state t)).symm.trans hstate
  | unary u =>
    cases h
    exact (pop_state t).symm.trans hstate
  | delay =>
    cases h
    exact (pop_state t).symm.trans hstate
  | drop =>
    cases h
    exact (pop_state t).symm.trans hstate
  | _ =>
    cases h
    first | exact hstate | cases hstate

/-- The start of a script leaves the thread that asks for it as it was, or ends it. -/
theorem inactive_startFrom {turn : Turn} {m m' : Machine} {t t' : Thread} {mode : StartMode}
    {name : Option ScriptName} {args : List Word} (h : m.startFrom turn t mode name args = some (m', t'))
    (hstate : t'.state = .inactive) : t.state = .inactive := by
  unfold startFrom at h
  cases name with
  | none =>
    cases h
    exact hstate
  | some name =>
    cases mode with
    | normal =>
      simp only at h
      split at h <;> cases h <;> exact hstate
    | forced =>
      cases h
      simp only [Thread.push] at hstate
      split at hstate
      · cases hstate
      · exact hstate
    | result =>
      obtain ⟨⟨r, m₁⟩, -, heq⟩ := Option.map_eq_some_iff.1 h
      cases heq
      exact hstate

/-- A thread that stops or pauses another one, or itself, is not made inactive. -/
theorem inactive_haltFrom {m : Machine} {t : Thread} {pause : Bool} {name : Option ScriptName}
    (hstate : (m.haltFrom t pause name).2.state = .inactive) : t.state = .inactive := by
  cases name with
  | none => exact hstate
  | some name =>
    have hput : (if pause = true then ThreadState.paused else ThreadState.stopped) ≠ .inactive := by
      split <;> decide
    simp only [haltFrom] at hstate
    generalize (if pause = true then ThreadState.paused else ThreadState.stopped) = state
      at hput hstate
    split at hstate
    · exact absurd hstate hput
    · exact hstate

/-- No built-in function makes its thread inactive. -/
theorem inactive_callBuiltin {turn : Turn} {m m' : Machine} {t t' : Thread} {f : Builtin}
    {args : List Word} (h : m.callBuiltin turn t f args = some (m', t'))
    (hstate : t'.state = .inactive) : t.state = .inactive := by
  have hhalt : ∀ {pause : Bool} {name : Option ScriptName},
      some (m.haltFrom t pause name) = some (m', t') → t.state = .inactive := by
    intro pause name h
    have heq : (m.haltFrom t pause name).2 = t' := congrArg Prod.snd (Option.some.inj h)
    exact inactive_haltFrom (heq ▸ hstate)
  cases f <;> simp only [callBuiltin] at h
  case startNumber => exact inactive_startFrom h hstate
  case startName => exact inactive_startFrom h hstate
  case startForcedNumber => exact inactive_startFrom h hstate
  case startForcedName => exact inactive_startFrom h hstate
  case startResultNumber => exact inactive_startFrom h hstate
  case startResultName => exact inactive_startFrom h hstate
  case stopNumber => exact hhalt h
  case stopName => exact hhalt h
  case pauseNumber => exact hhalt h
  case pauseName => exact hhalt h
  case printArray =>
    unfold printArray at h
    split at h
    · cases h
      exact hstate
    · split at h <;> cases h <;> exact hstate
  case checkLock => split at h <;> cases h <;> exact hstate
  all_goals
    cases h
    exact hstate

section

variable {A : ChangeRule} {turn : Turn} {m m' : Machine} {t t' : Thread}
  (hturn : ∀ {m t m' t'}, m.executing = true → turn m t = some (m', t') → Acts A m t m' t')
include hturn

/-- A turn outside the tree is an act. -/
theorem acts_runDetached (hm : m.executing = true) (h : runDetached turn m t = some (m', t')) :
    Acts A m t m' t' := by
  unfold runDetached at h
  obtain ⟨⟨m₁, t₁⟩, hrun, heq⟩ := Option.map_eq_some_iff.1 h
  cases heq
  have hnoted := Stirs.aside m m.rng ((t.module.map (·.serial)).toList ++ m.running) (.refl _)
  have hdropped := Stirs.aside m₁ m₁.rng
    (m₁.running.drop (t.module.map (·.serial)).toList.length) (.refl _)
  exact Acts.trans (.stir hnoted) (.trans (hturn hm hrun) (.stir hdropped))

omit hturn in
/-- A name that a new thread takes leads to its script. -/
theorem single_of_canTakeName {scope : ScopeId} {name : ScriptName} {slot : ScriptSlot} {map : MapScope}
    (hmap : m.scopes.map? scope = some map) (hslot : map.slots.find? name = some slot)
    (htakes : m.canTakeName scope name slot = true) :
    map.Single slot.moduleIndex slot.scriptIndex := by
  refine ⟨name, slot, hslot, rfl, rfl, fun x hx => ?_⟩
  simp only [canTakeName, hmap, hx] at htakes
  simp only [Bool.and_eq_true, Bool.not_eq_true'] at htakes
  exact htakes.1.2

omit hturn in
/-- The turn of a start for a result: a thread was added, the thread with its id was taken out, and it
is put back afterwards. -/
theorem exists_started {scope : ScopeId} {name : ScriptName} {args : List Word} {info : ThreadInfo}
    {p : Machine × Thread} (h : m.startedTurn? scope name args info = some p) :
    ∃ (map : MapScope) (place : ModuleScope) (v u : Thread) (i j : Nat) (takesName : Bool),
      m.scopes.map? scope = some map ∧ map.modules[i]? = some place ∧
      Thread.make? map.nextThreadId place.module scope i j args info = some v ∧
      (takesName = true → map.Single i j) ∧
      (place.threads ++ [v]).find? (·.id == u.id) = some u ∧ u.id = v.id ∧
      p = ({ (m.spawn scope i j args info takesName).2.detach scope i
          (fun ts => ts.findIdx (·.id == u.id)) u.id with executing := true },
        { u with lastTick := (m.spawn scope i j args info takesName).2.tick }) ∧
      ∀ turn : Turn, m.startResult turn scope name args info = (runDetached turn p.1 p.2).map fun q =>
        (if q.2.state = .stopped then some q.2.result else none,
          { q.1 with executing := m.executing }.reattach scope i q.2) := by
  unfold startedTurn? at h
  cases hslot : m.resolveScript? scope name with
  | none =>
    rw [hslot] at h
    cases h
  | some slot =>
    simp only [hslot] at h
    split at h
    · cases h
    · rename_i id m₁ hspawn
      obtain ⟨u, hu, rfl⟩ := Option.map_eq_some_iff.1 h
      obtain ⟨x, hx, hthread⟩ := Option.bind_eq_some_iff.1 hu
      have hid : u.id = id := by simpa using List.find?_some hthread
      -- the new thread stands at the end of the list
      obtain ⟨map, place, v, hmap, hplace, hv, hnext⟩ := exists_of_spawn hspawn
      have hfind : map.slots.find? name = some slot := by
        simpa [resolveScript?, hmap] using hslot
      have hlast := module?_spawn hmap hplace hv (m.canTakeName scope name slot)
      have hname := single_of_canTakeName hmap hfind
      have hm₁ : (m.spawn scope slot.moduleIndex slot.scriptIndex args info
          (m.canTakeName scope name slot)).2 = m₁ := congrArg Prod.snd hspawn
      have hbusy : m₁.executing = m.executing := by
        rw [← hm₁]
        exact (Stirs.spawn hmap hplace hv hname).executing
      rw [hm₁] at hlast
      cases hx.symm.trans hlast
      subst hid
      refine ⟨map, place, v, u, slot.moduleIndex, slot.scriptIndex, m.canTakeName scope name slot, hmap,
        hplace, hv, hname, hthread, hnext.symm.trans (make?_id hv).symm, ?_, fun turn => ?_⟩
      · simp only [hm₁, detach, ModuleScope.modifyThread, updateFirst_eq_modify]
      · unfold startResult
        simp only [hslot, hspawn, hu, hbusy]
        rw [Option.map_eq_bind]
        rfl

omit hturn in
/-- A start for a result gives no turn where the name leads nowhere or no thread is added, for a thread
that was added is found. -/
theorem not_started_cases {scope : ScopeId} {name : ScriptName} {args : List Word} {info : ThreadInfo}
    (h : m.startedTurn? scope name args info = none) :
    (m.resolveScript? scope name = none ∧
        ∀ turn : Turn, m.startResult turn scope name args info = some (none, m)) ∨
      ∃ slot m₁, m.resolveScript? scope name = some slot ∧
        m.spawn scope slot.moduleIndex slot.scriptIndex args info (m.canTakeName scope name slot) =
          (none, m₁) ∧
        ∀ turn : Turn, m.startResult turn scope name args info = some (none, m₁) := by
  unfold startedTurn? at h
  cases hslot : m.resolveScript? scope name with
  | none => exact .inl ⟨rfl, fun turn => by rw [startResult, hslot]⟩
  | some slot =>
    simp only [hslot] at h
    split at h
    · rename_i m₁ hspawn
      exact .inr ⟨slot, m₁, rfl, hspawn, fun turn => by simp only [startResult, hslot, hspawn]⟩
    · rename_i id m₁ hspawn
      obtain ⟨map, place, v, hmap, hplace, hv, rfl⟩ := exists_of_spawn hspawn
      have hlast := module?_spawn hmap hplace hv (m.canTakeName scope name slot)
      rw [hspawn] at hlast
      rw [Option.map_eq_none_iff, hlast, Option.bind_some, ModuleScope.thread?, List.find?_eq_none] at h
      exact absurd (h v (by simp)) (by simp [make?_id hv])

omit hturn in
/-- A start for a result that gives no turn. -/
theorem stirs_of_startedTurn? {scope : ScopeId} {name : ScriptName} {args : List Word}
    {info : ThreadInfo} {r : Option Word} (h : m.startedTurn? scope name args info = none)
    (hstart : m.startResult turn scope name args info = some (r, m')) : m.Stirs m' := by
  obtain ⟨-, hresult⟩ | ⟨slot, m₁, hslot, hspawn, hresult⟩ := not_started_cases h
  · cases (hresult turn).symm.trans hstart
    exact .refl m
  · cases (hresult turn).symm.trans hstart
    have hfind : ∀ map, m.scopes.map? scope = some map → map.slots.find? name = some slot := by
      intro map hmap
      simpa [resolveScript?, hmap] using hslot
    have hstirs : m.Stirs
        (m.spawn scope slot.moduleIndex slot.scriptIndex args info (m.canTakeName scope name slot)).2 := by
      refine stirs_spawn scope _ _ args info _ (fun map hmap => ?_) fun map hmap =>
        single_of_canTakeName hmap (hfind map hmap)
      by_cases hleads : map.Leads slot
      · obtain ⟨s, hs, hlt⟩ := hleads
        exact .inl (by simp [MapScope.script?, hs, hlt])
      · exact .inr ⟨name, slot, hfind map hmap, hleads⟩
    rwa [hspawn] at hstirs

/-- A script that is started for its result has a turn. -/
theorem acts_startResult {scope : ScopeId} {name : ScriptName} {args : List Word}
    {info : ThreadInfo} {r : Option Word}
    (h : m.startResult turn scope name args info = some (r, m')) : Acts A m t m' t := by
  cases hstarted : m.startedTurn? scope name args info with
  | none => exact .stir (stirs_of_startedTurn? hstarted h)
  | some p =>
    obtain ⟨map, place, v, u, i, j, takesName, hmap, hplace, hv, hname, hu, hid, rfl, hresult⟩ :=
      exists_started hstarted
    rw [hresult turn] at h
    obtain ⟨⟨m₂, u₂⟩, hrun, heq⟩ := Option.map_eq_some_iff.1 h
    cases heq
    exact .result hmap hplace hv hname hu hid (acts_runDetached hturn rfl hrun)

/-- A start on behalf of a script is an act. -/
theorem acts_startFrom {mode : StartMode} {name : Option ScriptName} {args : List Word}
    (h : m.startFrom turn t mode name args = some (m', t')) (hproceeds : t.Proceeds t') :
    Acts A m t m' t' := by
  refine Acts.trans ?_ (.proceed hproceeds)
  unfold startFrom at h
  cases name with
  | none =>
    cases h
    exact .refl _ _
  | some name =>
    cases mode with
    | normal =>
      simp only at h
      split at h
      · cases h
        exact .refl _ _
      · cases h
        exact .stir (stirs_startScript ..)
    | forced =>
      cases h
      exact .stir (stirs_startForced ..)
    | result =>
      obtain ⟨⟨r, m₁⟩, hstart, heq⟩ := Option.map_eq_some_iff.1 h
      cases heq
      exact acts_startResult hturn hstart

/-- A built-in function acts. -/
theorem acts_callBuiltin {f : Builtin} {args : List Word}
    (h : m.callBuiltin turn t f args = some (m', t')) : Acts A m t m' t' := by
  have hproceeds : t.Proceeds t' := (stays_callBuiltin h).proceeds (inactive_callBuiltin h)
  have hstir : ∀ {p : Machine × Thread}, m.Stirs p.1 → some p = some (m', t') →
      Acts A m t m' t' := by
    intro p hp heq
    cases heq
    exact Acts.trans (.stir hp) (.proceed hproceeds)
  cases f <;> simp only [callBuiltin] at h
  case startNumber => exact acts_startFrom hturn h hproceeds
  case startName => exact acts_startFrom hturn h hproceeds
  case startForcedNumber => exact acts_startFrom hturn h hproceeds
  case startForcedName => exact acts_startFrom hturn h hproceeds
  case startResultNumber => exact acts_startFrom hturn h hproceeds
  case startResultName => exact acts_startFrom hturn h hproceeds
  case printEnd => exact hstir (stirs_endMessage t) h
  case printArray => exact hstir (stirs_printArray t _) h
  case stopNumber => exact hstir (stirs_haltFrom t _ _) h
  case stopName => exact hstir (stirs_haltFrom t _ _) h
  case pauseNumber => exact hstir (stirs_haltFrom t _ _) h
  case pauseName => exact hstir (stirs_haltFrom t _ _) h
  case random =>
    cases h
    exact Acts.trans (.stir (stirs_random m _ _)) (.proceed hproceeds)
  case checkLock =>
    split at h
    · exact hstir (.note m rfl) h
    · exact hstir (.refl m) h
  all_goals exact hstir (.refl m) h

section

variable {host : Host} (hhost : host.Obeys A) (hA : Tame A) {exec : Machine → Option Machine}
  (hexec : ∀ {m m'}, m.executing = true → exec m = some m' → m.Stirs m')
include hhost hA hexec

/-- A function call, by a host that obeys the rule.  Ticks that a host function asks for do
nothing. -/
theorem acts_callFunc (hm : m.executing = true) {count func : Word} {waits : Bool}
    (h : callFunc host turn exec m t count func = some (m', t', waits)) : Acts A m t m' t' := by
  have hargs : t.Proceeds (t.takeArgs count).2 := (stays_takeArgs t count).proceeds fun h => h
  refine Acts.trans (.proceed hargs) ?_
  unfold callFunc at h
  simp only at h
  have hkill : ∀ {u : Thread} {reason data},
      m.killStep u reason data = some (m', t', waits) → Acts A m u m' t' := by
    intro u reason data heq
    cases heq
    exact Acts.trans (.stir (stirs_kill u reason data)) (.proceed (proceeds_setState u (by decide)))
  split at h
  · split at h
    · obtain ⟨⟨m₁, t₁⟩, hcall, heq⟩ := Option.map_eq_some_iff.1 h
      cases heq
      exact acts_callBuiltin hturn hcall
    · exact hkill h
  · split at h
    · have hrun := HostProgram.Obeys.run (A := A)
        (R := fun m t m' t' => m.executing = true → Acts A m t m' t' ∧ m'.executing = true)
        (fun m t hm => ⟨.refl m t, hm⟩)
        (fun h h' hm => ⟨Acts.trans (h hm).1 (h' (h hm).2).1, (h' (h hm).2).2⟩)
        (fun h hm => ⟨.host h, (hA.executing h).trans hm⟩)
        (fun h hm => ⟨acts_startResult hturn h,
          (Acts.executing hA (acts_startResult (t := default) hturn h)).trans hm⟩)
        (fun h hm => ⟨.stir (hexec hm h), (hexec hm h).executing.trans hm⟩)
        (hhost _ _ _ _) h
      exact (hrun hm).1
    · exact hkill h

/-- An instruction. -/
theorem acts_step (hm : m.executing = true) {module : LoadedModule} {op : Opcode}
    {operands : List Word} {waits : Bool}
    (h : step host turn exec module op operands m t = some (m', t', waits)) : Acts A m t m' t' := by
  have hstir : op ≠ .callFunc → ∀ {p : Machine × Thread × Bool}, m.Stirs p.1 →
      some p = some (m', t', waits) → Acts A m t m' t' := by
    intro hop p hp heq
    cases heq
    refine Acts.trans (.stir hp) (.proceed ?_)
    exact (step_moves hhost hA.stays h).proceeds (inactive_step h hop)
  cases op with
  | callFunc => exact acts_callFunc hturn hhost hA hexec hm h
  | kill => exact hstir (by rintro ⟨⟩) (stirs_kill t _ _) h
  | var level action => exact hstir (by rintro ⟨⟩) (stirs_accessVar t level action _) h
  | restart =>
    simp only [step] at h
    split at h <;> exact hstir (by rintro ⟨⟩) (.refl m) h
  | jumpEqual =>
    simp only [step] at h
    split at h <;> exact hstir (by rintro ⟨⟩) (.refl m) h
  | call =>
    simp only [step] at h
    split at h
    · exact hstir (by rintro ⟨⟩) (.refl m) h
    · exact hstir (by rintro ⟨⟩) (stirs_kill t _ _) h
  | callDiscard =>
    simp only [step] at h
    split at h
    · exact hstir (by rintro ⟨⟩) (.refl m) h
    · exact hstir (by rintro ⟨⟩) (stirs_kill t _ _) h
  | _ => exact hstir (by rintro ⟨⟩) (.refl m) h

end

end

/-! ## Turns -/

/-- A tick within a tick does nothing but leave a message. -/
theorem stirs_execWith {turn : Turn} {fuel : Nat} {m m' : Machine} (hm : m.executing = true)
    (h : m.execWith turn fuel = some m') : m.Stirs m' := by
  unfold execWith at h
  rw [if_pos hm] at h
  cases h
  exact stirs_log ..

section

variable {host : Host} {A : ChangeRule} (hhost : host.Obeys A) (hA : Tame A)
include hhost hA

/-- Instructions act, as many as there are. -/
theorem acts_loop {fuel : Nat} {limit count : Word} {module : LoadedModule} {m m' : Machine}
    {t t' : Thread} (hm : m.executing = true)
    (h : loop host fuel limit count module m t = some (m', t')) : Acts A m t m' t' := by
  induction fuel generalizing limit count module m t m' t' with
  | zero => cases h
  | succ fuel ih =>
    have hkill : ∀ {reason data}, some (m.kill t reason data) = some (m', t') → Acts A m t m' t' := by
      intro reason data heq
      cases heq
      exact Acts.trans (.stir (stirs_kill t reason data)) (.proceed (proceeds_setState t (by decide)))
    have hturn : ∀ {m t m' t'}, m.executing = true →
        turnWith (loop host fuel) m t = some (m', t') → Acts A m t m' t' := by
      intro m t m' t' hm hturn
      unfold turnWith at hturn
      split at hturn
      · cases hturn
        exact .proceed (proceeds_setState t (by decide))
      · exact ih hm hturn
    unfold loop at h
    split at h
    · cases h
      exact .refl _ _
    · split at h
      · exact hkill h
      · split at h
        · exact hkill h
        · rename_i op operands _
          dsimp only at h
          have hadvance : t.Proceeds { t with codePtr := t.codePtr + 1 + op.arity } :=
            ⟨⟨rfl, rfl, rfl, rfl, rfl⟩, fun h => ⟨h.bases, h.frames⟩, rfl, fun h => h⟩
          refine Acts.trans (.proceed hadvance) ?_
          have hstep := fun {m₁ t₁ waits} (hs : step host (turnWith (loop host fuel))
              (execWith (turnWith (loop host fuel)) fuel) module op operands m
              { t with codePtr := t.codePtr + 1 + op.arity } = some (m₁, t₁, waits)) =>
            acts_step hturn hhost hA stirs_execWith hm hs
          split at h
          · cases h
          · rename_i m₁ t₁ hs
            cases h
            exact hstep hs
          · rename_i m₁ t₁ hs
            exact (hstep hs).trans (ih (((hstep hs).executing hA).trans hm) h)

/-- **A turn** is an instance. -/
theorem acts_turn {fuel : Nat} {m m' : Machine} {t t' : Thread} (hm : m.executing = true)
    (h : turn host fuel m t = some (m', t')) : Acts A m t m' t' := by
  unfold turn turnWith at h
  split at h
  · cases h
    exact .proceed (proceeds_setState t (by decide))
  · exact acts_loop hhost hA hm h

end

/-! ## Ticks -/

/-- Visits leave alone whether scripts run. -/
theorem Ticks.executing {A : ChangeRule} (hA : Tame A) {m m' : Machine} (h : Ticks A m m') :
    m'.executing = m.executing := by
  induction h with
  | stir h => exact h.executing
  | trans _ _ ih ih' => exact ih'.trans ih
  | @reap m scope i j u hu hend =>
    rw [Machine.reap, hu]
    exact report_executing ..
  | wait _ _ => rfl
  | turn _ _ h => exact (reattach_executing ..).trans (h.executing hA)

/-- What the scheduler does while scripts run, one after another. -/
theorem Ticks.onward {A : ChangeRule} (hA : Tame A) {m₁ m₂ m₃ : Machine}
    (h : m₁.executing = true → Ticks A m₁ m₂) (h' : m₂.executing = true → Ticks A m₂ m₃)
    (hm : m₁.executing = true) : Ticks A m₁ m₃ :=
  (h hm).trans (h' (((h hm).executing hA).trans hm))

/-- Looking whether a thread may run leaves the tree alone. -/
theorem isRunnable_scopes (m : Machine) (scope : ScopeId) (state : ThreadState) :
    (m.isRunnable scope state).2.scopes = m.scopes := by
  unfold isRunnable
  split <;> first | rfl | (split <;> rfl)

/-- A machine that has asked whether a thread may run, and has noted that it resumes. -/
theorem exists_noted (m : Machine) (scope : ScopeId) (u : Thread) :
    ∃ m₀, (if u.state = .running then (m.isRunnable scope u.state).2
        else (m.isRunnable scope u.state).2.log .trace
          s!"thread {u.id} resumes after {u.state.display}") = m₀ ∧ Works scope m m₀ ∧
      m₀.scopes = m.scopes ∧ m₀.tick = (m.isRunnable scope u.state).2.tick := by
  have hasked := works_isRunnable scope u.state (m := m)
  split
  · exact ⟨_, rfl, hasked, isRunnable_scopes .., rfl⟩
  · exact ⟨_, rfl, hasked.trans (works_log ..), isRunnable_scopes .., rfl⟩

/-- What a visit can come to: there is nothing to visit, the thread is removed, nothing happens to it,
its delay is lowered, or it has a turn. -/
theorem visit_cases {turn : Turn} {m m' : Machine} {scope : ScopeId} {i j : Nat} {v : Visit}
    (h : m.visit turn scope i j = some (v, m')) :
    (v = .finished ∧ m' = m ∧ (m.scopes.isActive scope = true →
        (m.scopes.module? scope i).bind (·.threads[j]?) = none)) ∨
      ∃ u, (m.scopes.module? scope i).bind (·.threads[j]?) = some u ∧ m.scopes.isActive scope = true ∧
        ((u.state.isFinished = true ∧ v = .removed ∧ m' = m.reap scope i j ∧
            m.visitedTurn? scope i j = none) ∨
          (u.state.isFinished = false ∧ v = .next ∧ ∃ m₀, Works scope m m₀ ∧ m₀.scopes = m.scopes ∧
            ((m' = m₀ ∧ m.visitedTurn? scope i j = none) ∨
              ((m.isRunnable scope u.state).1 = true ∧ u.lastTick ≠ m₀.tick ∧
                0 < (u.awake m₀.tick).delay ∧
                m' = m₀.modifyThreadAt scope i j (fun _ => u.awake m₀.tick) ∧
                m.visitedTurn? scope i j = none) ∨
              ((m.isRunnable scope u.state).1 = true ∧ u.lastTick ≠ m₀.tick ∧
                ¬ 0 < (u.awake m₀.tick).delay ∧ m.visitedTurn? scope i j =
                  some (m₀.detach scope i (fun _ => j) u.id, u.awake m₀.tick) ∧
                ∃ m₂ u', runDetached turn (m₀.detach scope i (fun _ => j) u.id) (u.awake m₀.tick) =
                    some (m₂, u') ∧ m' = m₂.reattach scope i u')))) := by
  unfold visit at h
  unfold visitedTurn?
  split at h
  · rename_i hactive
    cases h
    exact .inl ⟨rfl, rfl, fun hon => by simp [hon] at hactive⟩
  · rename_i hactive
    rw [if_neg hactive]
    cases hu : (m.scopes.module? scope i).bind (·.threads[j]?) with
    | none =>
      simp only [hu] at h
      cases h
      exact .inl ⟨rfl, rfl, fun _ => rfl⟩
    | some u =>
      simp only [hu] at h
      refine .inr ⟨u, rfl, by simpa using hactive, ?_⟩
      split at h
      · rename_i hend
        cases h
        exact .inl ⟨hend, rfl, rfl, if_pos hend⟩
      · rename_i hend
        simp only [if_neg hend]
        split at h
        · rename_i hwaits
          cases h
          exact .inr ⟨by simpa using hend, rfl, _, works_isRunnable .., isRunnable_scopes ..,
            .inl ⟨rfl, if_pos hwaits⟩⟩
        · rename_i hwaits
          rw [if_neg hwaits]
          obtain ⟨m₀, heq, hworks, hscopes, htick⟩ := exists_noted m scope u
          rw [heq] at h ⊢
          simp only [Bool.or_eq_true, not_or, beq_iff_eq, Bool.not_eq_true', Bool.not_eq_false] at hwaits
          have hstamp : u.lastTick ≠ m₀.tick := htick ▸ hwaits.2
          refine .inr ⟨by simpa using hend, ?_⟩
          unfold takeTurn at h
          simp only at h
          split at h
          · rename_i hdelay
            cases h
            exact ⟨rfl, m₀, hworks, hscopes, .inr (.inl ⟨hwaits.1, hstamp, hdelay, rfl, if_pos hdelay⟩)⟩
          · rename_i hdelay
            obtain ⟨⟨m₂, u₂⟩, hrun, hpair⟩ := Option.bind_eq_some_iff.1 h
            cases hpair
            exact ⟨rfl, m₀, hworks, hscopes,
              .inr (.inr ⟨hwaits.1, hstamp, hdelay, if_neg hdelay, m₂, u₂, hrun, rfl⟩)⟩

section

variable {A : ChangeRule} (hA : Tame A) {turn : Turn}
  (hturn : ∀ {m t m' t'}, m.executing = true → turn m t = some (m', t') → Acts A m t m' t')
include hturn

/-- **A visit** leaves the thread alone, removes it, lowers its delay or gives it its turn. -/
theorem ticks_visit {m m' : Machine} {scope : ScopeId} {i j : Nat} {v : Visit}
    (hm : m.executing = true) (h : m.visit turn scope i j = some (v, m')) : Ticks A m m' := by
  obtain ⟨-, rfl, -⟩ | ⟨u, hu, -, ⟨hend, -, rfl, -⟩ | ⟨hend, -, m₀, hworks, hscopes, hrest⟩⟩ :=
    visit_cases h
  · exact .stir (.refl _)
  · exact .reap hu hend
  · refine Ticks.trans (.stir hworks.stirs) ?_
    rw [← hscopes] at hu
    rcases hrest with ⟨rfl, -⟩ | ⟨-, -, -, rfl, -⟩ | ⟨-, -, -, -, m₂, u', hrun, rfl⟩
    · exact .stir (.refl _)
    · exact .wait hu hend
    · exact .turn hu hend (acts_runDetached hturn (hworks.stirs.executing.trans hm) hrun)

include hA

/-- The visits to the threads of a module scope. -/
theorem ticks_visitThreads {m m' : Machine} {scope : ScopeId} {i fuel j : Nat}
    (hm : m.executing = true) (h : visitThreads turn scope i fuel j m = some m') : Ticks A m m' :=
  visitThreads_of_visit (R := fun m m' => m.executing = true → Ticks A m m') (Ticks.onward hA)
    (fun hvisit hm => ticks_visit hturn hm hvisit) h hm

/-- The visits to the module scopes of a map. -/
theorem ticks_visitModules {m m' : Machine} {scope : ScopeId} {fuel i : Nat}
    (hm : m.executing = true) (h : visitModules turn scope fuel i m = some m') : Ticks A m m' :=
  visitModules_of_visit (R := fun m m' => m.executing = true → Ticks A m m') (fun _ _ => .stir (.refl _))
    (Ticks.onward hA) (fun hvisit hm => ticks_visit hturn hm hvisit) h hm

/-- The visits to all maps. -/
theorem ticks_visitMaps {m m' : Machine} {fuel : Nat} {scopes : List ScopeId}
    (hm : m.executing = true) (h : visitMaps turn fuel scopes m = some m') : Ticks A m m' :=
  visitMaps_of_visit (R := fun m m' => m.executing = true → Ticks A m m') (fun _ _ => .stir (.refl _))
    (Ticks.onward hA) (fun hvisit hm => ticks_visit hturn hm hvisit) h hm

end

/-- **A tick** does nothing while scripts run; else the scheduler is at work. -/
theorem exec_cases {host : Host} {A : ChangeRule} (hhost : host.Obeys A) (hA : Tame A)
    {fuel : Nat} {m m' : Machine} (h : m.exec host fuel = some m') :
    (m.executing = true ∧ m.Stirs m') ∨
      (m.executing = false ∧ ∃ m₁, Ticks A { m with executing := true, tick := m.tick + 1 } m₁ ∧
        m' = { m₁ with executing := false }) := by
  cases hm : m.executing with
  | true => exact .inl ⟨rfl, stirs_execWith hm h⟩
  | false =>
    unfold exec execWith at h
    rw [if_neg (by simp [hm])] at h
    obtain ⟨m₁, hmaps, rfl⟩ := Option.map_eq_some_iff.1 h
    exact .inr ⟨rfl, m₁, ticks_visitMaps hA (acts_turn hhost hA) rfl hmaps, rfl⟩

end Machine

end ScriptMachine
