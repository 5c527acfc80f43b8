import ScriptMachine.Proofs.Machine.Calls
import ScriptMachine.Proofs.Machine.Unaided

/-!
# What scripts do, and what they ask for

A turn in which only built-in functions are called is made of few things, each of them bound to the map
of the thread: the thread works on the variables it sees and leaves messages (`Machine.Works`), it asks
for scripts of its map to be started, stopped or paused (`Machine.Demand`), and it starts a script for
its result, whose turn is made of the same things.  `Machine.Plays` is this as a relation between what is
before and after, and `plays_turn` says that turns are instances.  A turn that calls none of the functions
that start, stop or pause scripts is nothing but work (`works_turn`).
-/

namespace ScriptMachine

/-- The function starts, stops or pauses scripts. -/
def Builtin.commands : Builtin → Bool
  | .startNumber | .startName | .startForcedNumber | .startForcedName => true
  | .startResultNumber | .startResultName => true
  | .stopNumber | .stopName | .pauseNumber | .pauseName => true
  | _ => false

/-- Whether the thread waits for a script or a tag. -/
def ThreadState.isWait : ThreadState → Bool
  | waitNumber _ => true
  | waitName _ => true
  | waitTag _ _ => true
  | _ => false

namespace Thread

variable {t t' t'' : Thread}

/-- A thread that waits does not sleep as well. -/
def Calm (t : Thread) : Prop := t.state.isWait = true → t.delay = 0

/-- What a thread does while it runs, or as it ends. -/
structure Performs (t t' : Thread) : Prop extends Proceeds t t' where
  awake : t.state = .running ∨ t'.state = .stopped
  calm : t'.Calm

/-- A thread that runs does not wait, so it is calm. -/
theorem calm_of_running (h : t.state = .running) : t.Calm := fun hwait => by
  rw [h] at hwait
  cases hwait

/-- A state that is no wait makes a thread calm. -/
theorem calm_setState (t : Thread) {state : ThreadState} (h : state.isWait = false) :
    Calm { t with state } := fun hwait => by
  rw [h] at hwait
  cases hwait

/-- A thread without a delay is calm. -/
theorem calm_of_delay (h : t.delay = 0) : t.Calm := fun _ => h

/-- A thread is ended. -/
theorem performs_stop (t : Thread) : t.Performs { t with state := .stopped } :=
  ⟨proceeds_setState t (by decide), .inr rfl, calm_setState t rfl⟩

end Thread

namespace Machine

open Thread

variable {m m' : Machine} {t t' : Thread} {scope : ScopeId}

/-! ## What is asked for -/

/-- What a script, or the host, can ask of the scripts of a map. -/
inductive Demand where
  /-- The script at these numbers is to start. -/
  | start (i j : Nat) (args : List Word) (info : ThreadInfo) (forced : Bool)
  /-- The scripts of a name are to stop or to pause. -/
  | halt (name : ScriptName) (pause : Bool)

/-- The state that threads are put into. -/
def haltState (pause : Bool) : ThreadState := if pause then .paused else .stopped

/-- Does in a map what is asked for. -/
def comply (m : Machine) (scope : ScopeId) : Demand → Machine
  | .start i j args info forced => (m.startAt scope i j args info forced).2
  | .halt name pause => (m.setScriptState scope name (haltState pause)).2

/-- Whoever is halted is paused or stopped. -/
theorem haltState_ne_inactive (pause : Bool) : haltState pause ≠ .inactive := by
  cases pause <;> decide

/-- What is asked for stirs the machine. -/
theorem stirs_comply (m : Machine) (scope : ScopeId) (q : Demand) : m.Stirs (m.comply scope q) := by
  cases q with
  | start i j args info forced => exact stirs_startAt ..
  | halt name pause => exact stirs_setScriptState scope name (haltState_ne_inactive pause)

/-- What can happen to a machine and the thread that runs, where only built-in functions are called.  A
placeholder does nothing but end. -/
inductive Plays : Machine → Thread → Machine → Thread → Prop
  | perform {m : Machine} {t t' : Thread} (h : t.Performs t') : Plays m t m t'
  /-- The list of running modules changes. -/
  | aside (m : Machine) (t : Thread) (running : List Nat) : Plays m t { m with running } t
  | work {m m' : Machine} {t : Thread} (hreal : t.isPlaceholder = false) (h : Works t.scope m m') :
    Plays m t m' t
  | ask {m : Machine} {t t' : Thread} (hreal : t.isPlaceholder = false) (q : Demand) (h : t.Performs t') :
    Plays m t (m.comply t.scope q) t'
  | trans {m₁ m₂ m₃ : Machine} {t₁ t₂ t₃ : Thread} (h : Plays m₁ t₁ m₂ t₂)
      (h' : Plays m₂ t₂ m₃ t₃) : Plays m₁ t₁ m₃ t₃
  /-- An id is used up for a script that is not there. -/
  | stray {m : Machine} {t : Thread} {map : MapScope} {name : ScriptName} {slot : ScriptSlot}
      (hreal : t.isPlaceholder = false) (hmap : m.scopes.map? t.scope = some map) (hslot : map.slots.find? name = some slot)
      (hstray : ¬ map.Leads slot) :
    Plays m t { m with scopes := m.scopes.modifyMap t.scope fun _ => map.takeThreadId.2 } t
  /-- A thread is added and has a turn at once.  It is looked up by its id. -/
  | result {m m' : Machine} {t u u' v : Thread} {map : MapScope} {place : ModuleScope} {i j : Nat}
      {args : List Word} {info : ThreadInfo} {takesName : Bool} (hreal : t.isPlaceholder = false)
      (hmap : m.scopes.map? t.scope = some map) (hplace : map.modules[i]? = some place)
      (hv : Thread.make? map.nextThreadId place.module t.scope i j args info = some v)
      (hname : takesName = true → map.Single i j)
      (hu : (place.threads ++ [v]).find? (·.id == u.id) = some u) (hid : u.id = v.id)
      (h : Plays { (m.spawn t.scope i j args info takesName).2.detach t.scope i
          (fun ts => ts.findIdx (·.id == u.id)) u.id with executing := true }
        { u with lastTick := (m.spawn t.scope i j args info takesName).2.tick } m' u') :
    Plays m t ({ m' with executing := m.executing }.reattach t.scope i u') t

theorem Plays.refl (m : Machine) (t : Thread) : Plays m t m t := .aside m t m.running

/-- These are among the things that can happen in a turn. -/
theorem Plays.acts {A : ChangeRule} (h : Plays m t m' t') : Acts A m t m' t' := by
  induction h with
  | perform h => exact .proceed h.toProceeds
  | aside m t running => exact .stir (.aside m m.rng running (.refl _))
  | work _ h => exact .stir h.stirs
  | ask _ q h => exact Acts.trans (.stir (stirs_comply _ _ q)) (.proceed h.toProceeds)
  | trans _ _ ih ih' => exact ih.trans ih'
  | stray _ hmap hslot hstray => exact .stir (.stray hmap hslot hstray)
  | result _ hmap hplace hv hname hu hid _ ih => exact .result hmap hplace hv hname hu hid ih

/-- The thread that runs stays the same one. -/
theorem Plays.same (h : Plays m t m' t') : t.Same t' := by
  induction h with
  | perform h => exact h.same
  | ask _ q h => exact h.same
  | trans _ _ ih ih' => exact ih.trans ih'
  | _ => exact .refl _

/-- A turn does not note a tick. -/
theorem Plays.lastTick (h : Plays m t m' t') : t'.lastTick = t.lastTick := by
  induction h with
  | perform h => exact h.lastTick
  | ask _ q h => exact h.lastTick
  | trans _ _ ih ih' => exact ih'.trans ih
  | _ => rfl

/-- The turn of a placeholder leaves the tree alone. -/
theorem Plays.scopes_eq (h : Plays m t m' t') (hplace : t.isPlaceholder = true) :
    m'.scopes = m.scopes := by
  induction h with
  | perform => rfl
  | aside => rfl
  | trans h _ ih ih' => exact (ih' (h.same.isPlaceholder_eq.trans hplace)).trans (ih hplace)
  | work hreal => rw [hreal] at hplace; cases hplace
  | ask hreal => rw [hreal] at hplace; cases hplace
  | stray hreal => rw [hreal] at hplace; cases hplace
  | result hreal => rw [hreal] at hplace; cases hplace

/-! ## Instructions -/

/-- A built-in function leaves the delay of its thread alone. -/
theorem callBuiltin_delay {turn : Turn} {f : Builtin} {args : List Word}
    (h : m.callBuiltin turn t f args = some (m', t')) : t'.delay = t.delay := by
  have hstart : ∀ {mode : StartMode} {name : Option ScriptName} {args : List Word},
      m.startFrom turn t mode name args = some (m', t') → t'.delay = t.delay := by
    intro mode name args h
    unfold startFrom at h
    cases name with
    | none => cases h; rfl
    | some name =>
      cases mode with
      | normal =>
        simp only at h
        split at h <;> cases h <;> rfl
      | forced =>
        cases h
        simp only [Thread.push]
        split <;> rfl
      | result =>
        obtain ⟨⟨r, m₁⟩, -, heq⟩ := Option.map_eq_some_iff.1 h
        cases heq
        rfl
  have hhalt : ∀ {pause : Bool} {name : Option ScriptName},
      some (m.haltFrom t pause name) = some (m', t') → t'.delay = t.delay := by
    intro pause name h
    have heq : (m.haltFrom t pause name).2 = t' := congrArg Prod.snd (Option.some.inj h)
    rw [← heq]
    unfold haltFrom
    split
    · rfl
    · simp only
      generalize (if pause = true then ThreadState.paused else ThreadState.stopped) = state
      split <;> rfl
  cases f <;> simp only [callBuiltin] at h
  case startNumber => exact hstart h
  case startName => exact hstart h
  case startForcedNumber => exact hstart h
  case startForcedName => exact hstart h
  case startResultNumber => exact hstart h
  case startResultName => exact hstart h
  case stopNumber => exact hhalt h
  case stopName => exact hhalt h
  case pauseNumber => exact hhalt h
  case pauseName => exact hhalt h
  case printArray =>
    unfold printArray at h
    split at h
    · cases h; rfl
    · split at h <;> cases h <;> rfl
  case checkLock => split at h <;> cases h <;> rfl
  all_goals
    cases h
    rfl

/-- What a built-in function does to its thread. -/
theorem performs_callBuiltin {turn : Turn} {f : Builtin} {args : List Word} (hrun : t.state = .running)
    (hdelay : t.delay = 0) (h : m.callBuiltin turn t f args = some (m', t')) : t.Performs t' :=
  ⟨(stays_callBuiltin h).proceeds (inactive_callBuiltin h), .inl hrun,
    calm_of_delay ((callBuiltin_delay h).trans hdelay)⟩

/-- The thread after an instruction that it carried out while it ran. -/
theorem calm_step {turn : Turn} {exec : Machine → Option Machine} {module : LoadedModule} {op : Opcode}
    {operands : List Word} {waits : Bool} (hrun : t.state = .running) (hdelay : t.delay = 0)
    (h : step quietHost turn exec module op operands m t = some (m', t', waits)) : t'.Calm := by
  have hpop : ∀ u : Thread, u.pop.2.delay = u.delay ∧ u.pop.2.state = u.state := by
    intro u
    unfold Thread.pop
    split <;> exact ⟨rfl, rfl⟩
  have hret : ∀ (u : Thread) (value : Option Word), (u.ret value).delay = u.delay := by
    intro u value
    unfold Thread.ret
    split
    · rfl
    · dsimp only
      split <;> rfl
  have hsame : ∀ {p : Machine × Thread × Bool}, p.2.1.delay = t.delay → some p = some (m', t', waits) →
      t'.Calm := by
    intro p hp heq
    cases heq
    exact calm_of_delay (hp.trans hdelay)
  cases op with
  | callFunc =>
    simp only [step, callFunc] at h
    split at h
    · split at h
      · obtain ⟨⟨m₁, t₁⟩, hcall, heq⟩ := Option.map_eq_some_iff.1 h
        cases heq
        exact calm_of_delay ((callBuiltin_delay hcall).trans hdelay)
      · exact hsame rfl h
    · split at h
      · cases h
        exact calm_of_delay hdelay
      · exact hsame rfl h
  | delay =>
    cases h
    exact calm_of_running ((hpop t).2.trans hrun)
  | delayLit =>
    cases h
    exact calm_of_running hrun
  | var level action =>
    refine hsame (p := ((m.accessVar t level action (operands.headD 0)).1, _, false)) ?_ h
    cases action <;> cases level <;> simp only [Thread.push] <;> first | rfl | exact (hpop _).1 | skip
    all_goals first
      | exact (hpop _).1.trans (hpop _).1
      | (split <;> exact (hpop _).1.trans (hpop _).1)
  | restart =>
    simp only [step] at h
    split at h <;> exact hsame rfl h
  | waitNumber => exact hsame (hpop t).1 h
  | waitName => exact hsame (hpop t).1 h
  | waitTag => exact hsame (hpop t).1 h
  | drop => exact hsame (hpop t).1 h
  | swap => exact hsame ((hpop _).1.trans (hpop t).1) h
  | binary b => exact hsame ((hpop _).1.trans (hpop t).1) h
  | unary u => exact hsame (hpop t).1 h
  | jumpTrue =>
    simp only [step, Option.some.injEq, Prod.mk.injEq] at h
    refine calm_of_delay ?_
    rw [← hdelay, ← (hpop t).1, ← h.2.1]
    split <;> rfl
  | jumpZero =>
    simp only [step, Option.some.injEq, Prod.mk.injEq] at h
    refine calm_of_delay ?_
    rw [← hdelay, ← (hpop t).1, ← h.2.1]
    split <;> rfl
  | jumpEqual =>
    simp only [step] at h
    split at h
    · exact hsame (hpop t).1 h
    · exact hsame rfl h
  | call =>
    simp only [step] at h
    split at h <;> exact hsame rfl h
  | callDiscard =>
    simp only [step] at h
    split at h <;> exact hsame rfl h
  | ret => exact hsame (hret t _) h
  | retValue => exact hsame ((hret _ _).trans (hpop t).1) h
  | _ => exact hsame rfl h

/-- **What an instruction does to its thread.** -/
theorem performs_step {turn : Turn} {exec : Machine → Option Machine} {module : LoadedModule}
    {op : Opcode} {operands : List Word} {waits : Bool} (hrun : t.state = .running)
    (hdelay : t.delay = 0)
    (h : step quietHost turn exec module op operands m t = some (m', t', waits)) : t.Performs t' := by
  refine ⟨(step_moves (obeys_quietHost Never) tame_never.stays h).proceeds fun hstate => ?_, .inl hrun,
    calm_step hrun hdelay h⟩
  by_cases hop : op = .callFunc
  · subst hop
    simp only [step, callFunc] at h
    split at h
    · split at h
      · obtain ⟨⟨m₁, t₁⟩, hcall, heq⟩ := Option.map_eq_some_iff.1 h
        cases heq
        have hbefore := inactive_callBuiltin hcall hstate
        exact hbefore
      · cases h
        cases hstate
    · split at h
      · cases h
        exact hstate
      · cases h
        cases hstate
  · exact inactive_step h hop hstate

/-- A built-in function that starts, stops and pauses no script. -/
theorem works_callBuiltin {turn : Turn} {f : Builtin} {args : List Word} (hf : f.commands = false)
    (h : m.callBuiltin turn t f args = some (m', t')) : Works t.scope m m' := by
  have hsame : ∀ {p : Machine × Thread}, Works t.scope m p.1 → some p = some (m', t') →
      Works t.scope m m' := by
    intro p hp heq
    cases heq
    exact hp
  cases f <;> simp only [callBuiltin] at h
  case printEnd => exact hsame (works_endMessage t) h
  case printArray => exact hsame (works_printArray t _) h
  case random =>
    cases h
    exact works_random ..
  case checkLock =>
    split at h
    · exact hsame (.note m rfl) h
    · exact hsame (.refl m) h
  all_goals first
    | exact hsame (.refl m) h
    | cases hf

/-- **An instruction** that calls no function to start, stop or pause scripts. -/
theorem works_step {turn : Turn} {exec : Machine → Option Machine} {module : LoadedModule} {op : Opcode}
    {operands : List Word} {waits : Bool}
    (hcall : ∀ f, callee? op operands m = some (.builtin f) → f.commands = false)
    (h : step quietHost turn exec module op operands m t = some (m', t', waits)) :
    Works t.scope m m' := by
  have hsame : ∀ {p : Machine × Thread × Bool}, Works t.scope m p.1 → some p = some (m', t', waits) →
      Works t.scope m m' := by
    intro p hp heq
    cases heq
    exact hp
  cases op with
  | callFunc =>
    simp only [step, callFunc] at h
    simp only [callee?] at hcall
    split at h
    · rename_i hfunc
      rw [if_pos hfunc] at hcall
      split at h
      · rename_i f hf
        obtain ⟨⟨m₁, t₁⟩, hbuiltin, heq⟩ := Option.map_eq_some_iff.1 h
        cases heq
        have hworks := works_callBuiltin (hcall f (by rw [hf]; rfl)) hbuiltin
        exact hworks
      · exact hsame (works_kill ..) h
    · split at h
      · cases h
        exact .refl m
      · exact hsame (works_kill ..) h
  | kill => exact hsame (works_kill ..) h
  | var level action => exact hsame (works_accessVar t level action _) h
  | restart =>
    simp only [step] at h
    split at h <;> exact hsame (.refl m) h
  | jumpEqual =>
    simp only [step] at h
    split at h <;> exact hsame (.refl m) h
  | call =>
    simp only [step] at h
    split at h
    · exact hsame (.refl m) h
    · exact hsame (works_kill ..) h
  | callDiscard =>
    simp only [step] at h
    split at h
    · exact hsame (.refl m) h
    · exact hsame (works_kill ..) h
  | _ => exact hsame (.refl m) h

/-- A script that is not there is not started. -/
theorem plays_of_spawn {name : ScriptName} {slot : ScriptSlot} {args : List Word} {info : ThreadInfo}
    {takesName : Bool} (hreal : t.isPlaceholder = false)
    (hslot : m.resolveScript? t.scope name = some slot)
    (h : m.spawn t.scope slot.moduleIndex slot.scriptIndex args info takesName = (none, m')) :
    Plays m t m' t := by
  unfold spawn at h
  split at h
  · cases h
    exact .refl m t
  · rename_i map hmap
    have hmodules : map.takeThreadId.2.modules = map.modules := rfl
    have hfind : map.slots.find? name = some slot := by simpa [resolveScript?, hmap] using hslot
    simp only [hmodules] at h
    split at h
    · rename_i hplace
      cases h
      refine .stray hreal hmap hfind ?_
      rintro ⟨s, hs, -⟩
      rw [hplace] at hs
      cases hs
    · rename_i place hplace
      split at h
      · rename_i hnone
        cases h
        refine .stray hreal hmap hfind ?_
        rintro ⟨s, hs, hlt⟩
        cases hplace.symm.trans hs
        simp [Thread.make?, hlt] at hnone
      · cases h

section

variable {turn : Turn} (hturn : ∀ {m t m' t'}, turn m t = some (m', t') → Plays m t m' t')
include hturn

/-- A turn outside the tree is a play. -/
theorem plays_runDetached (h : runDetached turn m t = some (m', t')) : Plays m t m' t' := by
  unfold runDetached at h
  obtain ⟨⟨m₁, t₁⟩, hrun, heq⟩ := Option.map_eq_some_iff.1 h
  cases heq
  exact Plays.trans (.aside ..) (.trans (hturn hrun) (.aside ..))

/-- A script that is started for its result has a turn. -/
theorem plays_startResult {name : ScriptName} {args : List Word} {info : ThreadInfo} {r : Option Word}
    (hreal : t.isPlaceholder = false) (h : m.startResult turn t.scope name args info = some (r, m')) : Plays m t m' t := by
  cases hstarted : m.startedTurn? t.scope name args info with
  | some p =>
    obtain ⟨map, place, v, u, i, j, takesName, hmap, hplace, hv, hname, hu, hid, rfl, hresult⟩ :=
      exists_started hstarted
    rw [hresult turn] at h
    obtain ⟨⟨m₂, u₂⟩, hrun, heq⟩ := Option.map_eq_some_iff.1 h
    cases heq
    exact .result hreal hmap hplace hv hname hu hid (plays_runDetached hturn hrun)
  | none =>
    obtain ⟨-, hresult⟩ | ⟨slot, m₁, hslot, hspawn, hresult⟩ := not_started_cases hstarted
    · cases (hresult turn).symm.trans h
      exact .refl m t
    · cases (hresult turn).symm.trans h
      exact plays_of_spawn hreal hslot hspawn

omit hturn in
/-- Starting a script of the own map is part of a play. -/
theorem plays_startScript (hreal : t.isPlaceholder = false) (hthread : t.Performs t') (name : ScriptName) (args : List Word)
    (info : ThreadInfo) : Plays m t (m.startScript t.scope name args info).2 t' := by
  unfold startScript
  split
  · exact .perform hthread
  · exact .ask hreal (.start ..) hthread

omit hturn in
/-- Starting a script of the own map by force is part of a play. -/
theorem plays_startForced (hreal : t.isPlaceholder = false) (hthread : t.Performs t') (name : ScriptName) (args : List Word)
    (info : ThreadInfo) : Plays m t (m.startForced t.scope name args info).2 t' := by
  unfold startForced
  split
  · exact .perform hthread
  · exact .ask hreal (.start ..) hthread

/-- A start on behalf of the thread is part of a play. -/
theorem plays_startFrom {mode : StartMode} {name : Option ScriptName} {args : List Word}
    (hreal : t.isPlaceholder = false) (hthread : t.Performs t')
    (h : m.startFrom turn t mode name args = some (m', t')) :
    Plays m t m' t' := by
  unfold startFrom at h
  cases name with
  | none =>
    cases h
    exact .perform hthread
  | some name =>
    cases mode with
    | normal =>
      simp only at h
      split at h <;> cases h
      · exact .perform hthread
      · exact plays_startScript hreal hthread name args t.info
    | forced =>
      have hown : ∀ b : Bool, (if b = true then { t with state := .stopped } else t).scope = t.scope ∧
          (if b = true then { t with state := .stopped } else t).info = t.info := by
        intro b
        split <;> exact ⟨rfl, rfl⟩
      simp only [hown] at h
      cases h
      exact plays_startForced hreal hthread name args t.info
    | result =>
      obtain ⟨⟨r, m₁⟩, hstart, heq⟩ := Option.map_eq_some_iff.1 h
      cases heq
      exact Plays.trans (plays_startResult hturn hreal hstart) (.perform hthread)

omit hturn in
/-- Halting a script of the own map is part of a play. -/
theorem plays_haltFrom {pause : Bool} {name : Option ScriptName} (hreal : t.isPlaceholder = false)
    (hthread : t.Performs t')
    (h : some (m.haltFrom t pause name) = some (m', t')) : Plays m t m' t' := by
  have hpair := Option.some.inj h
  cases name with
  | none =>
    cases hpair
    exact .perform hthread
  | some name =>
    have hmachine : m.comply t.scope (.halt name pause) = m' := by
      refine Eq.trans ?_ (congrArg Prod.fst hpair)
      simp only [haltFrom, comply, haltState]
      generalize (if pause = true then ThreadState.paused else ThreadState.stopped) = state
      split <;> rfl
    rw [← hmachine]
    exact .ask hreal (.halt name pause) hthread

/-- A built-in function is part of a play. -/
theorem plays_callBuiltin {f : Builtin} {args : List Word} (hreal : t.isPlaceholder = false)
    (hrun : t.state = .running) (hdelay : t.delay = 0) (h : m.callBuiltin turn t f args = some (m', t')) : Plays m t m' t' := by
  have hthread := performs_callBuiltin hrun hdelay h
  cases hf : f.commands with
  | false => exact Plays.trans (.work hreal (works_callBuiltin hf h)) (.perform hthread)
  | true =>
    cases f <;> simp only [callBuiltin] at h
    case startNumber => exact plays_startFrom hturn hreal hthread h
    case startName => exact plays_startFrom hturn hreal hthread h
    case startForcedNumber => exact plays_startFrom hturn hreal hthread h
    case startForcedName => exact plays_startFrom hturn hreal hthread h
    case startResultNumber => exact plays_startFrom hturn hreal hthread h
    case startResultName => exact plays_startFrom hturn hreal hthread h
    case stopNumber => exact plays_haltFrom hreal hthread h
    case stopName => exact plays_haltFrom hreal hthread h
    case pauseNumber => exact plays_haltFrom hreal hthread h
    case pauseName => exact plays_haltFrom hreal hthread h
    all_goals cases hf

/-- **An instruction.** -/
theorem plays_step {exec : Machine → Option Machine} {module : LoadedModule} {op : Opcode}
    {operands : List Word} {waits : Bool} (hreal : t.isPlaceholder = false) (hrun : t.state = .running)
    (hdelay : t.delay = 0)
    (h : step quietHost turn exec module op operands m t = some (m', t', waits)) : Plays m t m' t' := by
  have hthread := performs_step hrun hdelay h
  cases hcall : callee? op operands m with
  | none =>
    refine Plays.trans (.work hreal (works_step (fun f hf => ?_) h)) (.perform hthread)
    rw [hcall] at hf
    cases hf
  | some c =>
    cases op with
    | callFunc =>
      have hargs : t.Performs (t.takeArgs (operands.headD 0)).2 :=
        ⟨(stays_takeArgs t _).proceeds fun h => h, .inl hrun, calm_of_delay hdelay⟩
      simp only [step, callFunc] at h
      split at h
      · split at h
        · obtain ⟨⟨m₁, t₁⟩, hbuiltin, heq⟩ := Option.map_eq_some_iff.1 h
          cases heq
          exact Plays.trans (.perform hargs) (plays_callBuiltin hturn hreal hrun hdelay hbuiltin)
        · cases h
          exact Plays.trans (.work hreal (works_kill t _ _)) (.perform hthread)
      · split at h <;> cases h
        · exact .perform hargs
        · exact Plays.trans (.work hreal (works_kill t _ _)) (.perform hthread)
    | _ => cases hcall

end

/-! ## Turns -/

/-- A thread that runs may go on to another place of the code. -/
theorem performs_advance (hrun : t.state = .running) (n : Nat) : t.Performs { t with codePtr := n } :=
  ⟨⟨⟨rfl, rfl, rfl, rfl, rfl⟩, fun h => ⟨h.bases, h.frames⟩, rfl, fun h => h⟩, .inl hrun,
    calm_of_running hrun⟩

/-- Instructions are a play, as many as there are. -/
theorem plays_loop {fuel : Nat} {limit count : Word} {module : LoadedModule}
    (hreal : t.isPlaceholder = false) (h : loop quietHost fuel limit count module m t = some (m', t')) : Plays m t m' t' := by
  induction fuel generalizing limit count module m t m' t' with
  | zero => cases h
  | succ fuel ih =>
    have hkill : ∀ {reason data}, some (m.kill t reason data) = some (m', t') → Plays m t m' t' := by
      intro reason data heq
      cases heq
      exact Plays.trans (.work hreal (works_kill t reason data)) (.perform (performs_stop t))
    have hturn : ∀ {m t m' t'}, turnWith (loop quietHost fuel) m t = some (m', t') →
        Plays m t m' t' := by
      intro m t m' t' hturn
      unfold turnWith at hturn
      split at hturn
      · cases hturn
        exact .perform (performs_stop t)
      · rename_i module hmodule
        exact ih (by rw [isPlaceholder, hmodule]; rfl) hturn
    unfold loop at h
    split at h
    · cases h
      exact .refl _ _
    · rename_i hawake
      obtain ⟨hrun, hdelay⟩ : t.state = .running ∧ t.delay = 0 := by simpa using hawake
      split at h
      · exact hkill h
      · split at h
        · exact hkill h
        · rename_i op operands _
          dsimp only at h
          have hadvance := performs_advance hrun (t.codePtr + 1 + op.arity)
          refine Plays.trans (.perform hadvance) ?_
          have hrun : Thread.state { t with codePtr := t.codePtr + 1 + op.arity } = .running := hrun
          have hdelay : Thread.delay { t with codePtr := t.codePtr + 1 + op.arity } = 0 := hdelay
          have hreal : Thread.isPlaceholder { t with codePtr := t.codePtr + 1 + op.arity } = false := hreal
          generalize { t with codePtr := t.codePtr + 1 + op.arity } = u at h hreal hrun hdelay ⊢
          split at h
          · cases h
          · rename_i m₁ t₁ hs
            cases h
            exact plays_step hturn hreal hrun hdelay hs
          · rename_i m₁ t₁ hs
            have hfirst := plays_step hturn hreal hrun hdelay hs
            exact hfirst.trans (ih (hfirst.same.isPlaceholder_eq.trans hreal) h)

/-- **A turn** is an instance. -/
theorem plays_turn {fuel : Nat} (h : turn quietHost fuel m t = some (m', t')) : Plays m t m' t' := by
  unfold turn turnWith at h
  split at h
  · cases h
    exact .perform (performs_stop t)
  · rename_i module hmodule
    exact plays_loop (by rw [isPlaceholder, hmodule]; rfl) h

/-- **A turn without demands:** where no function is called that starts, stops or pauses scripts, there
is nothing but work. -/
theorem works_loop {fuel : Nat} {limit count : Word} {module : LoadedModule}
    (hcalls : ∀ c ∈ loopCalls quietHost fuel limit count module m t, ∀ f, c.callee = .builtin f →
      f.commands = false)
    (h : loop quietHost fuel limit count module m t = some (m', t')) : Works t.scope m m' := by
  induction fuel generalizing limit count module m t with
  | zero => cases h
  | succ fuel ih =>
    have hkill : ∀ {reason data}, some (m.kill t reason data) = some (m', t') → Works t.scope m m' := by
      intro reason data heq
      cases heq
      exact works_kill t reason data
    unfold loop at h
    unfold loopCalls at hcalls
    split at h
    · cases h
      exact .refl _
    · rename_i hawake
      obtain ⟨hrun, hdelay⟩ : t.state = .running ∧ t.delay = 0 := by simpa using hawake
      rw [if_neg hawake] at hcalls
      split at h
      · exact hkill h
      · rename_i hlimit
        rw [if_neg hlimit] at hcalls
        split at h
        · exact hkill h
        · rename_i op operands hfetch
          simp only [hfetch] at hcalls h
          have hscope : Thread.scope { t with codePtr := t.codePtr + 1 + op.arity } = t.scope := rfl
          have hrun : Thread.state { t with codePtr := t.codePtr + 1 + op.arity } = .running := hrun
          have hdelay : Thread.delay { t with codePtr := t.codePtr + 1 + op.arity } = 0 := hdelay
          rw [← hscope]
          generalize { t with codePtr := t.codePtr + 1 + op.arity } = u at h hrun hdelay hcalls ⊢
          have hfirst : ∀ f, callee? op operands m = some (.builtin f) → f.commands = false := by
            intro f hf
            refine hcalls ⟨u.scope, .builtin f⟩ (List.mem_append_left _ ?_) f rfl
            simp [stepCalls, hf]
          split at h
          · cases h
          · rename_i m₁ t₁ hs
            cases h
            exact works_step hfirst hs
          · rename_i m₁ t₁ hs
            have hscope : t₁.scope = u.scope := (performs_step hrun hdelay hs).same.scope
            rw [hs] at hcalls
            have hrest := ih (fun c hc => hcalls c (List.mem_append_right _ hc)) h
            rw [hscope] at hrest
            exact (works_step hfirst hs).trans hrest

/-- A turn that commands no other script only works on its own path. -/
theorem works_turn {fuel : Nat}
    (hcalls : ∀ c ∈ turnCalls quietHost fuel m t, ∀ f, c.callee = .builtin f → f.commands = false)
    (h : turn quietHost fuel m t = some (m', t')) : Works t.scope m m' := by
  unfold turn turnWith at h
  unfold turnCalls turnCallsWith at hcalls
  split at h
  · cases h
    exact .refl m
  · rename_i module hmodule
    rw [hmodule] at hcalls
    exact works_loop hcalls h

end Machine

end ScriptMachine
