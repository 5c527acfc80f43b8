import Mathlib.Logic.Relation
import ScriptMachine.Proofs.Machine.Lives
import ScriptMachine.Proofs.Machine.Managed

/-!
# The lives of threads along a run

A run is followed from moment to moment.  A `Moment` is a machine together with the threads that are
out of its tree, and `Moment.Step` is what happens next: a piece of a script, a deed of the host, a
thread that is taken out for its turn, or one that comes back.  The host keeps to no terms but that it
watches (`Terms.watching`).  Ticks and starts for a result are sequences of such steps (`steps_exec`,
`steps_startResult`), so a `Chronicle` tells of all that a host can do with a machine, also of what its
functions do within turns.

At every moment the machine is in order (`Step.sound`), and what happens next to threads is followed
by a census (`Step.counted`).  So each thread is reported once when it starts, and it is reported as
stopped once, when it is neither in the tree nor running any more (`Chronicle.reported_once`).
-/

namespace ScriptMachine

/-- A thread that is out of the tree, with the place it goes back to, and whether scripts ran before. -/
structure Detached where
  thread : Thread
  scope : ScopeId
  moduleIndex : Nat
  executing : Bool

/-- The seat that is kept for the thread. -/
def Detached.seat (d : Detached) : Seat := ⟨d.scope, d.moduleIndex, d.thread.id⟩

/-- A machine with the threads that are out of its tree, the innermost first. -/
structure Moment where
  machine : Machine
  out : List Detached

/-- The threads that run. -/
def Moment.stack (x : Moment) : List Thread := x.out.map (·.thread)

namespace Machine

open Thread

variable {m m' : Machine} {t t' u u' : Thread} {c : Census}

/-! ## Hosts that watch -/

/-- A host that watches goes on to ask for the lives of threads, and does not tell of them itself. -/
def Terms.watching : Terms where
  offers hooks := hooks.has .threadStart = true ∧ hooks.has .threadStop = true
  remarks e := e.isLife = false

/-- What the functions of a host that watches do: deeds, and changes of what they may of the calling
thread, but not of its state. -/
def LifeRule : ChangeRule := fun m t m' t' =>
  Stays t t' ∧ t'.state = t.state ∧ (m' = m ∨ Machine.Deed .watching m m')

/-- The regime of hosts that watch. -/
def Regime.watching : Regime where
  terms := .watching
  hosts P := ∃ host : Host, host.Obeys LifeRule ∧ P host
  obeying h := by
    obtain ⟨host, hhost, hP⟩ := h
    exact ⟨host, hhost.mono fun hrule => ⟨hrule.1, hrule.2.2⟩, hP⟩

theorem ensure_hooks (m : Machine) (level : Level) (id : ScopeId) :
    (m.ensure level id).hooks = m.hooks := by
  have hglobal : ∀ g, (m.ensureGlobal g).hooks = m.hooks := by
    intro g
    unfold ensureGlobal
    split <;> rfl
  have hhub : ∀ g k, (m.ensureHub g k).hooks = m.hooks := by
    intro g k
    refine Eq.trans ?_ (hglobal g)
    simp only [ensureHub]
    split <;> rfl
  have hmap : (m.ensureMap id).hooks = m.hooks := by
    refine Eq.trans ?_ (hhub id.global id.hub)
    simp only [ensureMap]
    split <;> rfl
  cases level with
  | global => exact hglobal id.global
  | hub => exact hhub id.global id.hub
  | module => exact hmap
  | thread => exact hmap

theorem report_hooks (m : Machine) (k : Hook) (e : Event) : (m.report k e).hooks = m.hooks :=
  congrArg (fun x => x.2.1) (report_tools m k e)

theorem free_hooks (m : Machine) (level : Level) (id : ScopeId) : (m.free level id).2.hooks = m.hooks := by
  have hstop : ∀ (m : Machine) (threads : List Thread), (m.stopThreads threads).hooks = m.hooks := by
    intro m threads
    unfold stopThreads
    generalize threads.filter (!·.isPlaceholder) = ts
    induction ts generalizing m with
    | nil => rfl
    | cons t ts ih => exact (ih _).trans (report_hooks ..)
  have hmap : (m.freeMap id).2.hooks = m.hooks := by
    unfold freeMap
    split
    · rfl
    · exact hstop ..
  cases level with
  | global =>
    simp only [Machine.free, freeGlobal]
    split
    · rfl
    · exact hstop ..
  | hub =>
    simp only [Machine.free, freeHub]
    split
    · rfl
    · exact hstop ..
  | module => exact hmap
  | thread => exact hmap

theorem collectStrings_hooks (m : Machine) : m.collectStrings.2.hooks = m.hooks := by
  unfold collectStrings
  split
  · rfl
  · exact report_hooks ..

theorem save_hooks (m : Machine) : m.save.2.hooks = m.hooks := by
  unfold save
  split
  · rfl
  · simp only
    split
    · split <;> rfl
    · rfl

theorem loadModule_hooks (m : Machine) (name : ModuleName) (data : Bytes) :
    (m.loadModule name data).2.hooks = m.hooks := by
  unfold loadModule
  cases hfind : m.modules.find? name with
  | some x => rfl
  | none =>
    simp only
    split <;> rename_i hregister <;> exact (register_cases hfind hregister).1.hooks

/-- Threads are left alone: those in the tree stay as they are, nothing is reported of them, and the
host goes on to ask. -/
structure Leaves (m m' : Machine) : Prop extends m.Spares m' where
  trace : m.trace <:+ m'.trace
  executing : m'.executing = m.executing
  scopes : m.scopes.Evolves (fun _ => True) m'.tick m'.Exhausted m'.scopes
  watched : m.Watched → m'.Watched

theorem Leaves.refl (m : Machine) : m.Leaves m := ⟨.refl m, List.suffix_refl _, rfl, .refl _, fun h => h⟩

/-- What evolves without a new thread leaves lives alone. -/
theorem Leaves.of_evolves (hspares : m.Spares m') (hevolves : m.Evolves m')
    (hhooks : m'.hooks = m.hooks) : m.Leaves m' :=
  ⟨hspares, hevolves.trace, hevolves.executing,
    hevolves.scopes.mono (fun _ _ => trivial) (Nat.le_refl _) fun h => h,
    fun h => ⟨by rw [hhooks]; exact h.start, by rw [hhooks]; exact h.stop⟩⟩

/-- What leaves the tree alone leaves lives alone. -/
theorem Leaves.of_scopes (hscopes : m'.scopes = m.scopes) (hreports : m'.reports = m.reports)
    (htrace : m.trace <:+ m'.trace) (hexecuting : m'.executing = m.executing)
    (hhooks : m'.hooks = m.hooks) : m.Leaves m' :=
  ⟨.of_scopes hscopes hreports, htrace, hexecuting, hscopes ▸ .refl _,
    fun h => ⟨by rw [hhooks]; exact h.start, by rw [hhooks]; exact h.stop⟩⟩

/-- Modules get scopes without threads. -/
theorem leaves_registered (m : Machine) (scope : ScopeId) (modules : List LoadedModule) :
    m.Leaves ((m.ensureMap scope).registerAll scope modules).2 := by
  have hensure : m.Leaves (m.ensureMap scope) :=
    .of_evolves (spares_ensureMap m scope) (evolves_ensureMap scope) (ensure_hooks m .module scope)
  have hspares := (spares_ensureMap m scope).trans (spares_registerAll (m.ensureMap scope) scope modules)
  have hscopes : (m.ensureMap scope).scopes.Evolves (fun _ => True) (m.ensureMap scope).tick
      (m.ensureMap scope).Exhausted ((m.ensureMap scope).registerAll scope modules).2.scopes :=
    evolves_registerAll_scopes _ scope fun _ _ => trivial
  rw [registerAll_eq] at hspares ⊢
  exact ⟨hspares, hensure.trace, hensure.executing, hensure.scopes.trans hscopes,
    fun h => ⟨(hensure.watched h).start, (hensure.watched h).stop⟩⟩

/-- **What a deed comes to** for threads: a scope is freed, or they are left alone and then scripts are
started, stopped and paused. -/
theorem Deed.frees_or_leaves (h : Machine.Deed .watching m m') :
    (∃ m₁, m.Leaves m₁ ∧ m₁.Stirs m') ∨ ∃ level id, m' = (m.free level id).2 := by
  have hstirs : m.Stirs m' → ∃ m₁, m.Leaves m₁ ∧ m₁.Stirs m' := fun hs => ⟨m, .refl m, hs⟩
  have hleaves : m.Leaves m' → ∃ m₁, m.Leaves m₁ ∧ m₁.Stirs m' := fun hl => ⟨m', hl, .refl m'⟩
  cases h with
  | request r _ =>
    cases r with
    | start scope name args info => exact .inl (hstirs (stirs_startScript ..))
    | startForced scope name args info => exact .inl (hstirs (stirs_startForced ..))
    | startType scope type args info => exact .inl (hstirs (stirs_startType ..))
    | stop scope name => exact .inl (hstirs (stirs_setScriptState scope name (by decide)))
    | pause scope name => exact .inl (hstirs (stirs_setScriptState scope name (by decide)))
    | ensure level id =>
      exact .inl (hleaves (.of_evolves (spares_ensure ..) (evolves_ensure ..) (ensure_hooks ..)))
    | setActive level id active =>
      exact .inl (hleaves (.of_evolves (spares_setActive ..) (evolves_setActive ..) (ensure_hooks ..)))
    | free level id => exact .inr ⟨level, id, rfl⟩
    | intern bytes => exact .inl (hleaves (.of_scopes rfl rfl (List.suffix_refl _) rfl rfl))
    | collect =>
      exact .inl (hleaves (.of_evolves (spares_collectStrings m) evolves_collectStrings
        (collectStrings_hooks m)))
    | save => exact .inl (hleaves (.of_evolves (spares_save m) evolves_save (save_hooks m)))
  | addModules scope _ => exact .inl ⟨_, leaves_registered .., stirs_addModules ..⟩
  | adjust branchLimit rng builtins hostFuncs held snapshots hoffers =>
    exact .inl (hleaves ⟨.of_scopes rfl rfl, List.suffix_refl _, rfl, .refl _,
      fun _ => ⟨hoffers.1, hoffers.2⟩⟩)
  | note he => exact .inl (hstirs (.note m he))
  | getModule hget _ _ =>
    have hgrows := grows_getModule hget
    exact .inl (hleaves (.of_scopes hgrows.scopes hgrows.reports hgrows.trace hgrows.executing hgrows.hooks))
  | @loadModule _ name data r hload _ _ =>
    obtain ⟨htrace, hscopes, -, hexecuting, hreports⟩ := loadModule_scopes hload
    have hhooks : m'.hooks = m.hooks := by
      have heq : (m.loadModule name data).2 = m' := congrArg Prod.snd hload
      rw [← heq]
      exact loadModule_hooks ..
    exact .inl (hleaves (.of_scopes hscopes hreports htrace hexecuting hhooks))
  | freeModule name =>
    obtain ⟨htrace, hscopes, -, hexecuting, hreports⟩ := freeModule_scopes m name
    refine .inl (hleaves (.of_scopes hscopes hreports htrace hexecuting ?_))
    unfold Machine.freeModule
    split
    · rfl
    · split <;> rfl
  | modifyVars level id i f => exact .inl (hstirs (.vars m level id i f))

/-- The functions of such hosts are tame. -/
theorem tame_lifeRule : Tame LifeRule where
  stays h := h.1
  executing h := by
    rcases h.2.2 with rfl | hdeed
    · rfl
    · exact hdeed.advances.executing

end Machine

/-! ## Moments -/

namespace Moment

open Machine Thread

variable {x y : Moment} {m m' : Machine} {d : Detached} {ds : List Detached}
  {t' u u' : Thread} {c : Census}

/-- What happens from one moment to the next. -/
inductive Step : Moment → Moment → Prop
  /-- A piece of a script. -/
  | stir {m m' : Machine} {ds : List Detached} (h : m.Stirs m') : Step ⟨m, ds⟩ ⟨m', ds⟩
  | proceed {m : Machine} {d : Detached} {ds : List Detached} {t' : Thread} (h : d.thread.Proceeds t') :
    Step ⟨m, d :: ds⟩ ⟨m, { d with thread := t' } :: ds⟩
  /-- A host function changes the machine and the thread that calls it. -/
  | host {m m' : Machine} {d : Detached} {ds : List Detached} {t' : Thread}
      (h : LifeRule m d.thread m' t') :
    Step ⟨m, d :: ds⟩ ⟨m', { d with thread := t' } :: ds⟩
  /-- The host does something between ticks. -/
  | operate {m m' : Machine} (h : Machine.Deed .watching m m') : Step ⟨m, []⟩ ⟨m', []⟩
  | begins {m : Machine} (h : m.executing = false) :
    Step ⟨m, []⟩ ⟨{ m with executing := true, tick := m.tick + 1 }, []⟩
  | ends (m : Machine) : Step ⟨m, []⟩ ⟨{ m with executing := false }, []⟩
  /-- A thread that has ended is removed. -/
  | reap {m : Machine} {scope : ScopeId} {i j : Nat} {u : Thread}
      (hu : (m.scopes.module? scope i).bind (·.threads[j]?) = some u)
      (hend : u.state.isFinished = true) : Step ⟨m, []⟩ ⟨m.reap scope i j, []⟩
  /-- A delay is lowered. -/
  | wait {m : Machine} {scope : ScopeId} {i j : Nat} {u : Thread}
      (hu : (m.scopes.module? scope i).bind (·.threads[j]?) = some u)
      (hend : u.state.isFinished = false) :
    Step ⟨m, []⟩ ⟨m.modifyThreadAt scope i j fun _ => u.awake m.tick, []⟩
  /-- The turn of a thread begins. -/
  | visit {m : Machine} {scope : ScopeId} {i j : Nat} {u : Thread}
      (hu : (m.scopes.module? scope i).bind (·.threads[j]?) = some u)
      (hend : u.state.isFinished = false) :
    Step ⟨m, []⟩ ⟨m.detach scope i (fun _ => j) u.id, [⟨u.awake m.tick, scope, i, m.executing⟩]⟩
  /-- A thread is started for its result, and its turn begins. -/
  | result {m : Machine} {ds : List Detached} {u v : Thread} {map : MapScope} {place : ModuleScope}
      {scope : ScopeId} {i j : Nat} {args : List Word} {info : ThreadInfo} {takesName : Bool}
      (hmap : m.scopes.map? scope = some map) (hplace : map.modules[i]? = some place)
      (hv : Thread.make? map.nextThreadId place.module scope i j args info = some v)
      (hname : takesName = true → map.Single i j)
      (hu : (place.threads ++ [v]).find? (·.id == u.id) = some u) (hid : u.id = v.id) :
    Step ⟨m, ds⟩
      ⟨{ (m.spawn scope i j args info takesName).2.detach scope i
          (fun ts => ts.findIdx (·.id == u.id)) u.id with executing := true },
        ⟨{ u with lastTick := (m.spawn scope i j args info takesName).2.tick }, scope, i, m.executing⟩
          :: ds⟩
  /-- The turn of the innermost thread ends. -/
  | back {m : Machine} {d : Detached} {ds : List Detached} :
    Step ⟨m, d :: ds⟩
      ⟨{ m with executing := d.executing }.reattach d.scope d.moduleIndex d.thread, ds⟩

/-- What happens from one moment to a later one. -/
abbrev Steps : Moment → Moment → Prop := Relation.ReflTransGen Step

/-! ### Turns and ticks -/

/-- **A turn**, moment by moment. -/
theorem steps_of_acts {t t' : Thread} (h : Acts LifeRule m t m' t') (d : Detached)
    (ds : List Detached) :
    Steps ⟨m, { d with thread := t } :: ds⟩ ⟨m', { d with thread := t' } :: ds⟩ := by
  induction h generalizing d ds with
  | stir h => exact .single (.stir h)
  | proceed h => exact .single (.proceed (d := { d with thread := _ }) h)
  | host h => exact .single (.host (d := { d with thread := _ }) h)
  | trans _ _ ih ih' => exact (ih d ds).trans (ih' d ds)
  | @result m m' t u u' v map place scope i j args info takesName hmap hplace hv hname hu hid _ ih =>
    exact .head (.result hmap hplace hv hname hu hid)
      (.tail (ih ⟨u', scope, i, m.executing⟩ ({ d with thread := t } :: ds)) .back)

/-- **What the scheduler does**, moment by moment. -/
theorem steps_of_ticks (h : Ticks LifeRule m m') : Steps ⟨m, []⟩ ⟨m', []⟩ := by
  induction h with
  | stir h => exact .single (.stir h)
  | trans _ _ ih ih' => exact ih.trans ih'
  | reap hu hend => exact .single (.reap hu hend)
  | wait hu hend => exact .single (.wait hu hend)
  | @turn m m' scope i j u u' hu hend h =>
    have hback : Step ⟨m', [⟨u', scope, i, m.executing⟩]⟩
        ⟨{ m' with executing := m.executing }.reattach scope i u', []⟩ := Step.back
    have hbusy : { m' with executing := m.executing } = m' := by
      have hsame : m'.executing = m.executing := h.executing tame_lifeRule
      rw [← hsame]
    rw [hbusy] at hback
    exact .head (.visit hu hend) (.tail (steps_of_acts h ⟨u', scope, i, m.executing⟩ []) hback)

variable {host : Host} (hhost : host.Obeys LifeRule)
include hhost

/-- **A tick**, moment by moment. -/
theorem steps_exec {fuel : Nat} (h : m.exec host fuel = some m') : Steps ⟨m, []⟩ ⟨m', []⟩ := by
  rcases exec_cases hhost tame_lifeRule h with ⟨-, hstirs⟩ | ⟨hrest, m₁, hticks, rfl⟩
  · exact .single (.stir hstirs)
  · exact .head (.begins hrest) (.tail (steps_of_ticks hticks) (.ends m₁))

/-- **A start for a result**, moment by moment. -/
theorem steps_startResult {fuel : Nat} {scope : ScopeId} {name : ScriptName} {args : List Word}
    {info : ThreadInfo} {r : Option Word}
    (h : m.startResult (turn host fuel) scope name args info = some (r, m')) :
    Steps ⟨m, []⟩ ⟨m', []⟩ := by
  cases hstarted : m.startedTurn? scope name args info with
  | none => exact .single (.stir (stirs_of_startedTurn? hstarted h))
  | some p =>
    obtain ⟨map, place, v, u, i, j, takesName, hmap, hplace, hv, hname, hu, hid, rfl, hresult⟩ :=
      exists_started hstarted
    rw [hresult] at h
    obtain ⟨⟨m₂, u₂⟩, hrun, heq⟩ := Option.map_eq_some_iff.1 h
    cases heq
    have hacts := acts_runDetached (acts_turn hhost tame_lifeRule) rfl hrun
    exact .head (.result hmap hplace hv hname hu hid)
      (.tail (steps_of_acts hacts ⟨u₂, scope, i, m.executing⟩ []) .back)

omit hhost

/-! ### What holds at every moment -/

/-- The machine is in order, and placeholders keep the seats of the threads that are out. -/
structure Sound (x : Moment) : Prop where
  coherent : x.machine.Coherent
  led : x.machine.Led
  watched : x.machine.Watched
  /-- A placeholder keeps the seat of the innermost thread that belongs there. -/
  held : ∀ id n z k, x.machine.Holds id n z k →
    ∃ d, x.out.find? (·.seat = ⟨id, n, k⟩) = some d ∧ d.thread.module.map (·.toModule) = some z
  owned : ∀ d ∈ x.out, ∃ z, d.thread.Owned z d.scope d.moduleIndex

/-- At rest no placeholder is left. -/
theorem Sound.real (h : Sound ⟨m, []⟩) {scope : ScopeId} {i j : Nat}
    (hu : (m.scopes.module? scope i).bind (·.threads[j]?) = some u) : u.isPlaceholder = false := by
  obtain ⟨map, place, hmap, hat, hplace, huj⟩ := exists_place hu
  cases hp : u.isPlaceholder with
  | false => rfl
  | true =>
    obtain ⟨d, hd, -⟩ := h.held scope i _ _ ⟨map, hmap, place, hplace, rfl, u, List.mem_of_getElem? huj,
      rfl, hp⟩
    cases hd

/-- What the tree goes through leaves the count sound, while ids are fresh. -/
theorem Sound.evolves {known : LoadedModule → Prop} {now : Nat} {wraps : Prop} (h : Sound ⟨m, ds⟩)
    (hm : m.scopes.Evolves known now wraps m'.scopes) (hwatched : m'.Watched) (hfresh : ¬ wraps) :
    Sound ⟨m', ds⟩ :=
  ⟨h.coherent.evolve_scopes h.led hm hfresh, h.led.evolve hm, hwatched,
    fun id n z k hk => h.held id n z k (hk.of_evolves hm), h.owned⟩

/-- Requests leave the count sound, while ids are fresh. -/
theorem Sound.stirs (h : Sound ⟨m, ds⟩) (hm : m.Stirs m') (hfresh : ¬ m'.Exhausted) :
    Sound ⟨m', ds⟩ :=
  h.evolves hm.evolves.scopes (h.watched.of_tools hm.tools) hfresh

/-- What the host does keeps the machine in order, and the census follows it. -/
theorem Sound.deed (h : Sound ⟨m, ds⟩) (hdeed : Machine.Deed .watching m m') (hfresh : ¬ m'.Exhausted) :
    Sound ⟨m', ds⟩ ∧ ∀ {stack c}, m.Counted stack c → ∃ c', c.Steps c' ∧ m'.Counted stack c' := by
  obtain ⟨m₁, hleaves, hstirs⟩ | ⟨level, id, rfl⟩ := hdeed.frees_or_leaves
  · have hfresh₁ := fun he => hfresh (Exhausted.mono hstirs.evolves.trace he)
    have h₁ : Sound ⟨m₁, ds⟩ := h.evolves hleaves.scopes (hleaves.watched h.watched) hfresh₁
    exact ⟨h₁.stirs hstirs hfresh, fun hc =>
      hstirs.counted h₁.coherent h₁.led hfresh h₁.watched (hleaves.counted hc)⟩
  · have hwatched : (m.free level id).2.Watched :=
      ⟨by rw [free_hooks]; exact h.watched.start, by rw [free_hooks]; exact h.watched.stop⟩
    exact ⟨h.evolves (evolves_free level id).scopes hwatched hfresh, fun hc =>
      Counted.free hc h.coherent.distinct h.watched level id⟩

/-- The innermost thread goes on. -/
theorem Sound.thread (h : Sound ⟨m, d :: ds⟩) (hsame : d.thread.Same t')
    (hframed : d.thread.Framed → t'.Framed) : Sound ⟨m, { d with thread := t' } :: ds⟩ := by
  refine ⟨h.coherent, h.led, h.watched, fun id n z k hk => ?_, fun e he => ?_⟩
  · obtain ⟨e, he, hz⟩ := h.held id n z k hk
    have hseat : ({ d with thread := t' } : Detached).seat = d.seat := by
      rw [Detached.seat, Detached.seat, hsame.id]
    rw [List.find?_cons] at he ⊢
    rw [hseat]
    split at he
    · cases he
      exact ⟨_, rfl, by rw [hsame.module]; exact hz⟩
    · exact ⟨e, he, hz⟩
  · rcases List.mem_cons.1 he with rfl | he
    · obtain ⟨z, hz⟩ := h.owned d List.mem_cons_self
      exact ⟨z, hz.same hsame (hframed hz.framed)⟩
    · exact h.owned e (List.mem_cons_of_mem _ he)

/-- Whether scripts run, and in which tick, does not matter to the count. -/
theorem Sound.aside (h : Sound ⟨m, ds⟩) (executing : Bool) (tick : Nat) :
    Sound ⟨{ m with executing, tick }, ds⟩ :=
  ⟨h.coherent, h.led, ⟨h.watched.start, h.watched.stop⟩, h.held, h.owned⟩

/-- A thread is taken out of the tree. -/
theorem Sound.take {scope : ScopeId} {i : Nat} {place : ModuleScope} {j : List Thread → Nat} {now : Nat}
    (h : Sound ⟨m, ds⟩) (hplace : m.scopes.module? scope i = some place)
    (hu : place.threads[j place.threads]? = some u) (hreal : u.isPlaceholder = false)
    (hu' : u.Restated now u') (executing b : Bool) :
    Sound ⟨{ m.detach scope i j u.id with executing }, ⟨u', scope, i, b⟩ :: ds⟩ := by
  obtain ⟨map, hmap, hat⟩ := Option.bind_eq_some_iff.1 ((ScopeTree.module?_eq ..).symm.trans hplace)
  have howned := (h.coherent scope map hmap).owned i place hat u (List.mem_of_getElem? hu) hreal
  have howned' := howned.same hu'.same (howned.framed.restated hu')
  have hled : (m.detach scope i j u.id).Led := h.led.detach scope i j u.id
  refine ⟨h.coherent.detach hplace hu, hled, ⟨h.watched.start, h.watched.stop⟩, fun id n z k hk => ?_,
    fun e he => ?_⟩
  · rw [List.find?_cons]
    split
    · rename_i hseat
      -- the placeholder stands in the scope the thread was taken from
      have hseat : (⟨scope, i, u'.id⟩ : Seat) = ⟨id, n, k⟩ := of_decide_eq_true hseat
      obtain ⟨rfl, rfl, rfl⟩ := Seat.mk.inj hseat
      refine ⟨_, rfl, howned'.fits.module.trans (congrArg some ?_)⟩
      rcases holds_detach hplace hk with ⟨map', hmap', s, hs, rfl, -⟩ | ⟨-, -, rfl, -⟩
      · cases hmap.symm.trans hmap'
        cases hat.symm.trans hs
        rfl
      · rfl
    · rename_i hseat
      have hseat : (⟨scope, i, u'.id⟩ : Seat) ≠ ⟨id, n, k⟩ := of_decide_eq_false hseat
      rcases holds_detach hplace hk with hk | ⟨rfl, rfl, -, rfl⟩
      · exact h.held id n z k hk
      · exact absurd (congrArg (Seat.mk id n) hu'.same.id) hseat
  · rcases List.mem_cons.1 he with rfl | he
    · exact ⟨_, howned'⟩
    · exact h.owned e he

/-- The innermost thread is put back, or is gone. -/
theorem Sound.back (h : Sound ⟨m, d :: ds⟩) (executing : Bool) :
    Sound ⟨{ m with executing }.reattach d.scope d.moduleIndex d.thread, ds⟩ := by
  obtain ⟨z, howned⟩ := h.owned d List.mem_cons_self
  have hreal : d.thread.isPlaceholder = false := by
    have hmodule := howned.fits.module
    cases hd : d.thread.module with
    | none => simp [hd] at hmodule
    | some w => rw [isPlaceholder, hd]; rfl
  have hmine : ∀ w, m.Holds d.scope d.moduleIndex w d.thread.id → w = z := by
    intro w hw
    obtain ⟨e, he, hew⟩ := h.held _ _ _ _ hw
    rw [List.find?_cons_of_pos (by exact decide_eq_true rfl)] at he
    cases he
    exact Option.some.inj (hew.symm.trans howned.fits.module)
  have hcoherent : ({ m with executing } : Machine).Coherent := h.coherent
  obtain ⟨hback, hholds⟩ := hcoherent.reattach d.scope d.moduleIndex d.thread
    fun s p hs hp hid hplace _ => by
      obtain ⟨map, hmap, hat⟩ := Option.bind_eq_some_iff.1 ((ScopeTree.module?_eq ..).symm.trans hs)
      rw [hmine _ ⟨map, hmap, s, hat, rfl, p, hp, hid, hplace⟩]
      exact howned
  have hled : ({ m with executing } : Machine).Led := h.led
  have hwatched : ({ m with executing } : Machine).Watched := ⟨h.watched.start, h.watched.stop⟩
  refine ⟨hback, hled.reattach d.scope d.moduleIndex d.thread, hwatched.of_tools (reattach_tools ..), fun id n w k hk => ?_,
    fun e he => h.owned e (List.mem_cons_of_mem _ he)⟩
  obtain ⟨hk, hother⟩ := hholds hk
  obtain ⟨e, he, hw⟩ := h.held id n w k hk
  refine ⟨e, ?_, hw⟩
  rw [List.find?_cons_of_neg] at he
  · exact he
  · intro hseat
    obtain ⟨rfl, rfl, rfl⟩ := Seat.mk.inj (of_decide_eq_true hseat)
    exact hother hreal ⟨rfl, rfl, rfl⟩

/-- A thread that is started for its result is the new one. -/
theorem Sound.started {scope : ScopeId} {i j : Nat} {map : MapScope} {place : ModuleScope} {v : Thread}
    {args : List Word} {info : ThreadInfo} {takesName : Bool} (h : Sound ⟨m, ds⟩)
    (hmap : m.scopes.map? scope = some map) (hplace : map.modules[i]? = some place)
    (hv : Thread.make? map.nextThreadId place.module scope i j args info = some v)
    (hname : takesName = true → map.Single i j)
    (hu : (place.threads ++ [v]).find? (·.id == u.id) = some u) (hid : u.id = v.id)
    (hfresh : ¬ (m.spawn scope i j args info takesName).2.Exhausted) :
    Sound ⟨(m.spawn scope i j args info takesName).2, ds⟩ ∧ u = v := by
  have hstirs : m.Stirs (m.spawn scope i j args info takesName).2 := .spawn hmap hplace hv hname
  have hsound := h.stirs hstirs hfresh
  refine ⟨hsound, ?_⟩
  have hids := hsound.coherent.distinct scope i
  rw [threads_spawn hmap hplace hv] at hids
  exact eq_of_id_eq hids (List.mem_of_find?_eq_some hu) (by simp) hid

/-- What has been said stays said. -/
theorem Step.trace (hstep : Step x y) : x.machine.trace <:+ y.machine.trace := by
  cases hstep with
  | stir hstirs => exact hstirs.evolves.trace
  | proceed => exact List.suffix_refl _
  | host hrule =>
    rcases hrule.2.2 with rfl | hdeed
    · exact List.suffix_refl _
    · exact hdeed.advances.trace
  | operate hdeed => exact hdeed.advances.trace
  | begins => exact List.suffix_refl _
  | ends => exact List.suffix_refl _
  | reap => exact (evolves_reap ..).trace
  | wait => exact List.suffix_refl _
  | visit => exact List.suffix_refl _
  | result hmap hplace hv hname => exact (Stirs.spawn hmap hplace hv hname).evolves.trace
  | @back m d ds => exact trace_reattach { m with executing := d.executing } ..

/-- **One step** keeps the machine in order. -/
theorem Step.sound (hstep : Step x y) (h : Sound x) (hfresh : ¬ y.machine.Exhausted) :
    Sound y := by
  cases hstep with
  | stir hstirs => exact h.stirs hstirs hfresh
  | proceed hproceeds => exact h.thread hproceeds.same hproceeds.framed
  | host hrule =>
    obtain ⟨hstays, -, hmachine⟩ := hrule
    have hthread := h.thread hstays.same fun hf => hf.stays hstays
    rcases hmachine with rfl | hdeed
    · exact hthread
    · exact (hthread.deed hdeed hfresh).1
  | operate hdeed => exact (h.deed hdeed hfresh).1
  | begins => exact h.aside ..
  | ends => exact h.aside ..
  | @reap m scope i j u hu hend =>
    exact h.evolves (evolves_reap ..).scopes (h.watched.of_tools (Ticks.tools (.reap hu hend))) hfresh
  | @wait m scope i j u hu hend =>
    refine h.evolves (evolves_modifyThreadAt scope i j fun t ht => ?_).scopes
      ⟨h.watched.start, h.watched.stop⟩ hfresh
    cases hu.symm.trans ht
    exact restated_awake u m.tick
  | @visit m scope i j u hu hend =>
    obtain ⟨place, hplace, hat⟩ := Option.bind_eq_some_iff.1 hu
    exact h.take (j := fun _ => j) hplace hat (h.real hu) (restated_awake u m.tick) m.executing _
  | @result m ds u v map place scope i j args info takesName hmap hplace hv hname hu hid =>
    obtain ⟨hsound, rfl⟩ := h.started hmap hplace hv hname hu hid hfresh
    have hat : (place.threads ++ [u])[(place.threads ++ [u]).findIdx (·.id == u.id)]? = some u :=
      List.find?_eq_getElem?_findIdx.symm.trans hu
    have hmodule := module?_spawn hmap hplace hv takesName
    generalize (m.spawn scope i j args info takesName).2 = m₁ at hsound hmodule ⊢
    have hout := hsound.take (j := fun ts => ts.findIdx (·.id == u.id)) hmodule hat (real_of_make? hv).1
      (restated_noted u m₁.tick) true m.executing
    exact hout
  | back => exact h.back _

/-- **One step** of a run is followed by the census. -/
theorem Step.counted (hstep : Step x y) (h : Sound x) (hfresh : ¬ y.machine.Exhausted)
    (hc : x.machine.Counted x.stack c) : ∃ c', c.Steps c' ∧ y.machine.Counted y.stack c' := by
  cases hstep with
  | stir hstirs => exact hstirs.counted h.coherent h.led hfresh h.watched hc
  | proceed hproceeds =>
    exact ⟨c, .refl c, Census.Fits.proceed hc hproceeds.same fun hawake hi => hawake (hproceeds.inactive hi)⟩
  | host hrule =>
    obtain ⟨hstays, hstate, hmachine⟩ := hrule
    have hthread := Census.Fits.proceed hc hstays.same fun hawake => by rwa [hstate]
    rcases hmachine with rfl | hdeed
    · exact ⟨c, .refl c, hthread⟩
    · exact (h.deed hdeed hfresh).2 hthread
  | operate hdeed => exact (h.deed hdeed hfresh).2 hc
  | begins => exact ⟨c, .refl c, hc⟩
  | ends => exact ⟨c, .refl c, hc⟩
  | @reap m scope i j u hu hend =>
    exact Counted.reap hc h.coherent.distinct h.watched (getElem?_threadsAt.trans hu) (h.real hu) hend
  | @wait m scope i j u hu hend =>
    refine ⟨c, .refl c, ?_⟩
    exact Counted.wait hc h.coherent.distinct (getElem?_threadsAt.trans hu) (h.real hu)
      (restated_awake u m.tick).same nofun
  | @visit m scope i j u hu hend =>
    exact Counted.detach hc h.coherent.distinct (k := fun _ => j) (getElem?_threadsAt.trans hu)
      (h.real hu) (restated_awake u m.tick).same nofun
  | @result m ds u v map place scope i j args info takesName hmap hplace hv hname hu hid =>
    obtain ⟨hsound, rfl⟩ := h.started hmap hplace hv hname hu hid hfresh
    obtain ⟨c₁, hsteps, hc₁⟩ := Counted.spawn hc h.coherent h.watched hmap hplace hv takesName
    have hat := getElem?_started hmap hplace hv takesName hu
    generalize (m.spawn scope i j args info takesName).2 = m₁ at hsound hat hc₁ ⊢
    obtain ⟨c₂, hsteps', hc₂⟩ := hc₁.detach hsound.coherent.distinct
      (k := fun ts => ts.findIdx (·.id == u.id)) hat (real_of_make? hv).1 (restated_noted u m₁.tick).same
      (real_of_make? hv).2
    exact ⟨c₂, hsteps.trans hsteps', hc₂⟩
  | @back m d ds =>
    have hwatched : ({ m with executing := d.executing } : Machine).Watched :=
      ⟨h.watched.start, h.watched.stop⟩
    exact Counted.reattach (m := { m with executing := d.executing }) hc hwatched d.scope d.moduleIndex

/-! ### Runs -/

/-- **What a host that watches does** with a machine at rest, moment by moment. -/
theorem steps_of_handles {occasion : Occasion} (h : Regime.watching.Handles occasion m m') :
    Steps ⟨m, []⟩ ⟨m', []⟩ := by
  cases h with
  | deed h => exact .single (.operate h)
  | exec _ h =>
    obtain ⟨host, hhost, hexec⟩ := h
    exact steps_exec hhost hexec
  | startResult _ h =>
    obtain ⟨host, hhost, hstart⟩ := h
    exact steps_startResult hhost hstart

/-- A run, moment by moment, the latest moment first.  It begins with a new machine whose host asks for
the lives of threads. -/
inductive Chronicle : List Moment → Prop
  | make (settings : Settings) {hooks : Hooks} (hstart : hooks.has .threadStart = true)
      (hstop : hooks.has .threadStop = true) : Chronicle [⟨{ Machine.make settings with hooks }, []⟩]
  | next {x y : Moment} {xs : List Moment} (h : Chronicle (x :: xs)) (hstep : Step x y) :
    Chronicle (y :: x :: xs)

/-- The censuses that go along with a run. -/
inductive Follows : List Moment → List Census → Prop
  | make {x : Moment} (hfits : x.machine.Counted x.stack {}) : Follows [x] [{}]
  | next {x y : Moment} {xs : List Moment} {c c' : Census} {cs : List Census}
      (h : Follows (x :: xs) (c :: cs)) (hsteps : c.Steps c') (hfits : y.machine.Counted y.stack c') :
    Follows (y :: x :: xs) (c' :: c :: cs)

variable {xs : List Moment}

/-- A run goes on. -/
theorem Chronicle.steps (h : Chronicle (x :: xs)) (hsteps : Steps x y) :
    ∃ ys, Chronicle (y :: ys) ∧ x :: xs <:+ y :: ys := by
  induction hsteps with
  | refl => exact ⟨xs, h, List.suffix_refl _⟩
  | @tail y z _ hstep ih =>
    obtain ⟨ys, hys, hsuffix⟩ := ih
    exact ⟨y :: ys, hys.next hstep, hsuffix.trans (List.suffix_cons ..)⟩

/-- A census follows every run. -/
theorem Chronicle.follows (h : Chronicle (x :: xs)) (hfresh : ¬ x.machine.Exhausted) :
    Sound x ∧ ∃ c cs, Follows (x :: xs) (c :: cs) ∧ x.machine.Counted x.stack c ∧ c.Proper := by
  generalize hrun : x :: xs = run at h
  induction h generalizing x xs with
  | make settings hstart hstop =>
    cases hrun
    have hnone : ∀ id map, (Machine.make settings).scopes.map? id ≠ some map := nofun
    refine ⟨⟨fun id map hmap => absurd hmap (hnone id map), fun id map hmap => absurd hmap (hnone id map),
      ⟨hstart, hstop⟩, ?_, nofun⟩, {}, [], .make Census.fits_empty, Census.fits_empty, Census.proper_empty⟩
    rintro id n z k ⟨map, hmap, -⟩
    exact absurd hmap (hnone id map)
  | @next x₀ y xs₀ _ hstep ih =>
    cases hrun
    obtain ⟨hsound, c, cs, hfollows, hc, hproper⟩ := ih (fun he => hfresh (he.mono hstep.trace)) rfl
    obtain ⟨c', hsteps, hc'⟩ := hstep.counted hsound hfresh hc
    exact ⟨hstep.sound hsound hfresh, c', c :: cs, hfollows.next hsteps hc', hc', hsteps.proper hproper⟩

/-- **Lives are reported once.**  Whatever a host does with a machine at rest goes on with its run.
While no map has given away its last thread id, every run is followed by a census: it gives each
thread a label when the thread starts, and knows at each moment which threads are in the tree and which
run.  Each label has one report of a start.  It has no report of an end while its thread is in the tree
or runs, and else one, with the thread in the state of one that was stopped. -/
theorem Chronicle.reported_once (h : Chronicle (x :: xs)) (hfresh : ¬ x.machine.Exhausted) :
    (∀ occasion m m', x = ⟨m, []⟩ → Regime.watching.Handles occasion m m' →
      ∃ ys, Chronicle (⟨m', []⟩ :: ys) ∧ x :: xs <:+ ⟨m', []⟩ :: ys) ∧
    ∃ c cs, Follows (x :: xs) (c :: cs) ∧ ∀ l < c.count, ∃ t₀, c.starts l = [t₀] ∧
      (c.Lives l → c.stops l = []) ∧
      (¬ c.Lives l → ∃ t, c.stops l = [t] ∧ t₀.Same t ∧ t.state = .stopped) := by
  refine ⟨fun occasion m m' hx hhandles => ?_, ?_⟩
  · subst hx
    exact h.steps (steps_of_handles hhandles)
  · obtain ⟨-, c, cs, hfollows, -, hproper⟩ := h.follows hfresh
    exact ⟨c, cs, hfollows, hproper.reported⟩

/-- A new machine whose host asks for the lives of threads. -/
def watchedMachine : Machine :=
  { Machine.make { scopeRegCount := 1, scopeArrCount := 0 } with
    hooks := { installed := [.threadStart, .threadStop] } }

/-- The small program is loaded there. -/
def watchedLoad : Machine := (watchedMachine.loadModule { name := "sleeping" } sleepingUnit.write).2

/-- A thread of it is started. -/
def watchedStart : Machine :=
  ((watchedLoad.addNamed {} [{ name := "sleeping" }]).2.serve (.start {} (.number 1) [] {})).2

/-- Its map is freed. -/
def watchedEnd : Machine := (watchedStart.serve (.free .module {})).2

/-- The thread is reported at its start and when its map is freed. -/
theorem Chronicle.reported_once_watchedEnd : ∃ xs, Chronicle (⟨watchedEnd, []⟩ :: xs) ∧
    watchedEnd.reports.length = 2 ∧ ∃ c cs, Follows (⟨watchedEnd, []⟩ :: xs) (c :: cs) ∧
      ∀ l < c.count, ∃ t₀, c.starts l = [t₀] ∧ (c.Lives l → c.stops l = []) ∧
        (¬ c.Lives l → ∃ t, c.stops l = [t] ∧ t₀.Same t ∧ t.state = .stopped) := by
  obtain ⟨hlast, hreports⟩ : (∀ e ∈ watchedEnd.trace, logEnd? e ≠ some '5') ∧
      watchedEnd.reports.length = 2 := by decide +kernel
  have hfresh : ∀ m : Machine, m.trace = watchedEnd.trace → ¬ m.Exhausted := fun m htrace =>
    not_exhausted_of_logEnd? (by rwa [htrace])
  have hmake : Chronicle [⟨watchedMachine, []⟩] := .make _ rfl rfl
  have hloads : Machine.Deed .watching watchedMachine watchedLoad := .loading rfl trivial fun _ _ _ => trivial
  have hadds : Machine.Deed .watching watchedLoad (watchedLoad.addNamed {} [{ name := "sleeping" }]).2 :=
    .adding rfl fun _ _ => trivial
  have hadd := (hmake.next (.operate hloads)).next (.operate hadds)
  have hstart := hadd.next (.operate (.request (.start {} (.number 1) [] {}) trivial))
  have hend := hstart.next (.operate (.request (.free .module {}) trivial))
  obtain ⟨xs, hrun⟩ : ∃ xs, Chronicle (⟨watchedEnd, []⟩ :: xs) := ⟨_, hend⟩
  have hlives := Chronicle.reported_once hrun (hfresh _ rfl)
  exact ⟨xs, hrun, hreports, hlives.2⟩

end Moment

end ScriptMachine
