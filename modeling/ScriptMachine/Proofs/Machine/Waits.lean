import ScriptMachine.Proofs.Machine.Visits

/-!
# Waits for scripts

A thread that waits for a script is looked at once in a tick.  As long as its own script is not stopped,
paused or started by force, it is left alone until then (`Moment.Abides`), and there it goes on just if nobody
holds the name that it waits for (`Managed.waits_exactly`).

Who holds a name changes only when a thread is started (`Moment.Course.inherits`), so a name that nobody holds
when a tick begins keeps no thread waiting in that tick, unless a thread is added to its map.
-/

namespace ScriptMachine

/-- The name of the script that is waited for. -/
def ThreadState.awaited? : ThreadState → Option ScriptName
  | waitNumber n => some (.number n)
  | waitName s => some (.text s)
  | _ => none

/-- A state that waits for a script waits. -/
theorem ThreadState.isWait_of_awaited? {state : ThreadState} {name : ScriptName}
    (h : state.awaited? = some name) : state.isWait = true := by
  cases state <;> first | rfl | cases h

namespace Machine

open Thread

variable {m m' m'' : Machine} {scope home : ScopeId} {name : ScriptName} {t : Thread}

/-! ## Names that nobody holds -/

/-- The name leads nowhere in the map, or nobody took it, or the thread that took it has ended. -/
def Unheld (m : Machine) (scope : ScopeId) (name : ScriptName) : Prop :=
  m.resolveScript? scope name = none ∨ ∃ slot, m.resolveScript? scope name = some slot ∧
    (slot.thread = none ∨ ∃ k u, slot.thread = some k ∧
      m.sitter? ⟨scope, slot.moduleIndex, k⟩ = some u ∧ u.state.isFinished = true)

/-- The thread that holds a name is in the tree. -/
theorem Ordered.exists_holder (hm : m.Ordered) {slot : ScriptSlot} {k : Word}
    (hslot : m.resolveScript? scope name = some slot) (hthread : slot.thread = some k) :
    m.Known ⟨scope, slot.moduleIndex, k⟩ ∧ ∃ u, m.sitter? ⟨scope, slot.moduleIndex, k⟩ = some u := by
  obtain ⟨map, hmap, hfind⟩ := Option.bind_eq_some_iff.1 hslot
  obtain ⟨q, p, -, hq, hholder, -⟩ := (hm scope map hmap).staffed.holder name slot _ hfind hthread
  obtain ⟨place, hplace, rfl⟩ := MapScope.getElem?_of_plan hq
  obtain ⟨u, hu, hrole⟩ := List.mem_map.1 hholder
  obtain rfl : u.id = k := congrArg Prod.fst hrole
  have hat : u ∈ m.threadsAt scope slot.moduleIndex := by
    rw [threadsAt, ScopeTree.module?_eq, hmap, Option.bind_some, hplace]
    exact hu
  obtain ⟨j, hj⟩ := List.getElem?_of_mem hat
  exact ⟨hm.known hat, u, hm.distinct.sitter? hj⟩

/-- **Nobody holds a name** that keeps no thread waiting. -/
theorem Ordered.scriptActive_eq_false_iff (hm : m.Ordered) :
    m.scriptActive scope name = false ↔ m.Unheld scope name := by
  cases hmap : m.scopes.map? scope with
  | none => simp [Unheld, resolveScript?, scriptActive, hmap]
  | some map =>
    cases hfind : map.slots.find? name with
    | none =>
      simp [Unheld, resolveScript?, scriptActive, MapScope.scriptActive, MapScope.scriptThread?, hmap, hfind]
    | some slot =>
      have hslot : m.resolveScript? scope name = some slot := by
        rw [resolveScript?, hmap]
        exact hfind
      cases hthread : slot.thread with
      | none =>
        simp [Unheld, scriptActive, MapScope.scriptActive, MapScope.scriptThread?, hmap, hfind, hthread,
          hslot]
      | some k =>
        obtain ⟨-, u, hu⟩ := hm.exists_holder hslot hthread
        have hheld : map.scriptThread? name = some u := by
          rw [sitter?, threadsAt, ScopeTree.module?_eq, hmap, Option.bind_some] at hu
          cases hplace : map.modules[slot.moduleIndex]? with
          | none =>
            rw [hplace] at hu
            cases hu
          | some place =>
            rw [hplace] at hu
            simp only [MapScope.scriptThread?, hfind, hthread, Option.bind_eq_bind, Option.bind_some, hplace]
            exact hu
        simp [Unheld, scriptActive, MapScope.scriptActive, hmap, hslot, hthread, hheld, hu]

/-- Each name of the map is held by the thread that held it, or by a new one, or by nobody. -/
def Inherits (scope : ScopeId) (m m' : Machine) : Prop :=
  ∀ map', m'.scopes.map? scope = some map' → ∃ map, m.scopes.map? scope = some map ∧
    map.nextThreadId ≤ map'.nextThreadId ∧
    ∀ name slot', map'.slots.find? name = some slot' → ∃ slot, map.slots.find? name = some slot ∧
      slot'.moduleIndex = slot.moduleIndex ∧
      ∀ k, slot'.thread = some k → slot.thread = some k ∨ map.nextThreadId ≤ k

/-- The tree alone has what is inherited. -/
theorem Inherits.of_scopes (h : m'.scopes = m.scopes) : Inherits scope m m' := fun map hmap =>
  ⟨map, h ▸ hmap, UInt32.le_refl _, fun _ slot hslot => ⟨slot, hslot, rfl, fun _ hk => .inl hk⟩⟩

theorem Inherits.trans (h : Inherits scope m m') (h' : Inherits scope m' m'') : Inherits scope m m'' := by
  intro map'' hmap''
  obtain ⟨map', hmap', hnext', hslots'⟩ := h' map'' hmap''
  obtain ⟨map, hmap, hnext, hslots⟩ := h map' hmap'
  refine ⟨map, hmap, UInt32.le_trans hnext hnext', fun name slot'' hslot'' => ?_⟩
  obtain ⟨slot', hslot', hindex', hthread'⟩ := hslots' name slot'' hslot''
  obtain ⟨slot, hslot, hindex, hthread⟩ := hslots name slot' hslot'
  refine ⟨slot, hslot, hindex'.trans hindex, fun k hk => ?_⟩
  rcases hthread' k hk with hk' | hle
  · exact hthread k hk'
  · exact .inr (UInt32.le_trans hnext hle)

/-- What widens inherits. -/
theorem Widens.inherits (h : m.Widens m') : Inherits scope m m' := by
  intro map' hmap'
  have hsome := ScopeTree.isSome_map?_eq_of_shape h.shape scope
  rw [hmap', Option.isSome_some] at hsome
  obtain ⟨map, hmap⟩ := Option.isSome_iff_exists.1 hsome.symm
  obtain ⟨map₁, hmap₁, hgrows⟩ := h.maps scope map hmap
  cases hmap'.symm.trans hmap₁
  refine ⟨map, hmap, hgrows.next, fun name slot' hslot' => ?_⟩
  obtain ⟨slot, hslot, hindex, -, hthread⟩ := hgrows.slot name slot' hslot'
  refine ⟨slot, hslot, hindex, fun k hk => ?_⟩
  rcases hthread with heq | ⟨k', hk', hle⟩
  · exact .inl (heq ▸ hk)
  · cases hk.symm.trans hk'
    exact .inr hle

/-- One map changes, and no name is taken in it. -/
theorem Inherits.modifyMap {f : MapScope → MapScope} (h : m'.scopes = m.scopes.modifyMap home f)
    (hnext : ∀ map, (f map).nextThreadId = map.nextThreadId)
    (hslots : ∀ map name slot', (f map).slots.find? name = some slot' →
      ∃ slot, map.slots.find? name = some slot ∧ slot'.moduleIndex = slot.moduleIndex ∧
        ∀ k, slot'.thread = some k → slot.thread = some k) : Inherits scope m m' := by
  intro map' hmap'
  rw [h, ScopeTree.map?_modifyMap] at hmap'
  split at hmap'
  · rename_i hscope
    obtain ⟨map, hmap, rfl⟩ := Option.map_eq_some_iff.1 hmap'
    refine ⟨map, hscope ▸ hmap, by rw [hnext]; exact UInt32.le_refl _, fun name slot' hslot' => ?_⟩
    obtain ⟨slot, hslot, hindex, hthread⟩ := hslots map name slot' hslot'
    exact ⟨slot, hslot, hindex, fun k hk => .inl (hthread k hk)⟩
  · exact ⟨map', hmap', UInt32.le_refl _, fun _ slot hslot => ⟨slot, hslot, rfl, fun _ hk => .inl hk⟩⟩

/-- Threads of a module change in place. -/
theorem Inherits.modifyModule {i : Nat} {f : ModuleScope → ModuleScope}
    (h : m'.scopes = m.scopes.modifyModule home i f) : Inherits scope m m' :=
  .modifyMap h (fun _ => rfl) fun _ _ slot hslot => ⟨slot, hslot, rfl, fun _ hk => hk⟩

/-- A map without one thread inherits. -/
theorem inherits_reap {i j : Nat} (hu : (m.threadsAt home i)[j]? = some t) :
    Inherits scope m (m.reap home i j) := by
  rw [getElem?_threadsAt] at hu
  refine .modifyMap (reap_scopes hu) (fun map => ?_) fun map name slot' hslot' => ?_
  · unfold MapScope.releaseSlot
    split <;> rfl
  · unfold MapScope.releaseSlot at hslot'
    split at hslot'
    · exact ⟨slot', hslot', rfl, fun _ hk => hk⟩
    · simp only [OrdMap.find?_modify] at hslot'
      split at hslot'
      · obtain ⟨slot, hslot, rfl⟩ := Option.map_eq_some_iff.1 hslot'
        refine ⟨slot, hslot, ?_, fun k hk => ?_⟩
        · split <;> rfl
        · split at hk
          · cases hk
          · exact hk
      · exact ⟨slot', hslot', rfl, fun _ hk => hk⟩

end Machine

namespace Moment

open Machine Thread

variable {occasion : Occasion} {home : ScopeId} {x y z : Moment} {m m' : Machine} {s : Seat} {t u : Thread}
  {name : ScriptName}

/-- Paces inherit, unless the host asks. -/
theorem Pace.inherits (h : Pace occasion home x y) (hoccasion : occasion ≠ .request) (scope : ScopeId) :
    Inherits scope x.machine y.machine := by
  obtain ⟨hbeat, hm, hfresh⟩ := h
  have hstirs : ∀ {m m' : Machine}, m.Stirs m' → m.Ordered → ¬ m'.Exhausted → Inherits scope m m' :=
    fun h hm hfresh => (h.orderly hm hfresh).2.inherits
  cases hbeat with
  | work scope ds hworks => exact hstirs hworks.stirs hm hfresh
  | perform => exact .of_scopes rfl
  | ask m ds scope q => exact hstirs (stirs_comply m scope q) hm hfresh
  | result hmap hplace hv hname =>
    exact (hstirs (.spawn hmap hplace hv hname) hm hfresh).trans (.modifyModule rfl)
  | back m d ds =>
    rcases reattach_cases { m with executing := d.executing } d.scope d.moduleIndex d.thread with
      ⟨-, -, -, v, -, -, -, -, -, heq, -⟩ | ⟨-, -, heq, -⟩
    · exact .modifyModule (congrArg Machine.scopes heq)
    · exact .of_scopes heq
  | rest hrequest => exact absurd hrequest hoccasion
  | clock => exact .of_scopes rfl
  | reap _ _ hu => exact inherits_reap hu
  | wait => exact .modifyModule rfl
  | visit => exact .modifyModule rfl

/-- **Who holds a name:** the thread that held it, or a new one, or nobody. -/
theorem Course.inherits (h : Course occasion home x y) (hoccasion : occasion ≠ .request) (scope : ScopeId) :
    Inherits scope x.machine y.machine := by
  induction h with
  | refl => exact .of_scopes rfl
  | tail _ hpace ih => exact ih.trans (hpace.inherits hoccasion scope)

/-- A thread that has ended has no turn any more. -/
theorem not_runnable {scope : ScopeId} {state : ThreadState} (h : state.isFinished = true) :
    (m.isRunnable scope state).1 ≠ true := by
  cases state <;> cases h <;> exact Bool.false_ne_true

/-- A thread that has ended and is not out of the tree stays so, and it may be removed. -/
theorem Course.finished (h : Course occasion home x y) (hoccasion : occasion ≠ .request)
    (hs : x.machine.Known s)
    (hx : ∀ u, x.machine.sitter? s = some u → u.isPlaceholder = false ∧ u.state.isFinished = true) :
    y.machine.Known s ∧
      ∀ u, y.machine.sitter? s = some u → u.isPlaceholder = false ∧ u.state.isFinished = true := by
  refine h.keeps (P := fun x => x.machine.Known s ∧
    ∀ u, x.machine.sitter? s = some u → u.isPlaceholder = false ∧ u.state.isFinished = true)
    (fun {x y} hpace ⟨hs, hx⟩ => ⟨hpace.known hoccasion hs, fun u hu => ?_⟩) ⟨hs, hx⟩
  rcases hpace.fate hs fun hrequest => absurd hrequest hoccasion with heq | ⟨t, ht, hfate⟩
  · exact hx u (heq ▸ hu)
  · obtain ⟨hreal, hend⟩ := hx t ht
    cases hfate with
    | resumed hheld hpaused hsit =>
      rw [hpaused] at hend
      cases hend
    | replaced hheld hlive hsit => cases hlive.symm.trans hend
    | halted hreach hsit =>
      obtain ⟨slot, -, -, -, hreaches⟩ := hreach
      simp [reaches, hend] at hreaches
    | returned hplace hsit => cases hplace.symm.trans hreal
    | reaped _ _ _ _ hsit => cases hsit.symm.trans hu
    | lowered _ hrunnable => exact absurd hrunnable (not_runnable hend)
    | entered _ hrunnable => exact absurd hrunnable (not_runnable hend)

/-- **A name that nobody holds** goes on so as long as no thread is added to its map. -/
theorem Course.unheld (h : Course occasion home ⟨m, []⟩ ⟨m', []⟩) (hoccasion : occasion ≠ .request)
    {scope : ScopeId} (hm : m.Ordered) (hm' : m'.Ordered) (hfilled : m.Filled)
    (hnext : ∀ map map', m.scopes.map? scope = some map → m'.scopes.map? scope = some map' →
      map'.nextThreadId ≤ map.nextThreadId) (hunheld : m.Unheld scope name) : m'.Unheld scope name := by
  cases hslot' : m'.resolveScript? scope name with
  | none => exact .inl hslot'
  | some slot' =>
    refine .inr ⟨slot', hslot', ?_⟩
    cases hthread' : slot'.thread with
    | none => exact .inl rfl
    | some k =>
      obtain ⟨⟨map₁, hmap₁, hlt⟩, u, hu⟩ := hm'.exists_holder hslot' hthread'
      refine .inr ⟨k, u, rfl, hu, ?_⟩
      obtain ⟨map', hmap', hfind'⟩ := Option.bind_eq_some_iff.1 hslot'
      cases hmap₁.symm.trans hmap'
      obtain ⟨map, hmap, -, hslots⟩ := h.inherits hoccasion scope map₁ hmap₁
      obtain ⟨slot, hfind, hindex, hthread⟩ := hslots name slot' hfind'
      have hslot : m.resolveScript? scope name = some slot := by
        dsimp only at hmap
        rw [resolveScript?, hmap]
        exact hfind
      rcases hthread k hthread' with hold | hle
      · -- the thread that held it has ended
        rcases hunheld with hnone | ⟨slot₀, hslot₀, hnone | ⟨k₀, u₀, hthread₀, hu₀, hend⟩⟩
        · cases hnone.symm.trans hslot
        · cases hslot.symm.trans hslot₀
          cases hnone.symm.trans hold
        · cases hslot.symm.trans hslot₀
          cases hthread₀.symm.trans hold
          rw [hindex] at hu
          have hknown := (hm.exists_holder hslot hold).1
          refine ((h.finished hoccasion hknown fun w hw => ?_).2 u hu).2
          cases hu₀.symm.trans hw
          obtain ⟨map₂, place, hmap₂, hplace, hmem, -⟩ := exists_threadsAt (mem_of_sitter? hu₀).1
          exact ⟨hfilled _ map₂ hmap₂ place (List.mem_of_getElem? hplace) _ hmem, hend⟩
      · -- no new thread holds it
        have hnew := UInt32.lt_of_lt_of_le (UInt32.lt_of_lt_of_le hlt (hnext map map₁ hmap hmap')) hle
        exact absurd hnew (UInt32.lt_irrefl _)

/-! ## Threads that wait -/

/-- While no thread is out of the tree, a thread in it just sits there. -/
theorem sits_rest (h : m.sitter? s = some t) : Sits s t ⟨m, []⟩ :=
  ⟨h, fun _ hd => absurd hd List.not_mem_nil⟩

/-- A thread that sits is undisturbed so far. -/
theorem Undisturbed.refl (h : Sits s t x) : Undisturbed occasion s t x x := ⟨h, .refl⟩

/-- A thread that is left alone twice is undisturbed. -/
theorem Undisturbed.trans (h : Undisturbed occasion s t x y) (h' : Undisturbed occasion s t y z) :
    Undisturbed occasion s t x z :=
  ⟨h.1, h.2.trans h'.2⟩

/-- One pace that leaves a thread in its seat leaves it undisturbed. -/
theorem Undisturbed.single (hx : Sits s t x) (hpace : Pace occasion s.scope x y) (hy : Sits s t y) :
    Undisturbed occasion s t x y :=
  ⟨hx, .single ⟨hpace, hy⟩⟩

/-- What happens in the turns of scripts happens in ticks too. -/
theorem Pace.tick (h : Pace .start home x y) : Pace .tick home x y := by
  obtain ⟨hbeat, hm, hfresh⟩ := h
  refine ⟨?_, hm, hfresh⟩
  cases hbeat with
  | work scope ds hworks => exact .work scope ds hworks
  | perform hperforms => exact .perform hperforms
  | ask m ds scope q => exact .ask m ds scope q
  | result hmap hplace hv hname hu hid => exact .result hmap hplace hv hname hu hid
  | back m d ds => exact .back m d ds
  | rest hoccasion => cases hoccasion
  | clock _ _ _ hoccasion => cases hoccasion
  | reap hoccasion => cases hoccasion
  | wait hoccasion => cases hoccasion
  | visit hoccasion => cases hoccasion

/-- What leaves a thread alone in a start leaves it alone in a tick. -/
theorem Undisturbed.tick (h : Undisturbed .start s t x y) : Undisturbed .tick s t x y :=
  ⟨h.1, Relation.ReflTransGen.mono (fun _ _ h => ⟨h.1.tick, h.2⟩) _ _ h.2⟩

/-- In a tick the thread is left alone until its script is paused, and it pauses, or its script is stopped
or started by force, and it ends. -/
def Disturbed (s : Seat) (t : Thread) (x y : Moment) : Prop :=
  ∃ a b, Undisturbed .tick s t x a ∧ Course .tick s.scope b y ∧
    (b.machine.sitter? s = some { t with state := .paused } ∧ Halts true s t a b ∨
      b.machine.sitter? s = some { t with state := .stopped } ∧
        (Moment.Starts true s t a b ∨ Halts false s t a b))

/-- In a tick the thread is left alone, or its script is paused, stopped or started by force. -/
def Abides (s : Seat) (t : Thread) (x y : Moment) : Prop :=
  Undisturbed .tick s t x y ∨ Disturbed s t x y

/-- A thread may be left alone before it is disturbed. -/
theorem Undisturbed.disturbed (h : Undisturbed .tick s t x y) (h' : Disturbed s t y z) :
    Disturbed s t x z := by
  obtain ⟨a, b, hleft, hevent⟩ := h'
  exact ⟨a, b, h.trans hleft, hevent⟩

/-- A thread may be left alone before it abides. -/
theorem Undisturbed.abides (h : Undisturbed .tick s t x y) (h' : Abides s t y z) : Abides s t x z :=
  h'.imp h.trans h.disturbed

/-- Once disturbed, whatever comes then. -/
theorem Disturbed.course (h : Disturbed s t x y) (h' : Course .tick s.scope y z) : Disturbed s t x z := by
  obtain ⟨a, b, hleft, hafter, hevent⟩ := h
  exact ⟨a, b, hleft, hafter.trans h', hevent⟩

/-- **The turn of another thread** keeps a thread that waits. -/
theorem abides_of_plays {u' : Thread} (h : Plays m u m' u') (hm : m.Ordered) (hfresh : ¬ m'.Exhausted)
    (d : Detached) (hd : Vacated ⟨m, [{ d with thread := u }]⟩) (hsit : m.sitter? s = some t)
    (hreal : t.isPlaceholder = false) (hwait : t.state.isWait = true) (hdelay : t.delay = 0) :
    Abides s t ⟨m, [{ d with thread := u }]⟩ ⟨m', [{ d with thread := u' }]⟩ := by
  have hcourse : Course .start s.scope ⟨m, [{ d with thread := u }]⟩ ⟨m', [{ d with thread := u' }]⟩ :=
    course_of_plays h hm hfresh d []
  rcases hcourse.until hd hsit hreal with hleft | ⟨a, b, hleft, hpace, hfate, -, hafter⟩
  · exact .inl hleft.tick
  · rcases hfate.promotes hpace.ordered hreal hwait hdelay with ⟨hstart, -⟩ | hevent
    · cases hstart
    · exact .inr ⟨a, b, hleft.tick, Relation.ReflTransGen.mono (fun _ _ h => h.tick) _ _ hafter, hevent⟩

end Moment

namespace Machine

open Moment Thread

variable {fuel : Nat} {m m' b : Machine} {x : Visiting} {xs : List Visiting} {v : Visit} {s : Seat}
  {t : Thread} {name : ScriptName} {home : ScopeId}

/-- A thread is taken out, has its turn, and is put back, and another thread that waits is kept. -/
theorem abides_turn {scope : ScopeId} {i j : Nat} {u u' : Thread} (hm : m.Ordered)
    (hu : (m.threadsAt scope i)[j]? = some u) (hrunnable : (m.isRunnable scope u.state).1 = true)
    (hzero : (u.awake m.tick).delay = 0)
    (hplays : Plays (m.detach scope i (fun _ => j) u.id) (u.awake m.tick) m' u')
    (hfresh : ¬ (m'.reattach scope i u').Exhausted) (hne : s ≠ ⟨scope, i, u.id⟩)
    (hsit : m.sitter? s = some t) (hreal : t.isPlaceholder = false) (hwait : t.state.isWait = true)
    (hdelay : t.delay = 0) : Abides s t ⟨m, []⟩ ⟨m'.reattach scope i u', []⟩ := by
  have hacts : Acts Never _ _ m' u' := hplays.acts
  have hfresh' : ¬ m'.Exhausted := fun he => hfresh (he.mono (trace_reattach ..))
  have hfresh₀ : ¬ m.Exhausted := fun he => hfresh' (he.mono hacts.trace)
  obtain ⟨map, place, -, hplace, -, hat⟩ := exists_place (getElem?_threadsAt ▸ hu)
  have hdetached := hm.detach (j := fun _ => j) hplace hat
  have hm' := (hacts.orderly hdetached hfresh').1
  have hbegins : Pace .tick s.scope ⟨m, []⟩
      ⟨m.detach scope i (fun _ => j) u.id, [⟨u.awake m.tick, scope, i, m.executing⟩]⟩ :=
    ⟨.visit rfl hu hrunnable hzero, hm, hfresh₀⟩
  have hout := hbegins.vacated (vacated_rest m)
  have hsit' := (hm.distinct.sitter?_detach (k := fun _ => j) hu s).trans ((if_neg hne).trans hsit)
  have hkept := abides_of_plays hplays hdetached hfresh' ⟨u', scope, i, m.executing⟩ hout hsit' hreal hwait
    hdelay
  have hends : Pace .tick s.scope ⟨m', [⟨u', scope, i, m.executing⟩]⟩ ⟨m'.reattach scope i u', []⟩ := by
    have hbeat : Beat .tick s.scope ⟨m', [⟨u', scope, i, m.executing⟩]⟩
        ⟨{ m' with executing := m.executing }.reattach scope i u', []⟩ := .back m' _ []
    have hbusy : m'.executing = m.executing := hacts.executing tame_never
    rw [← hbusy] at hbeat ⊢
    exact ⟨hbeat, hm', hfresh⟩
  refine Undisturbed.abides (.single (sits_rest hsit) hbegins ⟨hsit', hout.not_out hsit' hreal⟩) ?_
  rcases hkept with hleft | hevent
  · refine .inl (hleft.trans (.single hleft.sits hends (sits_rest ?_)))
    rcases sitter?_reattach m' scope i u' s with heq | ⟨hseat, -⟩
    · exact heq.trans hleft.sits.1
    · exact absurd hseat.symm (hleft.sits.2 _ List.mem_cons_self)
  · exact .inr (hevent.course (.single hends))

/-- **The visit of another thread** keeps a thread that waits. -/
theorem abides_run (hx : x.machine.Underway) (h : x.run quietHost fuel = some (v, b))
    (hfresh : ¬ b.Exhausted) (hother : x.seat? ≠ some s) (hsit : x.machine.sitter? s = some t)
    (hwait : t.state.isWait = true) (hdelay : t.delay = 0) :
    Abides s t ⟨x.machine, []⟩ ⟨b, []⟩ := by
  have hreal := hx.filled.real_of_sitter? hsit
  have hm := hx.ordered
  have hsits : Sits s t ⟨x.machine, []⟩ := sits_rest hsit
  rcases visit_cases h with ⟨-, rfl, -⟩ | ⟨u, hu, hactive, hcases⟩
  · exact .inl (.refl hsits)
  rw [← getElem?_threadsAt] at hu
  have hne : s ≠ ⟨x.scope, x.moduleIndex, u.id⟩ := fun hs => hother
    (Visiting.seat?_eq_some.2 ⟨u, Visiting.thread?_eq_some.2 ⟨hactive, hu⟩, hs⟩)
  rcases hcases with ⟨hend, -, rfl, -⟩ | ⟨-, -, m₀, hworks, hscopes, hrest⟩
  · refine .inl (.single hsits ⟨.reap rfl hactive hu hend, hm, hfresh⟩ (sits_rest ?_))
    exact (hm.distinct.sitter?_reap hu s).trans ((if_neg hne).trans hsit)
  have hm₀ : m₀.Ordered := hm.of_scopes hscopes
  have hu₀ : (m₀.threadsAt x.scope x.moduleIndex)[x.index]? = some u := by rwa [threadsAt_congr hscopes]
  have hsit₀ : m₀.sitter? s = some t := by rwa [sitter?, threadsAt_congr hscopes]
  have hfirst : ¬ m₀.Exhausted → Undisturbed .tick s t ⟨x.machine, []⟩ ⟨m₀, []⟩ := fun hfresh₀ =>
    .single hsits ⟨.work x.scope [] hworks, hm, hfresh₀⟩ (sits_rest hsit₀)
  rcases hrest with ⟨rfl, -⟩ | ⟨hrunnable, -, hpositive, rfl, -⟩ |
    ⟨hrunnable, -, hzero, -, m₂, u', hrun, rfl⟩
  · exact .inl (hfirst hfresh)
  · rw [← isRunnable_of_works hworks hscopes] at hrunnable
    refine .inl ((hfirst hfresh).trans (.single (sits_rest hsit₀)
      ⟨.wait rfl hu₀ hrunnable hpositive, hm₀, hfresh⟩ (sits_rest ?_)))
    have hwaited := hm₀.distinct.sitter?_modifyThreadAt hu₀ (t := u.awake m₀.tick) rfl s
    exact hwaited.trans ((if_neg hne).trans hsit₀)
  · rw [← isRunnable_of_works hworks hscopes] at hrunnable
    have hplays := plays_runDetached plays_turn hrun
    have hdelay₀ : (u.awake m₀.tick).delay = 0 := by simpa using hzero
    have hfresh₀ : ¬ m₀.Exhausted := fun he =>
      hfresh ((he.mono hplays.acts.trace).mono (trace_reattach ..))
    exact (hfirst hfresh₀).abides
      (abides_turn hm₀ hu₀ hrunnable hdelay₀ hplays hfresh hne hsit₀ hreal hwait hdelay)

/-- **Visits of other threads** keep a thread that waits. -/
theorem Walk.abides (h : Walk quietHost fuel m xs m') (hm : m.Underway) (hfresh : ¬ m'.Exhausted)
    (hother : ∀ x ∈ xs, x.seat? ≠ some s) (hsit : m.sitter? s = some t) (hwait : t.state.isWait = true)
    (hdelay : t.delay = 0) : Abides s t ⟨m, []⟩ ⟨m', []⟩ := by
  refine (h.along (R := fun m xs m' => Course .tick s.scope ⟨m, []⟩ ⟨m', []⟩ ∧
    ((∀ x ∈ xs, x.seat? ≠ some s) → m.sitter? s = some t → Abides s t ⟨m, []⟩ ⟨m', []⟩)) hm hfresh
    (fun _ => ⟨.refl, fun _ hsit => .inl (.refl (sits_rest hsit))⟩) ?_).2.2 hother hsit
  rintro x v b xs m' hx hrun hfresh₁ ⟨hcourse, hrest⟩
  refine ⟨(course_visit hx.ordered hrun hfresh₁).1.trans hcourse, fun hother hsit => ?_⟩
  rcases abides_run hx hrun hfresh₁ (hother x List.mem_cons_self) hsit hwait hdelay with hleft | hevent
  · exact hleft.abides (hrest (fun y hy => hother y (List.mem_cons_of_mem _ hy)) hleft.sits.1)
  · exact .inr (hevent.course hcourse)

/-- A thread that waits for a script may run when that one is not active. -/
theorem isRunnable_of_awaited? {state : ThreadState} (h : state.awaited? = some name) (scope : ScopeId) :
    (m.isRunnable scope state).1 = !m.scriptActive scope name := by
  cases state <;> cases h <;> rfl

/-- **The visit of a thread that waits:** its turn begins if nobody holds the name that it waits for, and if
somebody does the thread is left alone. -/
theorem run_of_awaited? (hx : x.machine.Underway) (h : x.run quietHost fuel = some (v, b))
    (hfresh : ¬ b.Exhausted) (hseat : x.seat? = some s) (hsit : x.machine.sitter? s = some t)
    (hwait : t.state.awaited? = some name) (hdelay : t.delay = 0) (hunspent : t.lastTick ≠ x.machine.tick) :
    (x.machine.Unheld s.scope name ∧
        ∃ n, x.turn? = some (n, { t with state := .running, lastTick := x.machine.tick })) ∨
      (¬ x.machine.Unheld s.scope name ∧ x.turn? = none ∧
        Undisturbed .tick s t ⟨x.machine, []⟩ ⟨b, []⟩) := by
  obtain ⟨u, hu, hsit', -, -⟩ := sitter?_of_seat? hx hseat
  obtain rfl : u = t := Option.some.inj (hsit'.symm.trans hsit)
  obtain ⟨_, -, hplace⟩ := Visiting.seat?_eq_some.1 hseat
  have hscope : x.scope = s.scope := by rw [hplace]
  have hlive := ThreadState.isFinished_of_isWait (ThreadState.isWait_of_awaited? hwait)
  have hasked : (x.machine.isRunnable x.scope u.state).1 = true ↔ x.machine.Unheld s.scope name := by
    rw [isRunnable_of_awaited? hwait, hscope, Bool.not_eq_true', hx.ordered.scriptActive_eq_false_iff]
  rcases Visiting.run_cases hu h with ⟨hended, -, -⟩ | ⟨-, ⟨hnot, hworks, hscopes, hnone⟩ |
    ⟨hrunnable, -, m₀, -, -, ⟨hpositive, -, -⟩ | ⟨-, hturn⟩⟩⟩
  · cases hlive.symm.trans hended
  · refine .inr ⟨fun hunheld => hnot ⟨hasked.2 hunheld, hunspent⟩, hnone, ?_⟩
    refine .single (sits_rest hsit) ⟨.work x.scope [] hworks, hx.ordered, hfresh⟩ (sits_rest ?_)
    rw [sitter?, threadsAt_congr hscopes]
    exact hsit
  · simp only [awake, hdelay] at hpositive
    exact absurd hpositive (by decide)
  · have hawake : u.awake x.machine.tick = { u with state := .running, lastTick := x.machine.tick } := by
      rw [awake, hdelay]
      rfl
    exact .inl ⟨hasked.1 hrunnable, _, hawake ▸ hturn⟩

/-- **Waits end exactly when they should.**  Let scripts call built-in functions only, and let no map give
away its last thread id.  A thread that waits for a script as a tick of an active map begins is looked at once
in the tick.  Its own script is paused, stopped or started by force in the tick, or else: if nobody holds the
awaited name as the thread is looked at, it is set running and has its turn, and if somebody does, it is left
alone for the whole tick.  If nobody holds the name as the tick begins and no thread is added to the map in
it, then the thread has its turn. -/
theorem Managed.waits_exactly (hm : Managed m) (hrest : m.executing = false)
    (hexec : ∀ host, m.exec host fuel = some m') (hfresh : ¬ m'.Exhausted) (hsit : m.sitter? s = some t)
    (hactive : m.scopes.isActive s.scope = true) (hwait : t.state.awaited? = some name) :
    ∃ before x after, m.tickVisits quietHost fuel = before ++ x :: after ∧ x.seat? = some s ∧
      (∀ y ∈ before ++ after, y.seat? ≠ some s) ∧
      (Disturbed s t ⟨m, []⟩ ⟨m', []⟩ ∨
        (x.machine.Unheld s.scope name →
          (∃ n, x.turn? = some (n, { t with state := .running, lastTick := m.tick + 1 })) ∧
          s ∈ entries (m.tickMarks quietHost fuel)) ∧
        (¬ x.machine.Unheld s.scope name → Undisturbed .tick s t ⟨m, []⟩ ⟨m', []⟩ ∧
          s ∉ entries (m.tickMarks quietHost fuel)) ∧
        (m.Unheld s.scope name →
          (m'.scopes.map? s.scope).map (·.nextThreadId) = (m.scopes.map? s.scope).map (·.nextThreadId) →
          s ∈ entries (m.tickMarks quietHost fuel))) := by
  obtain ⟨before, x, after, u, b, hat⟩ := hm.attended hrest (hexec quietHost) hfresh hsit hactive
  refine ⟨before, x, after, hat.visits, hat.seat, hat.once, ?_⟩
  obtain ⟨hfresh₀, hfreshx, hfreshb⟩ := hat.fresh hfresh
  obtain ⟨m₁, hlast, rfl⟩ := hat.walkAfter
  obtain ⟨v, hrun⟩ := hat.run
  have hx := hat.underway
  have hordered := hm.ordered hfresh₀
  have hwaits := ThreadState.isWait_of_awaited? hwait
  have hdelay : t.delay = 0 := calmAt_of_managed hm hfresh₀ s.moduleIndex t (mem_of_sitter? hsit).1 hwaits
  -- the phases of the tick
  have hstart : Undisturbed .tick s t ⟨m, []⟩ ⟨m.begun, []⟩ :=
    .single (sits_rest hsit) ⟨.clock m true (m.tick + 1) rfl, hordered, hfresh₀⟩ (sits_rest hsit)
  have hown : Course .tick s.scope ⟨x.machine, []⟩ ⟨b, []⟩ := (course_visit hx.ordered hrun hfreshb).1
  have hend : Pace .tick s.scope ⟨m₁, []⟩ ⟨{ m₁ with executing := false }, []⟩ :=
    ⟨.clock m₁ false m₁.tick rfl, (hlast.underway hat.left hfresh).ordered, hfresh⟩
  have hclose : Course .tick s.scope ⟨b, []⟩ ⟨{ m₁ with executing := false }, []⟩ :=
    (hlast.course hat.left hfresh).tail hend
  rcases hat.walkBefore.abides (hm.underway hfresh₀) hfreshx
    (fun y hy => hat.once y (List.mem_append_left _ hy)) hsit hwaits hdelay with hleft | hevent
  swap
  · exact .inl (hstart.disturbed (hevent.course (hown.trans hclose)))
  have hlooked := hstart.trans hleft
  have hunspent : t.lastTick ≠ x.machine.tick := by
    rw [← hat.restates.lastTick_eq]
    exact hat.unspent
  rcases run_of_awaited? hx hrun hfreshb hat.seat hleft.sits.1 hwait hdelay hunspent with
    ⟨hunheld, n, hturn⟩ | ⟨hheld, hnone, hsame⟩
  · have hentered : s ∈ entries (m.tickMarks quietHost fuel) := hat.entered.2 ⟨_, hturn⟩
    rw [hat.tick] at hturn
    exact .inr ⟨fun _ => ⟨⟨n, hturn⟩, hentered⟩, fun hheld => absurd hunheld hheld, fun _ _ => hentered⟩
  · rcases hlast.abides hat.left hfresh (fun y hy => hat.once y (List.mem_append_right _ hy)) hsame.sits.1
      hwaits hdelay with hstays | hevent
    swap
    · exact .inl ((hlooked.trans hsame).disturbed (hevent.course (.single hend)))
    refine .inr ⟨fun hunheld => absurd hunheld hheld, fun _ => ⟨?_, ?_⟩, fun hunheld hnext => ?_⟩
    · exact (hlooked.trans hsame).trans (hstays.trans (.single hstays.sits hend (sits_rest hstays.sits.1)))
    · intro hentered
      obtain ⟨p, hp⟩ := hat.entered.1 hentered
      cases hnone.symm.trans hp
    · -- nobody can have taken the name
      refine absurd (hlooked.course.unheld (by decide) hordered hx.ordered (hm.filled hfresh₀) ?_ hunheld) hheld
      intro map map' hmap hmap'
      rw [hmap] at hnext
      obtain ⟨map₁, hmap₁, hsame⟩ := Option.map_eq_some_iff.1 hnext
      obtain ⟨map₂, hmap₂, hle, -⟩ := Course.inherits (hown.trans hclose) (by decide) s.scope map₁ hmap₁
      cases hmap'.symm.trans hmap₂
      rwa [hsame] at hle

/-- A unit with a script that waits for a script that is not there. -/
def waitingUnit : Bytecode where
  regCount := 0
  arrCount := 0
  strings := []
  functions := []
  scripts := [{
    name := .number 1, type := 0, flags := 0, argCount := 0, regCount := 0, arrCount := 0
    entry := 0 }]
  code := [10, 9, 7, 2]

/-- The machine with the unit loaded. -/
def equippedMachine : Machine := (smallMachine.loadModule { name := "waiting" } waitingUnit.write).2

/-- The unit is added to a map and its script started. -/
def queuedMachine : Machine :=
  ((equippedMachine.addNamed {} [{ name := "waiting" }]).2.serve
    (.start {} (.number 1) [] {})).2

/-- The machine after a tick, with the thread waiting. -/
def waitingMachine : Machine := (queuedMachine.exec quietHost 9).getD queuedMachine

/-- The machine after another tick. -/
def releasedMachine : Machine := (waitingMachine.exec quietHost 9).getD waitingMachine

/-- How the machine with the waiting thread comes about. -/
theorem managed_waitingMachine : Managed waitingMachine := by
  obtain ⟨hnone, hruns⟩ : queuedMachine.hostFuncs = #[] ∧
      (queuedMachine.exec quietHost 9).isSome = true := by decide +kernel
  have hqueued : Managed queuedMachine := (Managed.make _).launch ..
  obtain ⟨m, hm⟩ := Option.isSome_iff_exists.1 hruns
  have hexec : queuedMachine.exec quietHost 9 = some waitingMachine := by
    rw [waitingMachine, hm, Option.getD_some]
  exact hqueued.exec fun host => (exec_eq_of_hostFuncs hnone).trans hexec

/-- The tick passes whatever host there is. -/
theorem exec_waitingMachine (host : Host) : waitingMachine.exec host 9 = some releasedMachine := by
  have hruns : waitingMachine.hostFuncs = #[] ∧ (waitingMachine.exec quietHost 9).isSome = true := by
    decide +kernel
  obtain ⟨m, hm⟩ := Option.isSome_iff_exists.1 hruns.2
  rw [exec_eq_of_hostFuncs hruns.1, releasedMachine, hm, Option.getD_some]

/-- The thread is looked at once, and has its turn. -/
theorem Managed.waits_exactly_waiting : Managed waitingMachine ∧
    (∀ host, waitingMachine.exec host 9 = some releasedMachine) ∧
    (∃ t, waitingMachine.sitter? ⟨{}, 0, 1⟩ = some t ∧ t.state = .waitNumber 9) ∧
    (∃ x ∈ waitingMachine.tickVisits quietHost 9, x.seat? = some ⟨{}, 0, 1⟩) ∧
    entries (waitingMachine.tickMarks quietHost 9) = [⟨{}, 0, 1⟩] := by
  obtain ⟨hrest, hlast, hactive, hsits, hentries⟩ : waitingMachine.executing = false ∧
      (∀ e ∈ releasedMachine.trace, logEnd? e ≠ some '5') ∧
      waitingMachine.scopes.isActive {} = true ∧
      (waitingMachine.sitter? ⟨{}, 0, 1⟩).map (·.state) = some (.waitNumber 9) ∧
      entries (waitingMachine.tickMarks quietHost 9) = [⟨{}, 0, 1⟩] := by decide +kernel
  have hfresh : ¬ releasedMachine.Exhausted := not_exhausted_of_logEnd? hlast
  obtain ⟨t, hsit, hstate⟩ := Option.map_eq_some_iff.1 hsits
  have hawaited : t.state.awaited? = some (.number 9) := by rw [hstate]; rfl
  obtain ⟨before, x, after, hvisits, hseat, -⟩ := Managed.waits_exactly managed_waitingMachine hrest
    exec_waitingMachine hfresh hsit hactive hawaited
  have hx : x ∈ waitingMachine.tickVisits quietHost 9 := by
    rw [hvisits]
    exact List.mem_append_right _ List.mem_cons_self
  exact ⟨managed_waitingMachine, exec_waitingMachine, ⟨t, hsit, hstate⟩, ⟨x, hx, hseat⟩, hentries⟩

end Machine

end ScriptMachine
