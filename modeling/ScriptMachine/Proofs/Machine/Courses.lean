import ScriptMachine.Proofs.Machine.Beats

/-!
# Runs, beat by beat

What a host does with a machine at rest is a sequence of beats (`Undertakes.course`): what it does between
ticks, ticks in which scripts call built-in functions only, and starts for a result.  A tick removes the
threads that had ended before it, if their maps are active (`course_exec`).
-/

namespace ScriptMachine.Moment

open Machine Thread

variable {occasion : Occasion} {home : ScopeId} {x y : Moment} {m m' : Machine} {s : Seat}
  {t t' u : Thread}

/-! ### Turns -/

/-- **A turn**, beat by beat. -/
theorem course_of_plays (h : Plays m t m' t') (hm : m.Ordered) (hfresh : ¬ m'.Exhausted) (d : Detached)
    (ds : List Detached) : Course occasion home ⟨m, { d with thread := t } :: ds⟩
      ⟨m', { d with thread := t' } :: ds⟩ := by
  induction h generalizing d ds with
  | perform h => exact .single ⟨.perform (d := { d with thread := _ }) h, hm, hfresh⟩
  | aside m t running =>
    exact .single ⟨.work {} _ (.aside m m.rng running (.refl _)), hm, hfresh⟩
  | work _ h => exact .single ⟨.work _ _ h, hm, hfresh⟩
  | @ask m t t' _ q h =>
    have hasked := ((stirs_comply m t.scope q).orderly hm hfresh).1
    exact .tail (.single ⟨.ask m _ t.scope q, hm, hfresh⟩)
      ⟨.perform (d := { d with thread := _ }) h, hasked, hfresh⟩
  | trans h h' ih ih' =>
    have hfresh₂ := fun he => hfresh (Exhausted.mono (Acts.trace h'.acts) he)
    have hm₂ := (Acts.orderly h.acts hm hfresh₂).1
    exact (ih hm hfresh₂ d ds).trans (ih' hm₂ hfresh d ds)
  | stray _ hmap hslot hstray => exact absurd ((hm _ _ hmap).leads hslot) hstray
  | @result m m' t u u' v map place i j args info takesName _ hmap hplace hv hname hu hid h ih =>
    have hfresh' : ¬ m'.Exhausted := fun he =>
      hfresh (he.mono (trace_reattach { m' with executing := m.executing } t.scope i u'))
    have hspawned : ¬ (m.spawn t.scope i j args info takesName).2.Exhausted := fun he =>
      hfresh' (he.mono (Acts.trace h.acts))
    have hdetached := (hm.started hmap hplace hv hname hu hid hspawned).2.2.2
    have hm' := (Acts.orderly h.acts (hdetached.of_scopes rfl) hfresh').1
    exact .head ⟨.result hmap hplace hv hname hu hid, hm, hspawned⟩
      (.tail (ih (hdetached.of_scopes rfl) hfresh' ⟨u', t.scope, i, m.executing⟩
        ({ d with thread := t } :: ds)) ⟨.back m' _ _, hm', hfresh⟩)

/-- Whether a thread may run does not depend on what was done besides. -/
theorem isRunnable_of_works {scope home : ScopeId} {state : ThreadState} (hworks : Works home m m')
    (hscopes : m'.scopes = m.scopes) : (m'.isRunnable scope state).1 = (m.isRunnable scope state).1 := by
  have hhooks : m'.hooks = m.hooks := congrArg (fun x => x.2.1) hworks.stirs.tools
  cases state <;> simp only [isRunnable, scriptActive, hscopes, hhooks]
  split <;> rfl

/-- Who is visited there is marked. -/
theorem visited_visitMarks {host : Host} {fuel : Nat} {scope : ScopeId} {i j : Nat}
    (hactive : m.scopes.isActive scope = true) (hu : (m.threadsAt scope i)[j]? = some u) :
    visited (m.visitMarks host fuel scope i j) = [⟨scope, i, u.id⟩] := by
  rw [visitMarks, if_neg (by simp [hactive])]
  simp only [hu]
  cases m.visitedTurn? scope i j with
  | none => rfl
  | some p => exact congrArg _ (visited_enters _)

/-- **A visit**, beat by beat.  A thread that has ended is gone after a visit to it. -/
theorem course_visit {fuel : Nat} {scope : ScopeId} {i j : Nat} {v : Visit} (hm : m.Ordered)
    (h : m.visit (turn quietHost fuel) scope i j = some (v, m')) (hfresh : ¬ m'.Exhausted) :
    Course .tick home ⟨m, []⟩ ⟨m', []⟩ ∧
      ∀ s ∈ visited (m.visitMarks quietHost fuel scope i j), Ended m s → m'.sitter? s = none := by
  obtain ⟨-, rfl, hnone⟩ | ⟨u, hu, hactive, hcases⟩ := visit_cases h
  · refine ⟨.refl, fun s hs => ?_⟩
    have hmarks : m'.visitMarks quietHost fuel scope i j = [] := by
      unfold visitMarks
      split
      · rfl
      · rename_i hactive
        rw [getElem?_threadsAt, hnone (by simpa using hactive)]
    rw [hmarks] at hs
    cases hs
  · rw [← getElem?_threadsAt] at hu
    rw [visited_visitMarks hactive hu]
    rcases hcases with ⟨hend, -, rfl, -⟩ | ⟨hlive, -, m₀, hworks, hscopes, hrest⟩
    · refine ⟨.single ⟨.reap rfl hactive hu hend, hm, hfresh⟩, fun s hs _ => ?_⟩
      rw [hm.distinct.sitter?_reap hu, if_pos (List.mem_singleton.1 hs)]
    · constructor
      · have hm₀ : m₀.Ordered := hm.of_scopes hscopes
        have hu₀ : (m₀.threadsAt scope i)[j]? = some u := by rwa [threadsAt_congr hscopes]
        have hcourse : ¬ m₀.Exhausted → Course .tick home ⟨m, []⟩ ⟨m₀, []⟩ := fun hfresh₀ =>
          .single ⟨.work scope [] hworks, hm, hfresh₀⟩
        rcases hrest with ⟨rfl, -⟩ | ⟨hrunnable, -, hdelay, rfl, -⟩ |
          ⟨hrunnable, -, hdelay, -, m₂, u', hrun, rfl⟩
        · exact hcourse hfresh
        · rw [← isRunnable_of_works hworks hscopes] at hrunnable
          exact (hcourse hfresh).tail ⟨.wait rfl hu₀ hrunnable hdelay, hm₀, hfresh⟩
        · rw [← isRunnable_of_works hworks hscopes] at hrunnable
          have hplays := plays_runDetached plays_turn hrun
          have hacts : Acts Never _ _ m₂ u' := hplays.acts
          have hfresh₂ : ¬ m₂.Exhausted := fun he => hfresh (he.mono (trace_reattach ..))
          have hfresh₀ : ¬ m₀.Exhausted := fun he => hfresh₂ (he.mono hacts.trace)
          obtain ⟨map, place, -, hplace, -, hat⟩ := exists_place (getElem?_threadsAt ▸ hu₀)
          have hdetached := hm₀.detach (j := fun _ => j) hplace hat
          have hm₂ := (hacts.orderly hdetached hfresh₂).1
          have hback : { m₂ with executing := m₀.executing } = m₂ := by
            have hbusy : m₂.executing = m₀.executing := hacts.executing tame_never
            rw [← hbusy]
          have hturn : Course .tick home ⟨m₀.detach scope i (fun _ => j) u.id, _⟩ ⟨m₂, _⟩ :=
            course_of_plays hplays hdetached hfresh₂ ⟨u', scope, i, m₀.executing⟩ []
          have hdelay : (u.awake m₀.tick).delay = 0 := by simpa using hdelay
          refine ((hcourse hfresh₀).tail ⟨.visit rfl hu₀ hrunnable hdelay, hm₀, hfresh₀⟩).trans
            (hturn.tail ⟨?_, hm₂, hfresh⟩)
          have hend : Beat .tick home ⟨m₂, [⟨u', scope, i, m₀.executing⟩]⟩
              ⟨{ m₂ with executing := m₀.executing }.reattach scope i u', []⟩ := .back m₂ _ []
          rwa [hback] at hend
      · -- the thread has not ended
        rintro s hs ⟨-, hended⟩
        rw [List.mem_singleton.1 hs] at hended
        rw [hended u (hm.distinct.sitter? hu)] at hlive
        cases hlive

/-- What holds of single visits, and of parts of a walk that follow each other, holds of the walk. -/
theorem visitThreads_marks {R : Machine → List Mark → Machine → Prop} {host : Host} {fuel : Nat}
    (hend : ∀ m, R m [] m)
    (happend : ∀ {m m' m'' ms ms'}, R m ms m' → R m' ms' m'' → R m (ms ++ ms') m'')
    (hvisit : ∀ {m m' scope i j v}, m.visit (turn host fuel) scope i j = some (v, m') →
      R m (m.visitMarks host fuel scope i j) m') {scope : ScopeId} {i n j : Nat}
    (h : visitThreads (turn host fuel) scope i n j m = some m') :
    R m (threadMarks host fuel scope i n j m) m' := by
  induction n generalizing j m with
  | zero => cases h
  | succ n ih =>
    unfold visitThreads at h
    unfold threadMarks
    cases hone : m.visit (turn host fuel) scope i j with
    | none =>
      rw [hone] at h
      cases h
    | some p =>
      obtain ⟨v, m₁⟩ := p
      rw [hone] at h
      have hfirst := hvisit hone
      cases v with
      | finished =>
        cases h
        exact happend hfirst (hend m')
      | removed => exact happend hfirst (ih h)
      | next => exact happend hfirst (ih h)

/-- What holds of each visit with its marks holds of the visits to a map. -/
theorem visitModules_marks {R : Machine → List Mark → Machine → Prop} {host : Host} {fuel : Nat}
    (hend : ∀ m, R m [] m)
    (happend : ∀ {m m' m'' ms ms'}, R m ms m' → R m' ms' m'' → R m (ms ++ ms') m'')
    (hvisit : ∀ {m m' scope i j v}, m.visit (turn host fuel) scope i j = some (v, m') →
      R m (m.visitMarks host fuel scope i j) m') {scope : ScopeId} {n i : Nat}
    (h : visitModules (turn host fuel) scope n i m = some m') :
    R m (moduleMarks host fuel scope n i m) m' := by
  induction n generalizing i m with
  | zero => cases h
  | succ n ih =>
    unfold visitModules at h
    unfold moduleMarks
    cases hmap : m.scopes.map? scope with
    | none =>
      rw [hmap] at h
      cases h
      exact hend _
    | some map =>
      simp only [hmap] at h ⊢
      split at h
      · rename_i hlt
        rw [if_pos hlt]
        cases hthreads : visitThreads (turn host fuel) scope i n 0 m with
        | none =>
          rw [hthreads] at h
          cases h
        | some m₁ =>
          rw [hthreads] at h
          exact happend (visitThreads_marks hend happend hvisit hthreads) (ih h)
      · rename_i hlt
        rw [if_neg hlt]
        cases h
        exact hend _

/-- What holds of each visit with its marks holds of the visits to all maps. -/
theorem visitMaps_marks {R : Machine → List Mark → Machine → Prop} {host : Host} {fuel : Nat}
    (hend : ∀ m, R m [] m)
    (happend : ∀ {m m' m'' ms ms'}, R m ms m' → R m' ms' m'' → R m (ms ++ ms') m'')
    (hvisit : ∀ {m m' scope i j v}, m.visit (turn host fuel) scope i j = some (v, m') →
      R m (m.visitMarks host fuel scope i j) m') {scopes : List ScopeId}
    (h : visitMaps (turn host fuel) fuel scopes m = some m') :
    R m (mapMarks host fuel scopes m) m' := by
  induction scopes generalizing m with
  | nil =>
    cases h
    exact hend _
  | cons scope rest ih =>
    unfold visitMaps at h
    unfold mapMarks
    split at h
    · rename_i hactive
      rw [if_pos hactive]
      cases hmodules : visitModules (turn host fuel) scope fuel 0 m with
      | none =>
        rw [hmodules] at h
        cases h
      | some m₁ =>
        rw [hmodules] at h
        exact happend (visitModules_marks hend happend hvisit hmodules) (ih h)
    · rename_i hactive
      rw [if_neg hactive]
      exact ih h

/-- **The walk of a tick**, beat by beat. -/
theorem course_visitMaps {fuel : Nat} {scopes : List ScopeId} (hbusy : m.executing = true)
    (hm : m.Ordered) (hfilled : m.Filled)
    (h : visitMaps (turn quietHost fuel) fuel scopes m = some m') (hfresh : ¬ m'.Exhausted) :
    m'.Ordered ∧ Course .tick home ⟨m, []⟩ ⟨m', []⟩ ∧
      ∀ s ∈ visited (mapMarks quietHost fuel scopes m), Ended m s → m'.sitter? s = none := by
  -- how the parts of the walk fit together
  let R : Machine → List Mark → Machine → Prop := fun m ms m' => m.executing = true →
    m'.executing = true ∧ m.trace <:+ m'.trace ∧ (m.Ordered → m.Filled → ¬ m'.Exhausted →
      m'.Ordered ∧ m'.Filled ∧ Course .tick home ⟨m, []⟩ ⟨m', []⟩ ∧
        ∀ s ∈ visited ms, Ended m s → m'.sitter? s = none)
  have hend : ∀ m, R m [] m := fun m hbusy => ⟨hbusy, List.suffix_refl _, fun hm hfilled _ =>
    ⟨hm, hfilled, .refl, nofun⟩⟩
  have happend : ∀ {m m' m'' ms ms'}, R m ms m' → R m' ms' m'' → R m (ms ++ ms') m'' := by
    intro m m' m'' ms ms' h h' hbusy
    obtain ⟨hbusy', htrace, hwalk⟩ := h hbusy
    obtain ⟨hbusy'', htrace', hwalk'⟩ := h' hbusy'
    refine ⟨hbusy'', htrace.trans htrace', fun hm hfilled hfresh => ?_⟩
    obtain ⟨hm', hfilled', hcourse, hgone⟩ := hwalk hm hfilled fun he => hfresh (he.mono htrace')
    obtain ⟨hm'', hfilled'', hcourse', hgone'⟩ := hwalk' hm' hfilled' hfresh
    refine ⟨hm'', hfilled'', hcourse.trans hcourse', fun s hs hended => ?_⟩
    have hended' := hcourse.ended (by decide) hended
    rw [visited_append] at hs
    rcases List.mem_append.1 hs with hs | hs
    · exact (hcourse'.gone (by decide) ⟨hended'.1, hgone s hs hended⟩).2
    · exact hgone' s hs hended'
  have hvisit : ∀ {m m' scope i j v}, m.visit (turn quietHost fuel) scope i j = some (v, m') →
      R m (m.visitMarks quietHost fuel scope i j) m' := by
    intro m m' scope i j v h hbusy
    have hticks : Ticks Never m m' :=
      ticks_visit (acts_turn (obeys_quietHost Never) tame_never) hbusy h
    refine ⟨(hticks.executing tame_never).trans hbusy, hticks.trace, fun hm hfilled hfresh => ?_⟩
    obtain ⟨hm', hfilled'⟩ := hticks.orderly hm hfilled hfresh
    exact ⟨hm', hfilled', course_visit hm h hfresh⟩
  obtain ⟨-, -, hwalk⟩ := visitMaps_marks hend happend hvisit h hbusy
  obtain ⟨hm', -, hcourse, hgone⟩ := hwalk hm hfilled hfresh
  exact ⟨hm', hcourse, hgone⟩

/-- **A tick**, beat by beat.  Threads of active maps that had ended before are gone. -/
theorem course_exec {fuel : Nat} (hrest : m.executing = false) (hm : m.Ordered) (hfilled : m.Filled)
    (h : m.exec quietHost fuel = some m') (hfresh : ¬ m'.Exhausted) :
    Course .tick home ⟨m, []⟩ ⟨m', []⟩ ∧ ∀ s t, m.scopes.isActive s.scope = true →
      m.sitter? s = some t → t.state = .stopped → m'.sitter? s = none := by
  rw [Machine.exec, execWith, if_neg (by simp [hrest])] at h
  obtain ⟨m₁, hmaps, rfl⟩ := Option.map_eq_some_iff.1 h
  have hm₀ : Ordered { m with executing := true, tick := m.tick + 1 } := hm.of_scopes rfl
  have hfilled₀ : Filled { m with executing := true, tick := m.tick + 1 } := hfilled
  have hticks : Ticks Never { m with executing := true, tick := m.tick + 1 } m₁ :=
    ticks_visitMaps tame_never (acts_turn (obeys_quietHost Never) tame_never) rfl hmaps
  have hfresh₀ : ¬ m.Exhausted := fun he => hfresh (he.mono hticks.trace)
  obtain ⟨hm₁, hcourse, hgone⟩ : m₁.Ordered ∧
      Course .tick home ⟨{ m with executing := true, tick := m.tick + 1 }, []⟩ ⟨m₁, []⟩ ∧ _ :=
    course_visitMaps rfl hm₀ hfilled₀ hmaps hfresh
  refine ⟨.head ⟨.clock m true (m.tick + 1) rfl, hm, hfresh₀⟩
    (hcourse.tail ⟨.clock m₁ false m₁.tick rfl, hm₁, hfresh⟩), fun s t hactive hsit hstop => ?_⟩
  obtain ⟨hmem, hid⟩ := mem_of_sitter? hsit
  have hknown : m.Known s := by
    have hown := hm.known hmem
    rwa [hid] at hown
  have hround := round_maps (obeys_quietHost Never) m.scopes.pairwise_mapIds rfl hm₀ hfilled₀ hmaps hfresh
  obtain ⟨map, hmap, -⟩ := id hknown
  refine hgone s (hround.covers s (ScopeTree.mem_mapIds hmap) hknown hactive ?_) ⟨hknown, ?_⟩
  · exact Option.isSome_iff_exists.2 ⟨t, hsit⟩
  · intro t' ht'
    cases hsit.symm.trans ht'
    exact hstop

/-- **A start for a result**, beat by beat. -/
theorem course_startResult {fuel : Nat} {scope : ScopeId} {name : ScriptName} {args : List Word}
    {info : ThreadInfo} {r : Option Word} (hm : m.Ordered)
    (h : m.startResult (turn quietHost fuel) scope name args info = some (r, m'))
    (hfresh : ¬ m'.Exhausted) : Course .start home ⟨m, []⟩ ⟨m', []⟩ := by
  cases hstarted : m.startedTurn? scope name args info with
  | none =>
    obtain ⟨-, hresult⟩ | ⟨slot, m₁, hslot, hspawn, -⟩ := not_started_cases hstarted
    · cases (hresult _).symm.trans h
      exact .refl
    · -- a name that leads somewhere leads to a script that can be started
      obtain ⟨map, place, v, hmap, -, hplace, hv⟩ := hm.exists_make? hslot args info
      rw [spawn_eq hmap hplace hv] at hspawn
      cases hspawn
  | some p =>
    obtain ⟨map, place, v, u, i, j, takesName, hmap, hplace, hv, hname, hu, hid, rfl, hresult⟩ :=
      exists_started hstarted
    rw [hresult] at h
    obtain ⟨⟨m₂, u₂⟩, hrun, heq⟩ := Option.map_eq_some_iff.1 h
    cases heq
    have hplays := plays_runDetached plays_turn hrun
    have hacts : Acts Never _ _ m₂ u₂ := hplays.acts
    have hfresh₂ : ¬ m₂.Exhausted := fun he =>
      hfresh (he.mono (trace_reattach { m₂ with executing := m.executing } scope i u₂))
    have hspawned : ¬ (m.spawn scope i j args info takesName).2.Exhausted := fun he =>
      hfresh₂ (he.mono hacts.trace)
    have hdetached := (hm.started hmap hplace hv hname hu hid hspawned).2.2.2
    have hm₂ := (hacts.orderly (hdetached.of_scopes rfl) hfresh₂).1
    exact .head ⟨.result hmap hplace hv hname hu hid, hm, hspawned⟩
      (.tail (course_of_plays hplays (hdetached.of_scopes rfl) hfresh₂
        ⟨u₂, scope, i, m.executing⟩ []) ⟨.back m₂ _ _, hm₂, hfresh⟩)

/-! ### What the host does -/

/-- Starts one after another, beat by beat. -/
theorem course_startAll {scope : ScopeId} {args : List Word} {info : ThreadInfo}
    {targets : List (Nat × Nat)} (hm : m.Ordered)
    (hfresh : ¬ (m.startAll scope args info targets).2.Exhausted) :
    Course occasion home ⟨m, []⟩ ⟨(m.startAll scope args info targets).2, []⟩ := by
  induction targets generalizing m with
  | nil => exact .refl
  | cons p rest ih =>
    have hstirs := stirs_comply m scope (.start p.1 p.2 args info false)
    have hfresh₁ : ¬ (m.comply scope (.start p.1 p.2 args info false)).Exhausted := fun he =>
      hfresh (he.mono (stirs_startAll _ scope args info rest).evolves.trace)
    exact .head ⟨.ask m [] scope _, hm, hfresh₁⟩ (ih (hstirs.orderly hm hfresh₁).1 hfresh)

/-- **What the host does between ticks**, beat by beat, where a map is not freed. -/
theorem course_deed {c : Terms} (hm : m.Ordered) (hdeed : Machine.Deed c m m') (hfresh : ¬ m'.Exhausted)
    (hkept : (m'.scopes.map? home).isSome = true) :
    Course .request home ⟨m, []⟩ ⟨m', []⟩ := by
  have hrest : (∀ i, m'.threadsAt home i = m.threadsAt home i) → Course .request home ⟨m, []⟩ ⟨m', []⟩ :=
    fun h => .single ⟨.rest rfl h, hm, hfresh⟩
  have hsame : m'.scopes = m.scopes → Course .request home ⟨m, []⟩ ⟨m', []⟩ := fun h =>
    hrest fun i => by rw [threadsAt_congr h]
  have hspares : m.Spares m' → Course .request home ⟨m, []⟩ ⟨m', []⟩ := fun h =>
    hrest fun i => by rw [h.threads]
  have hask : ∀ scope q, m' = m.comply scope q → Course .request home ⟨m, []⟩ ⟨m', []⟩ := by
    rintro scope q rfl
    exact .single ⟨.ask m [] scope q, hm, hfresh⟩
  obtain ⟨r, rfl⟩ | ⟨scope, modules, -, rfl⟩ | ⟨level, id, i, f, rfl⟩ | hscopes := hdeed.on_tree
  · cases r with
    | start scope name args info =>
      cases hslot : m.resolveScript? scope name with
      | none => exact hsame (by simp only [serve, startScript, hslot])
      | some slot =>
        refine hask scope (.start slot.moduleIndex slot.scriptIndex args info false) ?_
        simp only [serve, startScript, hslot, comply]
    | startForced scope name args info =>
      cases hslot : m.resolveScript? scope name with
      | none => exact hsame (by simp only [serve, Machine.startForced, hslot])
      | some slot =>
        refine hask scope (.start slot.moduleIndex slot.scriptIndex args info true) ?_
        simp only [serve, Machine.startForced, hslot, comply]
    | startType scope type args info =>
      simp only [serve, startType] at hfresh ⊢
      split
      · exact .refl
      · rename_i map hmap
        simp only [hmap] at hfresh
        exact course_startAll hm hfresh
    | stop scope name => exact hask scope (.halt name false) rfl
    | pause scope name => exact hask scope (.halt name true) rfl
    | ensure level id => exact hspares (spares_ensure m level id)
    | setActive level id active => exact hspares (spares_setActive m level id active)
    | free level id =>
      obtain ⟨map, hmap⟩ := Option.isSome_iff_exists.1 hkept
      have hold : m.scopes.map? home = some map :=
        Throughout.free (m := m) (P := fun id map => m.scopes.map? id = some map)
          (fun _ _ h => h) level id home map hmap
      exact hrest fun i => by
        rw [threadsAt, threadsAt, ScopeTree.module?_eq, ScopeTree.module?_eq, hmap, hold]
    | intern bytes => exact hsame rfl
    | collect => exact hsame (collectStrings_scopes m)
    | save => exact hsame (save_scopes m)
  · have hmade := Throughout.ensureMap (m := m) hm MapScope.ordered_empty scope
    have hadded : Ordered ((m.ensureMap scope).registerAll scope modules).2 :=
      hmade.registerAll (fun hmap x => hmap.addModule x) scope modules
    have hleaves := leaves_registered m scope modules
    have hstirs := stirs_addModules m scope modules
    have hfresh₁ := fun he => hfresh (Exhausted.mono hstirs.evolves.trace he)
    have hfirst : Course .request home ⟨m, []⟩
        ⟨((m.ensureMap scope).registerAll scope modules).2, []⟩ :=
      .single ⟨.rest rfl fun i => by rw [hleaves.threads], hm, hfresh₁⟩
    refine hfirst.trans ?_
    simp only [addModules] at hfresh ⊢
    split
    · rename_i hopens
      rw [if_pos hopens] at hfresh
      exact course_startAll hadded hfresh
    · exact .refl
  · exact hrest fun n => by rw [threadsAt_modifyVars]
  · exact hsame hscopes

/-- What a host does with a machine at rest, where scripts call built-in functions only. -/
abbrev Undertakes : Occasion → Machine → Machine → Prop := Regime.managed.Handles

/-- **What a host does**, beat by beat, where a map is not freed. -/
theorem Undertakes.course (h : Undertakes occasion m m') (hm : Managed m)
    (hfresh : ¬ m'.Exhausted) (hkept : occasion = .request → (m'.scopes.map? home).isSome = true) :
    Course occasion home ⟨m, []⟩ ⟨m', []⟩ := by
  have hfresh₀ : ¬ m.Exhausted := fun he => hfresh (he.mono h.trace)
  have hordered := hm.ordered hfresh₀
  cases h with
  | deed hdeed => exact course_deed hordered hdeed hfresh (hkept rfl)
  | @exec _ _ fuel _ hexec =>
    cases hrest : m.executing with
    | true =>
      have hwarns : m.exec quietHost fuel = some m' := hexec quietHost
      rw [Machine.exec, execWith, if_pos hrest] at hwarns
      cases hwarns
      exact .single ⟨.work {} [] (works_log ..), hordered, hfresh⟩
    | false => exact (course_exec hrest hordered (hm.filled hfresh₀) (hexec quietHost) hfresh).1
  | startResult _ hstart => exact course_startResult hordered (hstart quietHost) hfresh

/-! ### Threads that wait -/

/-- Loaded threads are as calm as the saved ones. -/
theorem calmAt_recast (h : CalmAt home m) {σ : ModuleName → Nat} {g : Nat → Nat}
    (hscopes : m'.scopes = m.scopes.recast σ g) : CalmAt home m' := by
  intro i t ht
  obtain ⟨map', place', hmap', hplace', hmem, -⟩ := exists_threadsAt ht
  rw [hscopes, ScopeTree.map?_recast] at hmap'
  obtain ⟨map, hmap, rfl⟩ := Option.map_eq_some_iff.1 hmap'
  rw [MapScope.recast, List.getElem?_map] at hplace'
  obtain ⟨place, hplace, rfl⟩ := Option.map_eq_some_iff.1 hplace'
  obtain ⟨t₀, ht₀, rfl⟩ := List.mem_map.1 hmem
  have hcalm : t₀.Calm := by
    refine h i t₀ ?_
    rw [threadsAt, ScopeTree.module?_eq, hmap, Option.bind_some, hplace]
    exact ht₀
  exact hcalm

/-- **No thread sleeps while it waits.** -/
theorem calmAt_of_managed (h : Managed m) (hfresh : ¬ m.Exhausted) : CalmAt home m := by
  induction h with
  | make settings => exact nofun
  | @handle occasion m m' h hdo ih =>
    intro i t ht
    obtain ⟨map, -, hmap, -⟩ := exists_threadsAt ht
    have hcourse := Undertakes.course hdo h hfresh fun _ => Option.isSome_iff_exists.2 ⟨map, hmap⟩
    exact hcourse.calm ⟨ih fun he => hfresh (he.mono hdo.trace), nofun⟩ i t ht
  | load _ _ htakes _ => exact htakes.elim
  | reload hX _ hsave hload hreturns ihX _ =>
    exact calmAt_recast (ihX hreturns.fresh)
      (Returns.scopes_load hreturns (Managed.coherent hX) hsave hload)

end ScriptMachine.Moment
