import ScriptMachine.Proofs.Machine.Confinement
import ScriptMachine.Proofs.Machine.ViewTurns

/-!
# Runs keep in step

Two machines that show the same do the same: where a turn of the one ends, the turn of the other ends
and they show the same again.  This is proved along the instructions, `follows_loop`, and then for
visits.  The second machine may have more fuel.

Where scripts call host functions, these have to keep in step as well (`HostProgram.Agrees`): what they
do may depend on what shows only.  Which functions are called is known for the first machine
(`turnCalls`), so calls that could tell the machines apart are ruled out there (`Call.Fair`).
-/

namespace ScriptMachine

namespace Machine

open Thread

/-! ## What every run keeps -/

/-- The machine is consistent, its threads are settled, and it is at the tick `now`; `busy` says whether
scripts run. -/
structure Orderly (sources : Nat → Bytes) (now : Nat) (busy : Bool) (m : Machine) : Prop where
  consistent : Consistent sources m
  settled : m.Settled
  tick : m.tick = now
  executing : m.executing = busy

variable {sources sources' : Nat → Bytes} {now : Nat} {busy : Bool} {m m' : Machine} {t t' : Thread}
  {scope : ScopeId} {i j : Nat}

/-- No tick begins as a thread is put back. -/
theorem reattach_tick (m : Machine) (scope : ScopeId) (i : Nat) (t : Thread) :
    (m.reattach scope i t).tick = m.tick := by
  rcases reattach_cases m scope i t with ⟨s, k, p, u, -, -, -, -, -, heq, -⟩ | ⟨-, hm, -⟩
  · rw [heq]
  · exact hm.tick

/-- No tick begins in a turn. -/
theorem Acts.tick_eq (h : Acts (HostRule sources) m t m' t') : m'.tick = m.tick := by
  induction h with
  | stir h => exact h.evolves.tick
  | proceed _ => rfl
  | host h =>
    rcases h.2 with rfl | hop
    · rfl
    · exact hop.advances.tick
  | trans _ _ ih ih' => exact ih'.trans ih
  | result hmap hplace hv hname hu hid _ ih =>
    rw [reattach_tick]
    exact ih.trans (Stirs.spawn hmap hplace hv hname).evolves.tick

/-- **Turns** leave what is kept as it is, and the thread that runs at home. -/
theorem Orderly.acts (hm : Orderly sources now busy m) (h : Acts (HostRule sources) m t m' t') :
    Orderly sources now busy m' ∧ ∀ id, t.Settled id now → t'.Settled id now := by
  obtain ⟨-, hsettled, hthread⟩ := h.goes.settled hm.settled
  have htick := h.tick_eq
  rw [htick, hm.tick] at hthread
  exact ⟨⟨h.goes.consistent hm.consistent, hsettled, htick.trans hm.tick,
    (h.executing tame_hostRule).trans hm.executing⟩, hthread⟩

/-- Requests leave what is kept as it is. -/
theorem Orderly.stirs (hm : Orderly sources now busy m) (h : m.Stirs m') : Orderly sources now busy m' :=
  (hm.acts (t := default) (.stir h)).1

/-- The machine and the thread as the turn of a start for a result begins. -/
theorem Orderly.started {name : ScriptName} {args : List Word} {info : ThreadInfo} {p : Machine × Thread}
    (hm : Orderly sources now busy m) (h : m.startedTurn? scope name args info = some p) :
    Orderly sources now true p.1 ∧ p.2.Settled scope now := by
  obtain ⟨map, place, v, u, i, j, takesName, hmap, hplace, hv, hname, hu, -, rfl, -⟩ := exists_started h
  have hspawned := hm.stirs (Stirs.spawn hmap hplace hv hname)
  have hout := hspawned.consistent.detach scope i (fun ts => ts.findIdx (·.id == u.id)) u.id
  have hsettled := hspawned.settled.detach scope i (fun ts => ts.findIdx (·.id == u.id)) u.id
  refine ⟨⟨⟨hout.strings, hout.modules, hout.places, hout.led⟩, hsettled, hspawned.tick, rfl⟩, ?_, ?_⟩
  · exact Nat.le_of_eq hspawned.tick
  · exact (hm.settled.found hmap hplace hv hu).home

/-- A thread that ran is put back. -/
theorem Orderly.reattach (hm : Orderly sources now busy m) (ht : t.Settled scope now) (i : Nat) :
    Orderly sources now busy (m.reattach scope i t) := by
  rw [← hm.tick] at ht
  exact ⟨hm.consistent.reattach .., (hm.settled.reattach ht i).1, (reattach_tick ..).trans hm.tick,
    (reattach_executing ..).trans hm.executing⟩

/-- Which modules run turns is not among what is kept. -/
theorem Orderly.setRunning (hm : Orderly sources now busy m) (running : List Nat) :
    Orderly sources now busy { m with running } :=
  ⟨⟨hm.consistent.strings, hm.consistent.modules, hm.consistent.places, hm.consistent.led⟩, hm.settled,
    hm.tick, hm.executing⟩

/-- Scripts begin to run, or end. -/
theorem Orderly.setExecuting (hm : Orderly sources now busy m) (executing : Bool) :
    Orderly sources now executing { m with executing } :=
  ⟨⟨hm.consistent.strings, hm.consistent.modules, hm.consistent.places, hm.consistent.led⟩, hm.settled,
    hm.tick, rfl⟩

/-- The scheduler begins no tick of its own. -/
theorem Ticks.tick_eq (h : Ticks (HostRule sources) m m') : m'.tick = m.tick := by
  induction h with
  | stir h => exact h.evolves.tick
  | trans _ _ ih ih' => exact ih'.trans ih
  | reap _ _ => exact (evolves_reap ..).tick
  | wait _ _ => rfl
  | turn _ _ h => exact (reattach_tick ..).trans h.tick_eq

/-- **Visits** leave what is kept as it is. -/
theorem Orderly.ticks (hm : Orderly sources now busy m) (h : Ticks (HostRule sources) m m') :
    Orderly sources now busy m' := by
  have hgoes : Goes (HostRule sources) m default m' default := h.goes
  exact ⟨hgoes.consistent hm.consistent, (hgoes.settled hm.settled).2.1, h.tick_eq.trans hm.tick,
    (h.executing tame_hostRule).trans hm.executing⟩

/-- The machine and the thread as the turn that a visit gives begins. -/
theorem Orderly.visited {p : Machine × Thread} (hm : Orderly sources now busy m)
    (h : m.visitedTurn? scope i j = some p) :
    Orderly sources now busy p.1 ∧ p.2.Settled scope now := by
  -- what the turn comes to makes no difference, so let it end at once
  have hvisit := visit_of_some h fun m t => some (m, t)
  obtain ⟨-, -, hnone⟩ | ⟨u, hu, -, ⟨-, -, -, hnone⟩ | ⟨-, -, m₀, hworks, hscopes, hrest⟩⟩ :=
    visit_cases hvisit
  · unfold visitedTurn? at h
    split at h
    · cases h
    · rename_i hactive
      rw [hnone (by simpa using hactive)] at h
      cases h
  · cases hnone.symm.trans h
  · rcases hrest with ⟨-, hnone⟩ | ⟨-, -, -, -, hnone⟩ | ⟨-, -, -, hvisited, -⟩
    · cases hnone.symm.trans h
    · cases hnone.symm.trans h
    · cases hvisited.symm.trans h
      have hm₀ := hm.stirs hworks.stirs
      obtain ⟨x, hx, hat⟩ := Option.bind_eq_some_iff.1 hu
      have hhome : u.Settled scope m₀.tick :=
        hm₀.settled.thread (by rw [hscopes]; exact hx) (List.mem_of_getElem? hat)
      have hawake := hhome.restated (restated_awake u m₀.tick)
      rw [hm₀.tick] at hawake
      exact ⟨⟨hm₀.consistent.detach scope i (fun _ => j) u.id,
        hm₀.settled.detach scope i (fun _ => j) u.id, hm₀.tick, hm₀.executing⟩, hm₀.tick ▸ hawake⟩

end Machine

/-! ## Host functions -/

/-- Two programs do the same, each with its machine and thread, as far as it shows: they come to the same
end, start the same scripts, and put in machines and threads that show the same.  What they do next may
depend on the answers to starts. -/
inductive HostProgram.Agrees {α : Type} (L : Lens) (V V' : Vantage) :
    HostProgram α → Machine → Thread → HostProgram α → Machine → Thread → Prop
  | done {m m' : Machine} {t t' : Thread} (a : α) : Agrees L V V' (.done a) m t (.done a) m' t'
  | look {m m' : Machine} {t t' : Thread} {next next' : Machine → Thread → HostProgram α}
      (h : Agrees L V V' (next m t) m t (next' m' t') m' t') :
    Agrees L V V' (.look next) m t (.look next') m' t'
  | put {m m' m₁ m₁' : Machine} {t t' t₁ t₁' : Thread} {next next' : HostProgram α}
      (hshown : V.shown L (m₁, t₁) = V'.shown L (m₁', t₁'))
      (h : Agrees L V V' next m₁ t₁ next' m₁' t₁') :
    Agrees L V V' (.put m₁ t₁ next) m t (.put m₁' t₁' next') m' t'
  | startResult {m m' : Machine} {t t' : Thread} {scope : ScopeId} {name : ScriptName}
      {args : List Word} {info : ThreadInfo} {next next' : Option Word → HostProgram α}
      (h : ∀ r m₁ m₁', m₁.view L V = m₁'.view L V' → m₁.strings.Wellformed → m₁'.strings.Wellformed →
        Agrees L V V' (next r) m₁ t (next' r) m₁' t') :
    Agrees L V V' (.startResult scope name args info next) m t
      (.startResult scope name args info next') m' t'
  | tick {m m' : Machine} {t t' : Thread} {next next' : HostProgram α}
      (h : ∀ m₁ m₁', m₁.view L V = m₁'.view L V' → m₁.strings.Wellformed → m₁'.strings.Wellformed →
        Agrees L V V' next m₁ t next' m₁' t') :
    Agrees L V V' (.tick next) m t (.tick next') m' t'

/-- Host functions keep in step wherever they are called: all is in sight for them, and the generator,
of which scripts they start may ask, is not forgotten. -/
structure Host.Steady (host : Host) (L : Lens) (V V' : Vantage) : Prop where
  sees : ∀ g, V.sees g ∧ V'.sees g
  seed : Function.Injective L.seed
  agrees : ∀ key args m t m' t', V.shown L (m, t) = V'.shown L (m', t') → m.strings.Wellformed →
    m'.strings.Wellformed → (host key args).Agrees L V V' m t (host key args) m' t'

/-- Two machines that are run by one host, and where they are looked at from. -/
structure Duo where
  lens : Lens
  left : Vantage
  right : Vantage
  leftSources : Nat → Bytes
  rightSources : Nat → Bytes
  host : Host
  obeysLeft : host.Obeys (Machine.HostRule leftSources)
  obeysRight : host.Obeys (Machine.HostRule rightSources)

namespace Duo

open Machine Thread

variable (D : Duo)

/-- The call does the same for machines that show the same. -/
def Fair (c : Call) : Prop :=
  match c.callee with
  | .builtin f => f = .random → Function.Injective D.lens.seed
  | .host _ => D.host.Steady D.lens D.left D.right

/-- The global scope is in sight on both sides. -/
def Sees (g : Word) : Prop := D.left.sees g ∧ D.right.sees g

/-- The machines show the same. -/
structure Paired (busy : Bool) (m m' : Machine) : Prop where
  view : m.view D.lens D.left = m'.view D.lens D.right
  left : Orderly D.leftSources D.left.now busy m
  right : Orderly D.rightSources D.right.now busy m'

/-- The machines show the same, and so do the threads out of their trees, which belong to a map. -/
structure Joined (scope : ScopeId) (p p' : Machine × Thread) : Prop where
  paired : D.Paired true p.1 p'.1
  face : D.left.face p.2 = D.right.face p'.2
  left : p.2.Settled scope D.left.now
  right : p'.2.Settled scope D.right.now

/-- Turns of threads of maps in sight keep in step, with so much fuel on each side. -/
def TurnsFollow (n n' : Nat) : Prop :=
  ∀ {scope p p' q}, D.Sees scope.global → D.Joined scope p p' →
    (∀ c ∈ turnCalls D.host n p.1 p.2, D.Fair c) → turn D.host n p.1 p.2 = some q →
    ∃ q', turn D.host n' p'.1 p'.2 = some q' ∧ D.Joined scope q q'

variable {D} {busy : Bool} {n n' : Nat} {m m' m₁ : Machine} {t t' t₁ : Thread} {scope : ScopeId}

/-- One call of a host function makes all calls fair. -/
theorem fair_of_host (h : D.host.Steady D.lens D.left D.right) (c : Call) : D.Fair c := by
  unfold Fair
  split
  · exact fun _ => h.seed
  · exact h

/-! ## Starts for a result -/

section

variable (hturn : D.TurnsFollow n n')
include hturn

/-- Turns outside the tree keep in step where turns do. -/
theorem follows_runDetached {p p' q : Machine × Thread} (hs : D.Sees scope.global)
    (hp : D.Joined scope p p')
    (hfair : ∀ c ∈ detachedCalls (turnCalls D.host n) p.1 p.2, D.Fair c)
    (h : runDetached (turn D.host n) p.1 p.2 = some q) :
    ∃ q', runDetached (turn D.host n') p'.1 p'.2 = some q' ∧ D.Joined scope q q' := by
  have haside : ∀ {m m' : Machine} {t t' : Thread} (r r' : List Nat),
      D.Joined scope (m, t) (m', t') →
      D.Joined scope ({ m with running := r }, t) ({ m' with running := r' }, t') := fun r r' h =>
    ⟨⟨h.paired.view, h.paired.left.setRunning r, h.paired.right.setRunning r'⟩, h.face, h.left, h.right⟩
  unfold runDetached at h ⊢
  obtain ⟨⟨m₁, t₁⟩, hrun, rfl⟩ := Option.map_eq_some_iff.1 h
  obtain ⟨⟨m₁', t₁'⟩, hrun', hq⟩ := hturn hs
    (haside _ ((p'.2.module.map (·.serial)).toList ++ p'.1.running) hp) hfair hrun
  exact ⟨_, Option.map_eq_some_iff.2 ⟨_, hrun', rfl⟩, haside _ _ hq⟩

/-- Starts for a result keep in step where turns do. -/
theorem follows_startResult {name : ScriptName} {args : List Word} {info : ThreadInfo}
    {r : Option Word} (hs : D.Sees scope.global) (hm : D.Paired busy m m')
    (hfair : ∀ c ∈ m.startCalls (turnCalls D.host n) scope name args info, D.Fair c)
    (h : m.startResult (turn D.host n) scope name args info = some (r, m₁)) :
    ∃ m₁', m'.startResult (turn D.host n') scope name args info = some (r, m₁') ∧
      D.Paired busy m₁ m₁' := by
  have hstarted : (m.startedTurn? scope name args info).map (D.left.shown D.lens) =
      (m'.startedTurn? scope name args info).map (D.right.shown D.lens) := by
    rw [← startedTurn?_view m hs.1, hm.view, startedTurn?_view m' hs.2]
  cases hp : m.startedTurn? scope name args info with
  | none =>
    have hp' : m'.startedTurn? scope name args info = none := by
      rw [hp] at hstarted
      exact Option.map_eq_none_iff.1 hstarted.symm
    have hview : (m.startResult (turn D.host n) scope name args info).map
          (fun q => (q.1, q.2.view D.lens D.left)) =
        (m'.startResult (turn D.host n') scope name args info).map
          fun q => (q.1, q.2.view D.lens D.right) := by
      rw [← startResult_view m hs.1 hp, hm.view, startResult_view m' hs.2 hp',
        startResult_of_none hp' _ (turn D.host n')]
    rw [h, Option.map_some] at hview
    obtain ⟨⟨r', m₁'⟩, h', heq⟩ := Option.map_eq_some_iff.1 hview.symm
    obtain ⟨rfl, heq⟩ := Prod.mk.inj heq
    exact ⟨m₁', h', heq.symm, hm.left.stirs (stirs_of_startedTurn? hp h),
      hm.right.stirs (stirs_of_startedTurn? hp' h')⟩
  | some p =>
    rw [hp, Option.map_some] at hstarted
    obtain ⟨p', hp', hshown⟩ := Option.map_eq_some_iff.1 hstarted.symm
    obtain ⟨hview, hface⟩ := Prod.mk.inj hshown.symm
    obtain ⟨hleft, hhome⟩ := hm.left.started hp
    obtain ⟨hright, hhome'⟩ := hm.right.started hp'
    obtain ⟨slot, hslot, hresult⟩ := startResult_of_some hp
    obtain ⟨slot', hslot', hresult'⟩ := startResult_of_some hp'
    -- both threads go back to the same place
    have hsame : slot' = slot := by
      rw [← resolveScript?_view (L := D.lens) m' hs.2, ← hm.view, resolveScript?_view m hs.1, hslot]
        at hslot'
      exact (Option.some.inj hslot').symm
    subst hsame
    rw [hresult] at h
    obtain ⟨⟨m₂, u⟩, hrun, heq⟩ := Option.map_eq_some_iff.1 h
    cases heq
    rw [startCalls, hp] at hfair
    obtain ⟨⟨m₂', u'⟩, hrun', hq⟩ := follows_runDetached hturn hs
      ⟨⟨hview, hleft, hright⟩, hface, hhome, hhome'⟩ hfair hrun
    have hstate : u.state = u'.state := by
      have hstate := congrArg Thread.state hq.face
      exact hstate
    have hanswer : u.result = u'.result := by
      have hanswer := congrArg Thread.result hq.face
      exact hanswer
    have hbusy : m.executing = m'.executing := executing_of_view hm.view
    have hback : { m₂ with executing := m.executing }.view D.lens D.left =
        { m₂' with executing := m'.executing }.view D.lens D.right := by
      rw [← hbusy]
      exact congrArg (fun x : Machine => { x with executing := m.executing }) hq.paired.view
    refine ⟨_, by rw [hresult', hrun', Option.map_some, ← hstate, ← hanswer], ?_, ?_, ?_⟩
    · rw [← reattach_view _ hs.1, ← reattach_view _ hs.2, hq.face, hback]
    · rw [hm.left.executing]
      exact (hq.paired.left.setExecuting busy).reattach hq.left _
    · rw [hm.right.executing]
      exact (hq.paired.right.setExecuting busy).reattach hq.right _

/-! ## Host functions in step -/

/-- A host function goes on as its counterpart does. -/
theorem follows_program {α : Type} {p p' : HostProgram α} {a : α}
    (hsteady : D.host.Steady D.lens D.left D.right)
    (hagrees : p.Agrees D.lens D.left D.right m t p' m' t')
    (hobeys : p.Obeys (HostRule D.leftSources) m t) (hobeys' : p'.Obeys (HostRule D.rightSources) m' t')
    (hm : D.Joined scope (m, t) (m', t'))
    (h : p.run (turn D.host n) (execWith (turn D.host n) n) m t = some (m₁, t₁, a)) :
    ∃ m₁' t₁', p'.run (turn D.host n') (execWith (turn D.host n') n') m' t' = some (m₁', t₁', a) ∧
      D.Joined scope (m₁, t₁) (m₁', t₁') := by
  induction hagrees with
  | done b =>
    cases h
    exact ⟨_, _, rfl, hm⟩
  | look _ ih => exact ih hobeys hobeys' hm h
  | put hshown _ ih =>
    obtain ⟨hview, hface⟩ := Prod.mk.inj hshown
    obtain ⟨hleft, hhome⟩ := hm.paired.left.acts (.host hobeys.1)
    obtain ⟨hright, hhome'⟩ := hm.paired.right.acts (.host hobeys'.1)
    exact ih hobeys.2 hobeys'.2
      ⟨⟨hview, hleft, hright⟩, hface, hhome scope hm.left, hhome' scope hm.right⟩ h
  | startResult _ ih =>
    simp only [HostProgram.run] at h ⊢
    split at h
    · cases h
    · rename_i r m₂ hstart
      obtain ⟨m₂', hstart', hm₂⟩ := follows_startResult hturn (hsteady.sees _) hm.paired
        (fun c _ => fair_of_host hsteady c) hstart
      rw [hstart']
      exact ih r m₂ m₂' hm₂.view hm₂.left.consistent.strings hm₂.right.consistent.strings (hobeys r m₂)
        (hobeys' r m₂') ⟨hm₂, hm.face, hm.left, hm.right⟩ h
  | @tick m m' t t' next next' _ ih =>
    -- scripts run, so the tick is put off
    have hignored : ∀ (k : Nat) (x : Machine), x.executing = true →
        execWith (turn D.host k) k x = some (x.log .warn "nested exec ignored") :=
      fun _ _ hbusy => if_pos hbusy
    simp only [HostProgram.run, hignored n m hm.paired.left.executing] at h
    have hlogged : D.Paired true (m.log .warn "nested exec ignored")
        (m'.log .warn "nested exec ignored") := by
      refine ⟨?_, hm.paired.left.stirs (stirs_log ..), hm.paired.right.stirs (stirs_log ..)⟩
      rw [← log_view, ← log_view, hm.paired.view]
    simp only [HostProgram.run, hignored n' m' hm.paired.right.executing]
    exact ih _ _ hlogged.view hlogged.left.consistent.strings hlogged.right.consistent.strings
      (hobeys _) (hobeys' _) ⟨hlogged, hm.face, hm.left, hm.right⟩ h

end

/-! ## Instructions -/

section

variable {L : Lens} {V V' : Vantage} (h : m.view L V = m'.view L V') (ht : V.face t = V'.face t')
  (op : Opcode) (operands : List Word)
include h

/-- Threads that show the same start the same scripts for their results. -/
theorem resultCall?_congr (ht : V.face t = V'.face t') :
    resultCall? op operands m t = resultCall? op operands m' t' := by
  have hargs := takeArgs_of_face ht (operands.headD 0)
  have hname : ∀ i, m.nameOf? i = m'.nameOf? i := fun i => by
    rw [← nameOf?_view (L := L) (V := V), h, nameOf?_view]
  cases op with
  | callFunc =>
    simp only [resultCall?, hargs, settings_of_view h, builtins_of_view h, hname]
  | _ => rfl

/-- Machines that show the same call the same host functions. -/
theorem hostCall?_congr : hostCall? op operands m = hostCall? op operands m' := by
  cases op with
  | callFunc => simp only [hostCall?, settings_of_view h, hostFuncs_of_view h]
  | _ => rfl

end

/-- Two machines as one instruction leaves them. -/
theorem Joined.acts {p p' q q' : Machine × Thread} (hp : D.Joined scope p p')
    (h : Acts (HostRule D.leftSources) p.1 p.2 q.1 q.2)
    (h' : Acts (HostRule D.rightSources) p'.1 p'.2 q'.1 q'.2)
    (hshown : D.left.shown D.lens q = D.right.shown D.lens q') : D.Joined scope q q' := by
  obtain ⟨hview, hface⟩ := Prod.mk.inj hshown
  obtain ⟨hleft, hhome⟩ := hp.paired.left.acts h
  obtain ⟨hright, hhome'⟩ := hp.paired.right.acts h'
  exact ⟨⟨hview, hleft, hright⟩, hface, hhome scope hp.left, hhome' scope hp.right⟩

/-- **An instruction** does the same on both sides. -/
theorem follows_step {module module' : LoadedModule} {op : Opcode} {operands : List Word} {waits : Bool}
    (hturn : D.TurnsFollow n n') (hmodule : module.recast (fun _ => 0) = module'.recast fun _ => 0)
    (hs : D.Sees t.scope.global) (hp : D.Joined scope (m, t) (m', t'))
    (hfair : ∀ c ∈ stepCalls (turnCalls D.host n) op operands m t, D.Fair c)
    (h : step D.host (turn D.host n) (execWith (turn D.host n) n) module op operands m t =
      some (m₁, t₁, waits)) :
    ∃ m₁' t₁', step D.host (turn D.host n') (execWith (turn D.host n') n') module' op operands m' t' =
        some (m₁', t₁', waits) ∧ D.Joined scope (m₁, t₁) (m₁', t₁') := by
  have hview := hp.paired.view
  have hface := hp.face
  have hscope := scope_of_face hface
  have hargs := takeArgs_of_face hface (operands.headD 0)
  have hrest : D.left.face (t.takeArgs (operands.headD 0)).2 =
      D.right.face (t'.takeArgs (operands.headD 0)).2 :=
    congrArg (fun x : Thread => (x.takeArgs (operands.headD 0)).2) hface
  -- what an instruction leaves is kept on either side
  have hjoined : ∀ {m₁' t₁'}, step D.host (turn D.host n') (execWith (turn D.host n') n') module' op
      operands m' t' = some (m₁', t₁', waits) →
      D.left.shown D.lens (m₁, t₁) = D.right.shown D.lens (m₁', t₁') →
      D.Joined scope (m₁, t₁) (m₁', t₁') := fun h' hshown =>
    hp.acts
      (acts_step (acts_turn D.obeysLeft tame_hostRule) D.obeysLeft tame_hostRule stirs_execWith
        hp.paired.left.executing h)
      (acts_step (acts_turn D.obeysRight tame_hostRule) D.obeysRight tame_hostRule stirs_execWith
        hp.paired.right.executing h') hshown
  cases hhost : hostCall? op operands m with
  | some key =>
    have hsteady : D.host.Steady D.lens D.left D.right :=
      hfair ⟨t.scope, .host key⟩ (by simp [stepCalls, callee?_of_hostCall? hhost])
    rw [step_of_host hhost, hargs] at h
    rw [step_of_host ((hostCall?_congr hview op operands).symm.trans hhost)]
    have hmoved : D.Joined scope (m, (t.takeArgs (operands.headD 0)).2)
        (m', (t'.takeArgs (operands.headD 0)).2) :=
      ⟨hp.paired, hrest, ⟨hp.left.past, hp.left.home⟩, ⟨hp.right.past, hp.right.home⟩⟩
    have hshown : D.left.shown D.lens (m, (t.takeArgs (operands.headD 0)).2) =
        D.right.shown D.lens (m', (t'.takeArgs (operands.headD 0)).2) := Prod.ext hview hrest
    exact follows_program hturn hsteady
      (hsteady.agrees _ _ _ _ _ _ hshown hp.paired.left.consistent.strings
        hp.paired.right.consistent.strings) (D.obeysLeft ..) (D.obeysRight ..) hmoved h
  | none =>
    cases hcall : resultCall? op operands m t with
    | some p =>
      have hcall' := (resultCall?_congr hview op operands hface).symm.trans hcall
      have hinfo : t.info = t'.info := by
        have hinfo := congrArg Thread.info hface
        exact hinfo
      rw [step_of_some hcall] at h
      obtain ⟨⟨r, m₂⟩, hstart, heq⟩ := Option.map_eq_some_iff.1 h
      cases heq
      obtain ⟨m₂', hstart', hm₂⟩ := follows_startResult hturn hs hp.paired
        (fun c hc => hfair c (by
          rw [stepCalls, hcall]
          exact List.mem_append_right _ hc)) hstart
      have hstep' : step D.host (turn D.host n') (execWith (turn D.host n') n') module' op operands m' t' =
          some (m₂', (t'.takeArgs (operands.headD 0)).2.push (r.getD 0), false) := by
        rw [step_of_some hcall', ← hscope, ← hinfo, hstart', Option.map_some]
      exact ⟨_, _, hstep', hjoined hstep'
        (Prod.ext hm₂.view (congrArg (Thread.push · (r.getD 0)) hrest))⟩
    | none =>
      have hrandom : callee? op operands m = some (.builtin .random) → m.rng = m'.rng := by
        intro hcallee
        have hfair := hfair ⟨t.scope, .builtin .random⟩ (by simp [stepCalls, hcallee])
        have hseed : D.lens.seed m.rng = D.lens.seed m'.rng := by
          have hseed := congrArg Machine.rng hview
          exact hseed
        exact hfair rfl hseed
      have hboth := step_congr hview hface hs.1 hs.2 D.host (turn D.host n)
        (execWith (turn D.host n) n) hmodule hcall hhost hrandom
      have hcall' := (resultCall?_congr hview op operands hface).symm.trans hcall
      have hhost' := (hostCall?_congr hview op operands).symm.trans hhost
      rw [h, Option.map_some, step_of_none D.host D.host (turn D.host n) (turn D.host n')
        (execWith (turn D.host n) n) (execWith (turn D.host n') n') hcall'
        fun key hkey => absurd (hhost'.symm.trans hkey) (by rintro ⟨⟩)] at hboth
      obtain ⟨⟨m₁', t₁', waits'⟩, h', hshown⟩ := Option.map_eq_some_iff.1 hboth.symm
      obtain ⟨hmachine, hthread⟩ := Prod.mk.inj hshown.symm
      obtain ⟨hthread, rfl⟩ := Prod.mk.inj hthread
      exact ⟨m₁', t₁', h', hjoined h' (Prod.ext hmachine hthread)⟩

/-! ## Turns -/

/-- Kills keep in step. -/
theorem follows_kill {limit : KillReason} {data : Word} (hp : D.Joined scope (m, t) (m', t')) :
    D.Joined scope (m.kill t limit data) (m'.kill t' limit data) := by
  have hkill : ∀ {sources} (m : Machine) (t : Thread), Acts (HostRule sources) m t
      (m.kill t limit data).1 (m.kill t limit data).2 := fun m t =>
    Acts.trans (.stir (stirs_kill t limit data)) (.proceed (proceeds_setState t (by decide)))
  refine hp.acts (hkill m t) (hkill m' t') ?_
  have hleft := kill_view (L := D.lens) (V := D.left) m t limit data
  have hright := kill_view (L := D.lens) (V := D.right) m' t' limit data
  rw [← hleft, ← hright, hp.paired.view, hp.face]

/-- The modules of threads that show the same. -/
theorem module_of_face {V V' : Vantage} (h : V.face t = V'.face t') :
    t.module.map (LoadedModule.recast fun _ => 0) = t'.module.map (LoadedModule.recast fun _ => 0) := by
  have hmodule := congrArg Thread.module h
  exact hmodule

/-- Turns keep in step where their loops do. -/
theorem turnsFollow_of_loop
    (hloop : ∀ {scope limit module module' m m' t t' q}, D.Sees t.scope.global →
      module.recast (fun _ => 0) = module'.recast (fun _ => 0) → D.Joined scope (m, t) (m', t') →
      (∀ c ∈ loopCalls D.host n limit 0 module m t, D.Fair c) →
      loop D.host n limit 0 module m t = some q →
      ∃ q', loop D.host n' limit 0 module' m' t' = some q' ∧ D.Joined scope q q') :
    D.TurnsFollow n n' := by
  rintro scope ⟨m, t⟩ ⟨m', t'⟩ q hs hp hfair h
  have hmodules : t.module.map (LoadedModule.recast fun _ => 0) =
    t'.module.map (LoadedModule.recast fun _ => 0) := module_of_face hp.face
  have hsettings : m.settings = m'.settings := settings_of_view hp.paired.view
  simp only [turn, turnWith] at h ⊢
  simp only [turnCalls, turnCallsWith] at hfair
  split at h
  · rename_i hmodule
    cases h
    have hmodule' : t'.module = none := by
      rw [hmodule] at hmodules
      exact Option.map_eq_none_iff.1 hmodules.symm
    refine ⟨(m', { t' with state := .stopped }), by simp only [hmodule'], ?_⟩
    exact hp.acts (q := (m, { t with state := .stopped })) (.proceed (proceeds_setState t (by decide)))
      (.proceed (proceeds_setState t' (by decide)))
      (Prod.ext hp.paired.view (congrArg (fun x : Thread => { x with state := .stopped }) hp.face))
  · rename_i module hmodule
    rw [hmodule, Option.map_some] at hmodules
    rw [hmodule] at hfair
    obtain ⟨module', hmodule', heq⟩ := Option.map_eq_some_iff.1 hmodules.symm
    have hhome : t.scope = scope := hp.left.home (by simp [isPlaceholder, hmodule])
    simp only [hmodule', ← hsettings]
    exact hloop (hhome ▸ hs) heq.symm hp hfair h

/-- The loop of a turn, with more fuel on the right side. -/
theorem follows_loop {limit count : Word} {module module' : LoadedModule} {q : Machine × Thread}
    (hle : n ≤ n') (hmodule : module.recast (fun _ => 0) = module'.recast fun _ => 0)
    (hs : D.Sees t.scope.global) (hp : D.Joined scope (m, t) (m', t'))
    (hfair : ∀ c ∈ loopCalls D.host n limit count module m t, D.Fair c)
    (h : loop D.host n limit count module m t = some q) :
    ∃ q', loop D.host n' limit count module' m' t' = some q' ∧ D.Joined scope q q' := by
  induction n generalizing n' limit count module module' m t m' t' q scope with
  | zero => cases h
  | succ n ih =>
    obtain ⟨n', rfl⟩ : ∃ k, n' = k + 1 := ⟨n' - 1, by omega⟩
    have hturn : D.TurnsFollow n n' := turnsFollow_of_loop fun hs hmodule hp hfair h =>
      ih (Nat.le_of_succ_le_succ hle) hmodule hs hp hfair h
    have hstate : t.state = t'.state := by
      have hstate := congrArg Thread.state hp.face
      exact hstate
    have hdelay : t.delay = t'.delay := by
      have hdelay := congrArg Thread.delay hp.face
      exact hdelay
    have hptr : t.codePtr = t'.codePtr := by
      have hptr := congrArg Thread.codePtr hp.face
      exact hptr
    have hcode : module.code = module'.code := by
      have hcode := congrArg (fun x : LoadedModule => x.code) hmodule
      exact hcode
    have hends : (t'.state != .running || t'.delay != 0) = (t.state != .running || t.delay != 0) := by
      rw [hstate, hdelay]
    have hfetched : fetchAt module'.code t'.codePtr = fetchAt module.code t.codePtr := by
      rw [hcode, hptr]
    unfold loop at h ⊢
    unfold loopCalls at hfair
    rw [hends, hfetched]
    split at h
    · rename_i hstop
      cases h
      exact ⟨_, if_pos hstop, hp⟩
    · rename_i hstop
      rw [if_neg hstop] at hfair ⊢
      split at h
      · rename_i hlimit
        cases h
        exact ⟨_, if_pos hlimit, follows_kill hp⟩
      · rename_i hlimit
        rw [if_neg hlimit] at hfair ⊢
        split at h
        · cases h
          exact ⟨_, rfl, follows_kill hp⟩
        · rename_i op operands hfetch
          simp only [hfetch] at h hfair ⊢
          have hu : D.Joined scope (m, { t with codePtr := t.codePtr + 1 + op.arity })
              (m', { t' with codePtr := t'.codePtr + 1 + op.arity }) :=
            ⟨hp.paired, congrArg (fun x : Thread => { x with codePtr := x.codePtr + 1 + op.arity }) hp.face,
              ⟨hp.left.past, hp.left.home⟩, ⟨hp.right.past, hp.right.home⟩⟩
          have hs : D.Sees { t with codePtr := t.codePtr + 1 + op.arity }.scope.global := hs
          generalize { t with codePtr := t.codePtr + 1 + op.arity } = u at h hfair hu hs
          generalize { t' with codePtr := t'.codePtr + 1 + op.arity } = u' at hu ⊢
          cases hfirst : step D.host (turnWith (loop D.host n)) (execWith (turnWith (loop D.host n)) n)
            module op operands m u with
          | none =>
            rw [hfirst] at h
            cases h
          | some r =>
            obtain ⟨m₁, t₁, waits⟩ := r
            obtain ⟨m₁', t₁', hfirst', hnext⟩ := follows_step hturn hmodule hs hu
              (fun c hc => hfair c (List.mem_append_left _ hc)) hfirst
            have hacts := acts_step (acts_turn D.obeysLeft tame_hostRule) D.obeysLeft tame_hostRule
              stirs_execWith hp.paired.left.executing hfirst
            have hscope : t₁.scope = u.scope := hacts.goes.thread.1.scope
            rw [turn] at hfirst'
            rw [hfirst] at h hfair
            rw [hfirst']
            cases waits with
            | true =>
              cases h
              exact ⟨_, rfl, hnext⟩
            | false =>
              exact ih (Nat.le_of_succ_le_succ hle) hmodule (hscope ▸ hs) hnext
                (fun c hc => hfair c (List.mem_append_right _ hc)) h

/-- **Turns keep in step.** -/
theorem turnsFollow (hle : n ≤ n') : D.TurnsFollow n n' :=
  turnsFollow_of_loop fun hs hmodule hp hfair h => follows_loop hle hmodule hs hp hfair h

/-! ## Visits -/

/-- Both sides tell which threads had their turn in the current tick. -/
structure Timed (D : Duo) : Prop where
  left : D.left.told = true
  right : D.right.told = true
  leftPos : 0 < D.left.now
  rightPos : 0 < D.right.now

section

variable {i j k k' : Nat} (htimed : D.Timed) (hs : D.Sees scope.global) (hle : n ≤ n')
include htimed hs hle

/-- **A visit** does the same on both sides. -/
theorem follows_visit {v : Visit} (hm : D.Paired true m m')
    (hfair : ∀ c ∈ m.visitCalls D.host n scope i j, D.Fair c)
    (h : m.visit (turn D.host n) scope i j = some (v, m₁)) :
    ∃ m₁', m'.visit (turn D.host n') scope i j = some (v, m₁') ∧ D.Paired true m₁ m₁' := by
  have hleft : D.left.Tells m := ⟨htimed.left, htimed.leftPos, hm.left.tick⟩
  have hright : D.right.Tells m' := ⟨htimed.right, htimed.rightPos, hm.right.tick⟩
  have hvisited : (m.visitedTurn? scope i j).map (D.left.shown D.lens) =
      (m'.visitedTurn? scope i j).map (D.right.shown D.lens) := by
    rw [← visitedTurn?_view hs.1 hleft, hm.view, visitedTurn?_view hs.2 hright]
  -- what a visit leaves is kept on either side
  have hpaired : ∀ {m₁'}, m'.visit (turn D.host n') scope i j = some (v, m₁') →
      m₁.view D.lens D.left = m₁'.view D.lens D.right → D.Paired true m₁ m₁' := fun h' hview =>
    ⟨hview, hm.left.ticks (ticks_visit (acts_turn D.obeysLeft tame_hostRule) hm.left.executing h),
      hm.right.ticks (ticks_visit (acts_turn D.obeysRight tame_hostRule) hm.right.executing h')⟩
  cases hp : m.visitedTurn? scope i j with
  | none =>
    have hp' : m'.visitedTurn? scope i j = none := by
      rw [hp] at hvisited
      exact Option.map_eq_none_iff.1 hvisited.symm
    have hview : (m.visit (turn D.host n) scope i j).map (fun q => (q.1, q.2.view D.lens D.left)) =
        (m'.visit (turn D.host n') scope i j).map fun q => (q.1, q.2.view D.lens D.right) := by
      rw [← visit_view hs.1 hleft hp, hm.view, visit_view hs.2 hright hp',
        visit_of_none hp' _ (turn D.host n')]
    rw [h, Option.map_some] at hview
    obtain ⟨⟨v', m₁'⟩, h', heq⟩ := Option.map_eq_some_iff.1 hview.symm
    obtain ⟨rfl, heq⟩ := Prod.mk.inj heq
    exact ⟨m₁', h', hpaired h' heq.symm⟩
  | some p =>
    rw [hp, Option.map_some] at hvisited
    obtain ⟨p', hp', hshown⟩ := Option.map_eq_some_iff.1 hvisited.symm
    obtain ⟨hview, hface⟩ := Prod.mk.inj hshown.symm
    obtain ⟨hkept, hhome⟩ := hm.left.visited hp
    obtain ⟨hkept', hhome'⟩ := hm.right.visited hp'
    have hrest := h
    rw [visit_of_some hp] at hrest
    obtain ⟨q, hrun, heq⟩ := Option.map_eq_some_iff.1 hrest
    cases heq
    rw [visitCalls, hp] at hfair
    obtain ⟨q', hrun', hq⟩ := follows_runDetached (turnsFollow hle) hs
      ⟨⟨hview, hkept, hkept'⟩, hface, hhome, hhome'⟩ hfair hrun
    have h' : m'.visit (turn D.host n') scope i j = some (.next, q'.1.reattach scope i q'.2) := by
      rw [visit_of_some hp', hrun', Option.map_some]
    refine ⟨_, h', hpaired h' ?_⟩
    rw [← reattach_view _ hs.1, ← reattach_view _ hs.2, hq.face, hq.paired.view]

/-- The visits to the threads of a module scope keep in step. -/
theorem follows_visitThreads (hk : k ≤ k') (hm : D.Paired true m m')
    (hfair : ∀ c ∈ threadCalls D.host n scope i k j m, D.Fair c)
    (h : visitThreads (turn D.host n) scope i k j m = some m₁) :
    ∃ m₁', visitThreads (turn D.host n') scope i k' j m' = some m₁' ∧ D.Paired true m₁ m₁' := by
  induction k generalizing k' j m m' with
  | zero => cases h
  | succ k ih =>
    obtain ⟨k', rfl⟩ : ∃ l, k' = l + 1 := ⟨k' - 1, by omega⟩
    unfold visitThreads at h ⊢
    unfold threadCalls at hfair
    cases hvisit : m.visit (turn D.host n) scope i j with
    | none =>
      rw [hvisit] at h
      cases h
    | some r =>
      obtain ⟨v, m₂⟩ := r
      obtain ⟨m₂', hvisit', hm₂⟩ := follows_visit htimed hs hle hm
        (fun c hc => hfair c (List.mem_append_left _ hc)) hvisit
      simp only [hvisit] at h hfair
      rw [hvisit']
      cases v with
      | finished =>
        cases h
        exact ⟨m₂', rfl, hm₂⟩
      | removed =>
        exact ih (Nat.le_of_succ_le_succ hk) hm₂ (fun c hc => hfair c (List.mem_append_right _ hc)) h
      | next =>
        exact ih (Nat.le_of_succ_le_succ hk) hm₂ (fun c hc => hfair c (List.mem_append_right _ hc)) h

/-- **A map** is visited alike on both sides. -/
theorem follows_visitModules (hk : k ≤ k') (hm : D.Paired true m m')
    (hfair : ∀ c ∈ moduleCalls D.host n scope k i m, D.Fair c)
    (h : visitModules (turn D.host n) scope k i m = some m₁) :
    ∃ m₁', visitModules (turn D.host n') scope k' i m' = some m₁' ∧ D.Paired true m₁ m₁' := by
  induction k generalizing k' i m m' with
  | zero => cases h
  | succ k ih =>
    obtain ⟨k', rfl⟩ : ∃ l, k' = l + 1 := ⟨k' - 1, by omega⟩
    have hmaps : (m.scopes.map? scope).map (MapScope.recast (fun _ => 0) D.left.stamp) =
        (m'.scopes.map? scope).map (MapScope.recast (fun _ => 0) D.right.stamp) := by
      rw [← map?_view (L := D.lens) m hs.1, hm.view, map?_view m' hs.2]
    unfold visitModules at h ⊢
    unfold moduleCalls at hfair
    cases hmap : m.scopes.map? scope with
    | none =>
      rw [hmap] at h hmaps
      cases h
      rw [Option.map_eq_none_iff.1 hmaps.symm]
      exact ⟨m', rfl, hm⟩
    | some map =>
      rw [hmap, Option.map_some] at hmaps
      obtain ⟨map', hmap', heq⟩ := Option.map_eq_some_iff.1 hmaps.symm
      have hlength : map'.modules.length = map.modules.length := by
        have hlength := congrArg (fun x : MapScope => x.modules.length) heq
        simpa [MapScope.recast] using hlength
      simp only [hmap] at h hfair
      simp only [hmap', hlength]
      split at h
      · rename_i hlt
        rw [if_pos hlt] at hfair ⊢
        cases hthreads : visitThreads (turn D.host n) scope i k 0 m with
        | none =>
          rw [hthreads] at h
          cases h
        | some m₂ =>
          obtain ⟨m₂', hthreads', hm₂⟩ := follows_visitThreads htimed hs hle (Nat.le_of_succ_le_succ hk) hm
            (fun c hc => hfair c (List.mem_append_left _ hc)) hthreads
          simp only [hthreads] at h hfair
          rw [hthreads']
          exact ih (Nat.le_of_succ_le_succ hk) hm₂ (fun c hc => hfair c (List.mem_append_right _ hc)) h
      · rename_i hlt
        cases h
        exact ⟨m', if_neg hlt, hm⟩

end

end Duo

end ScriptMachine
