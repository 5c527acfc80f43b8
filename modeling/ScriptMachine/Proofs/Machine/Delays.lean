import ScriptMachine.Proofs.Machine.InnerTurns
import ScriptMachine.Proofs.Machine.Reloading

/-!
# Delays count ticks

An instruction that asks for a delay ends the turn of its thread, and from then on the thread is as it was
but for its delay.  What the host does between ticks leaves the delay alone, a tick in which the thread runs
when it is visited takes one from it, and one that brings it to 0 gives the thread its next turn, at the
instruction after the delay.  Other ticks leave the delay alone, and so do saving and loading.
-/

namespace ScriptMachine

namespace Thread

variable {t t' u : Thread}

/-- The thread is as it was but for its delay, its state, and what goes with the machine that it is in: the
number of its module and the tick that is noted. -/
structure Dozes (t t' : Thread) : Prop where
  module : t'.module.map (·.toModule) = t.module.map (·.toModule)
  rest : t' = { t with module := t'.module, delay := t'.delay, state := t'.state, lastTick := t'.lastTick }

theorem Dozes.refl (t : Thread) : t.Dozes t := ⟨rfl, rfl⟩

theorem Dozes.trans (h : t.Dozes t') (h' : t'.Dozes u) : t.Dozes u := by
  refine ⟨h'.module.trans h.module, ?_⟩
  rw [h'.rest, h.rest]

/-- A thread with another state dozes on. -/
theorem Restates.dozes (h : t.Restates t') : t.Dozes t' := by
  rcases h with rfl | ⟨state, -, rfl⟩
  · exact .refl _
  · exact ⟨rfl, rfl⟩

/-- Waking up from a delay leaves what dozing leaves. -/
theorem dozes_awake (t : Thread) (tick : Nat) : t.Dozes (t.awake tick) := ⟨rfl, rfl⟩

theorem dozes_recast (σ : ModuleName → Nat) (g : Nat → Nat) (t : Thread) : t.Dozes (t.recast σ g) := by
  refine ⟨?_, rfl⟩
  rw [recast, Option.map_map]
  rfl

/-- A word with a count is not the word 0. -/
theorem ne_zero_of_toNat {w : Word} (h : w.toNat ≠ 0) : w ≠ 0 := by
  rintro rfl
  exact h rfl

/-- Of a delay that is not over one is taken. -/
theorem toNat_delay_awake (hdelay : t.delay ≠ 0) (tick : Nat) :
    (t.awake tick).delay.toNat = t.delay.toNat - 1 := by
  have hle : (1 : Word) ≤ t.delay := by
    have hpos : t.delay.toNat ≠ 0 := fun hzero => hdelay (UInt32.toNat_inj.1 hzero)
    rw [UInt32.le_iff_toNat_le]
    exact Nat.one_le_iff_ne_zero.2 hpos
  have hmin : min t.delay 1 = 1 := by
    by_cases hone : t.delay ≤ 1
    · rw [UInt32.le_antisymm hone hle]
      rfl
    · exact if_neg hone
  rw [awake, hmin, UInt32.toNat_sub_of_le _ _ hle]
  rfl

end Thread

namespace Machine

open Thread Moment

variable {fuel k : Nat} {limit count count' : Word} {x : LoadedModule} {op op' : Opcode}
  {operands operands' : List Word} {m m' m₁ n : Machine} {t t' t₁ u : Thread} {s : Seat} {w : Word}

/-! ## Instructions that ask for delays -/

/-- The delay that an instruction asks for, and the thread that is to have it. -/
def delayAsked? (op : Opcode) (operands : List Word) (t : Thread) : Option (Word × Thread) :=
  match op with
  | .delay => some t.pop
  | .delayLit => some (operands.headD 0, t)
  | _ => none

/-- The instruction sets the delay and lets the thread go on. -/
theorem step_of_delay {host : Host} {turn : Turn} {exec : Machine → Option Machine}
    (h : delayAsked? op operands t = some (w, t')) :
    step host turn exec x op operands m t = some (m, { t' with delay := w }, false) := by
  cases op with
  | delay =>
    have hpop : t.pop = (w, t') := Option.some.inj h
    simp only [step, hpop]
  | delayLit =>
    cases h
    rfl
  | _ => cases h

/-- Asking for a delay moves neither the thread nor its state. -/
theorem delayAsked?_same (h : delayAsked? op operands t = some (w, t')) :
    t'.codePtr = t.codePtr ∧ t'.state = t.state := by
  cases op with
  | delay =>
    obtain rfl : t.pop.2 = t' := congrArg Prod.snd (Option.some.inj h)
    unfold pop
    split <;> exact ⟨rfl, rfl⟩
  | delayLit =>
    cases h
    exact ⟨rfl, rfl⟩
  | _ => cases h

/-- An instruction after which the thread goes on is followed by the next one in the same turn. -/
theorem Dispatches.next (h : Dispatches fuel m t (k + 1) count x op operands n u)
    (hstep : step quietHost (turn quietHost (k + 1)) (execWith (turn quietHost (k + 1)) (k + 1)) x op
      operands n (u.behind op) = some (m₁, t₁, false))
    (hstate : t₁.state = .running) (hdelay : t₁.delay = 0)
    (hmore : m.settings.branchLimit = 0 ∨ count + 1 < m.settings.branchLimit)
    (hfetch : fetchAt x.code t₁.codePtr = .ok (op', operands')) :
    Dispatches fuel m t k (if m.settings.branchLimit = 0 then count else count + 1) x op' operands' m₁
      t₁ where
  module := h.module
  passes := h.passes.snoc h.running h.awake h.more h.fetch hstep
  running := hstate
  awake := hdelay
  more := by
    rcases hmore with hzero | hlt
    · exact .inl hzero
    · split
      · exact .inl ‹_›
      · exact .inr hlt
  fetch := hfetch

/-! ## Machines at rest -/

/-- Between what the host does no script runs. -/
theorem Managed.rest (h : Managed m) : m.executing = false := by
  induction h with
  | make settings => rfl
  | @handle occasion m m' _ hdo ih =>
    cases hdo with
    | deed hdeed => exact hdeed.advances.executing.trans ih
    | @exec _ _ fuel _ hexec =>
      have hran : m.exec quietHost fuel = some m' := hexec quietHost
      rw [Machine.exec, execWith, if_neg (by simp [ih])] at hran
      obtain ⟨m₁, -, rfl⟩ := Option.map_eq_some_iff.1 hran
      rfl
    | startResult _ hstart => exact (startResult_executing (hstart quietHost)).trans ih
  | load _ _ htakes _ => exact htakes.elim
  | reload _ _ _ hload _ _ _ => exact rest_of_load hload

/-- What the host has scripts do keeps a machine managed. -/
theorem Managed.service {service : Service} {r : Option Word} (hm : Managed m)
    (hrun : ∀ host, service.run host fuel m = some (r, m')) : Managed m' := by
  cases service with
  | tick =>
    have hexec : ∀ host, m.exec host fuel = some m' := fun host => by
      obtain ⟨m₁, hexec, heq⟩ := Option.map_eq_some_iff.1 (hrun host)
      cases heq
      exact hexec
    exact hm.exec hexec
  | start scope name args info => exact .handle hm (.startResult trivial hrun)

/-! ## What leaves delays alone -/

/-- **What the host does between ticks** changes no more of a thread than its state. -/
theorem restates_of_undertakes {occasion : Occasion} (hdo : Undertakes occasion m m')
    (hoccasion : occasion ≠ .tick) (hm : Managed m) (hfresh : ¬ m'.Exhausted)
    (hsit : m.sitter? s = some t) (hstays : (m'.sitter? s).isSome = true) :
    ∃ t', m'.sitter? s = some t' ∧ t.Restates t' := by
  have hfresh₀ : ¬ m.Exhausted := fun he => hfresh (he.mono hdo.trace)
  have hreal : t.isPlaceholder = false := (hm.filled hfresh₀).real_of_sitter? hsit
  have hkept : (m'.scopes.map? s.scope).isSome = true := by
    obtain ⟨t', ht'⟩ := Option.isSome_iff_exists.1 hstays
    obtain ⟨map, -, hmap, -⟩ := exists_threadsAt (mem_of_sitter? ht').1
    rw [hmap]
    rfl
  have hcourse : Course occasion s.scope ⟨m, []⟩ ⟨m', []⟩ := Undertakes.course hdo hm hfresh fun _ => hkept
  refine hcourse.keeps (P := fun y => ∃ t', y.machine.sitter? s = some t' ∧ t.Restates t') ?_
    ⟨t, hsit, .refl t⟩
  rintro y z hpace ⟨u, hu, hrestates⟩
  rcases hpace.fate (hpace.ordered.known_of_sitter? hu) fun _ => rfl with heq | ⟨u', hu', hfate⟩
  · exact ⟨u, heq.trans hu, hrestates⟩
  cases hu.symm.trans hu'
  have hstate : ∀ state, state ≠ .inactive → t.Restates { u with state } := fun state hne =>
    hrestates.trans (.inr ⟨state, hne, rfl⟩)
  cases hfate with
  | resumed _ _ hsit => exact ⟨_, hsit, hstate _ (by decide)⟩
  | replaced _ _ hsit => exact ⟨_, hsit, hstate _ (by decide)⟩
  | @halted _ _ _ pause _ hsit => exact ⟨_, hsit, hstate _ (haltState_ne_inactive pause)⟩
  | returned hplace =>
    have hreal' := hrestates.same.isPlaceholder_eq.trans hreal
    cases hreal'.symm.trans hplace
  | reaped htick => exact absurd htick hoccasion
  | lowered htick => exact absurd htick hoccasion
  | entered htick => exact absurd htick hoccasion

/-- A thread that is visited is in an active map. -/
theorem Managed.active_of_visit {y : Visiting} (hm : Managed m) (hexec : m.exec quietHost fuel = some m')
    (hfresh : ¬ m'.Exhausted) (hy : y ∈ m.tickVisits quietHost fuel) (hseat : y.seat? = some s) :
    m.scopes.isActive s.scope = true := by
  obtain ⟨m₁, hwalk, rfl⟩ := walk_exec hm.rest hexec
  have hfresh₁ : ¬ m₁.Exhausted := hfresh
  have hbegun := hm.underway fun he => hfresh₁ (he.mono (hwalk.trace rfl))
  obtain ⟨before, after, hsplit⟩ := List.append_of_mem hy
  rw [hsplit] at hwalk
  obtain ⟨a, hfirst, hlater⟩ := hwalk.exists_of_append
  obtain rfl : a = y.machine := by
    cases hlater
    rfl
  have hfreshy : ¬ y.machine.Exhausted := fun he => hfresh₁ (he.mono (hlater.trace (hfirst.busy rfl)))
  obtain ⟨u, hu, rfl⟩ := Visiting.seat?_eq_some.1 hseat
  have hshape := (hfirst.bypasses hbegun hfreshy).2.1
  exact (ScopeTree.isActive_eq_of_shape hshape y.scope).symm.trans (Visiting.thread?_eq_some.1 hu).1

/-- A thread that a tick comes to has its visit there. -/
theorem Managed.attended_by {y : Visiting} (hm : Managed m) (hexec : m.exec quietHost fuel = some m')
    (hfresh : ¬ m'.Exhausted) (hsit : m.sitter? s = some t) (hy : y ∈ m.tickVisits quietHost fuel)
    (hseat : y.seat? = some s) : ∃ before after u b, Attends fuel s t m before y after u b m' := by
  obtain ⟨before, x, after, u, b, hat⟩ := hm.attended hm.rest hexec hfresh hsit
    (hm.active_of_visit hexec hfresh hy hseat)
  rw [hat.visits] at hy
  rcases List.mem_append.1 hy with hy | hy
  · exact absurd hseat (hat.once y (List.mem_append_left _ hy))
  rcases List.mem_cons.1 hy with rfl | hy
  · exact ⟨before, after, u, b, hat⟩
  · exact absurd hseat (hat.once y (List.mem_append_right _ hy))

/-- After a visit that gives no turn a thread changes no more than its state. -/
theorem Attends.turnless {before after : List Visiting} {y : Visiting} {b : Machine} {v : Thread}
    (hat : Attends fuel s t m before y after u b m') (hnone : y.turn? = none)
    (hleft : ∀ w, b.sitter? s = some w → v.Restates w) :
    s ∉ entries (m.tickMarks quietHost fuel) ∧ ∀ t', m'.sitter? s = some t' → v.Restates t' := by
  refine ⟨fun hentered => ?_, fun t' ht' => ?_⟩
  · obtain ⟨p, hp⟩ := hat.entered.1 hentered
    cases hnone.symm.trans hp
  · have hstays := hat.stays
    rw [ht'] at hstays
    generalize hb : b.sitter? s = w at hstays
    cases hstays with
    | some hr => exact (hleft _ hb).trans hr

/-- A thread that a tick does not visit changes no more than its state, and it has no turn. -/
theorem Managed.bypassed (hm : Managed m) (hexec : m.exec quietHost fuel = some m')
    (hfresh : ¬ m'.Exhausted) (hsit : m.sitter? s = some t)
    (hnot : ∀ y ∈ m.tickVisits quietHost fuel, y.seat? ≠ some s) :
    s ∉ entries (m.tickMarks quietHost fuel) ∧ ∀ t', m'.sitter? s = some t' → t.Restates t' := by
  obtain ⟨m₁, hwalk, rfl⟩ := walk_exec hm.rest hexec
  have hfresh₁ : ¬ m₁.Exhausted := hfresh
  have hfresh₀ : ¬ m.Exhausted := fun he => hfresh₁ (he.mono (hwalk.trace rfl))
  have hknown : m.begun.Known s := (hm.ordered hfresh₀).known_of_sitter? hsit
  obtain ⟨-, hrel, hentries⟩ := (hwalk.bypasses (hm.underway hfresh₀) hfresh₁).2.2 s hknown hnot
  rw [tickMarks_eq]
  refine ⟨hentries, fun t' ht' => ?_⟩
  have hsit₀ : m.begun.sitter? s = some t := hsit
  have hsit₁ : m₁.sitter? s = some t' := ht'
  rw [hsit₀, hsit₁] at hrel
  cases hrel with
  | some hr => exact hr

/-! ## Ticks -/

/-- The tick counts for the delay of the thread in the seat: it runs when it is visited. -/
def Counts (fuel : Nat) (m : Machine) (s : Seat) : Prop :=
  ∃ y ∈ m.tickVisits quietHost fuel, y.seat? = some s ∧ ∃ u, y.thread? = some u ∧ u.state = .running

/-- No thread is visited that waits and sleeps at once. -/
theorem Managed.calm_visit {before after : List Visiting} {y : Visiting} {b : Machine}
    (hm : Managed m) (hat : Attends fuel s t m before y after u b m') (hfresh : ¬ m'.Exhausted) :
    u.Calm := by
  obtain ⟨hfresh₀, hfreshy, -⟩ := hat.fresh hfresh
  have hcalm₀ : CalmAt s.scope m := calmAt_of_managed hm hfresh₀
  have hbegun : CalmAt s.scope m.begun := hcalm₀
  have hcourse : Course .tick s.scope ⟨m.begun, []⟩ ⟨y.machine, []⟩ :=
    hat.walkBefore.course (hm.underway hfresh₀) hfreshy
  have hcalm := hcourse.calm ⟨hbegun, fun d hd => absurd hd List.not_mem_nil⟩
  obtain ⟨u', hu', rfl⟩ := Visiting.seat?_eq_some.1 hat.seat
  cases hat.thread.symm.trans hu'
  exact hcalm y.moduleIndex u (List.mem_of_getElem? (Visiting.thread?_eq_some.1 hu').2)

/-- **A tick that does not count** leaves the delay of a thread alone, and gives it no turn. -/
theorem Managed.idle_tick (hm : Managed m) (hexec : ∀ host, m.exec host fuel = some m')
    (hfresh : ¬ m'.Exhausted) (hsit : m.sitter? s = some t) (hdelay : t.delay ≠ 0)
    (hidle : ¬ Counts fuel m s) :
    s ∉ entries (m.tickMarks quietHost fuel) ∧ ∀ t', m'.sitter? s = some t' → t.Restates t' := by
  by_cases hvisited : ∃ y ∈ m.tickVisits quietHost fuel, y.seat? = some s
  swap
  · exact hm.bypassed (hexec quietHost) hfresh hsit fun y hy hseat => hvisited ⟨y, hy, hseat⟩
  obtain ⟨y, hy, hseat⟩ := hvisited
  obtain ⟨before, after, u, b, hat⟩ := hm.attended_by (hexec quietHost) hfresh hsit hy hseat
  obtain ⟨v, hrun⟩ := hat.run
  -- the thread does not run, and it does not wait either
  have hwaits : (y.machine.isRunnable y.scope u.state).1 = false := by
    have hstate : u.state ≠ .running := fun hrunning => hidle ⟨y, hy, hseat, u, hat.thread, hrunning⟩
    have hawake : u.state.isWait = false := by
      rw [← Bool.not_eq_true]
      intro hwait
      exact hdelay (hat.restates.delay_eq.symm.trans (hm.calm_visit hat hfresh hwait))
    revert hstate hawake
    cases u.state <;> simp [isRunnable, ThreadState.isWait]
  obtain ⟨u', hu', hseen, -⟩ := sitter?_of_seat? hat.underway hseat
  cases hat.thread.symm.trans hu'
  rcases Visiting.run_cases hat.thread hrun with ⟨-, rfl, hnone⟩ | ⟨-, ⟨-, -, hscopes, hnone⟩ |
    ⟨hrunnable, -⟩⟩
  · refine hat.turnless hnone fun w hw => ?_
    obtain ⟨u', hu', rfl⟩ := Visiting.seat?_eq_some.1 hseat
    cases hat.thread.symm.trans hu'
    rw [hat.underway.ordered.distinct.sitter?_reap (Visiting.thread?_eq_some.1 hu').2, if_pos rfl] at hw
    cases hw
  · refine hat.turnless hnone fun w hw => ?_
    rw [sitter?, threadsAt_congr hscopes] at hw
    cases hseen.symm.trans hw
    exact hat.restates
  · cases hwaits.symm.trans hrunnable

/-- **A tick that counts** takes one from the delay of a thread.  The thread has a turn in it just if nothing
of the delay is left. -/
theorem Managed.counted_tick (hm : Managed m) (hexec : ∀ host, m.exec host fuel = some m')
    (hfresh : ¬ m'.Exhausted) (hsit : m.sitter? s = some t) (hdelay : t.delay ≠ 0)
    (hcounts : Counts fuel m s) :
    (1 < t.delay.toNat → s ∉ entries (m.tickMarks quietHost fuel) ∧ ∀ t', m'.sitter? s = some t' →
        t.Dozes t' ∧ t'.delay.toNat = t.delay.toNat - 1) ∧
      (t.delay.toNat = 1 → s ∈ entries (m.tickMarks quietHost fuel) ∧ ∃ y ∈ m.tickVisits quietHost fuel,
        y.seat? = some s ∧ ∃ n v, y.turn? = some (n, v) ∧ t.Dozes v ∧ v.state = .running ∧ v.delay = 0) := by
  obtain ⟨y, hy, hseat, u₀, hu₀, hrunning⟩ := hcounts
  obtain ⟨before, after, u, b, hat⟩ := hm.attended_by (hexec quietHost) hfresh hsit hy hseat
  obtain rfl : u = u₀ := Option.some.inj (hat.thread.symm.trans hu₀)
  obtain ⟨v, hrun⟩ := hat.run
  have hlowered := toNat_delay_awake (t := u) (by rwa [hat.restates.delay_eq]) y.machine.tick
  rw [hat.restates.delay_eq] at hlowered
  have hdozes : t.Dozes (u.awake y.machine.tick) := hat.restates.dozes.trans (dozes_awake u _)
  rcases Visiting.run_cases hat.thread hrun with ⟨hend, -⟩ | ⟨-, ⟨hkept, -⟩ | ⟨-, -, m₀, -, hscopes, hrest⟩⟩
  · rw [hrunning] at hend
    cases hend
  · refine absurd ⟨?_, hat.unspent⟩ hkept
    rw [hrunning]
    rfl
  rcases hrest with ⟨hmore, hnone, rfl⟩ | ⟨hover, hturn⟩
  · -- some of the delay is left
    have hmore : 0 < (u.awake y.machine.tick).delay.toNat := UInt32.lt_iff_toNat_lt.1 hmore
    refine ⟨fun _ => ?_, fun hone => by omega⟩
    obtain ⟨hentered, hrestates⟩ := hat.turnless (v := u.awake y.machine.tick) hnone fun w hw => by
      obtain ⟨u', hu', rfl⟩ := Visiting.seat?_eq_some.1 hseat
      cases hat.thread.symm.trans hu'
      have hat₀ : (m₀.threadsAt y.scope y.moduleIndex)[y.index]? = some u := by
        rw [threadsAt_congr hscopes]
        exact (Visiting.thread?_eq_some.1 hat.thread).2
      have hm₀ : m₀.Ordered := hat.underway.ordered.of_scopes hscopes
      rw [hm₀.distinct.sitter?_modifyThreadAt hat₀ (t := u.awake y.machine.tick) rfl, if_pos rfl] at hw
      cases hw
      exact .refl _
    refine ⟨hentered, fun t' ht' => ?_⟩
    have hr := hrestates t' ht'
    exact ⟨hdozes.trans hr.dozes, (congrArg UInt32.toNat hr.delay_eq).trans hlowered⟩
  · have hover : (u.awake y.machine.tick).delay.toNat = 0 := congrArg UInt32.toNat hover
    refine ⟨fun hmore => by omega, fun _ => ⟨hat.entered.2 ⟨_, hturn⟩, y, hy, hseat, _, _, hturn, hdozes,
      rfl, ?_⟩⟩
    exact UInt32.toNat_inj.1 hover

/-! ## Histories -/

/-- A seat is taken by the loaded thread of the saved one. -/
theorem sitter?_recast {σ : ModuleName → Nat} {g : Nat → Nat} (h : m'.scopes = m.scopes.recast σ g)
    (s : Seat) : m'.sitter? s = (m.sitter? s).map (Thread.recast σ g) := by
  rw [sitter?, sitter?, threadsAt, threadsAt, h, ScopeTree.module?_recast]
  cases m.scopes.module? s.scope s.moduleIndex with
  | none => rfl
  | some place => exact ModuleScope.thread?_recast σ g place s.id

/-- What the host does with a machine, and with those that its saved states are loaded into, while the thread
in the seat is there.  So many of the ticks count for the delay of that thread. -/
inductive Elapses (s : Seat) (m : Machine) : Nat → Machine → Prop
  | refl : Elapses s m 0 m
  | aside {j : Nat} {occasion : Occasion} {m' m'' : Machine} (h : Elapses s m j m')
      (hoccasion : occasion ≠ .tick) (hdo : Undertakes occasion m' m'') (hfresh : ¬ m''.Exhausted)
      (hstays : (m''.sitter? s).isSome = true) : Elapses s m j m''
  | counted {j fuel : Nat} {m' m'' : Machine} (h : Elapses s m j m')
      (hexec : ∀ host, m'.exec host fuel = some m'') (hcounts : Counts fuel m' s)
      (hfresh : ¬ m''.Exhausted) (hstays : (m''.sitter? s).isSome = true) : Elapses s m (j + 1) m''
  | idle {j fuel : Nat} {m' m'' : Machine} (h : Elapses s m j m')
      (hexec : ∀ host, m'.exec host fuel = some m'') (hidle : ¬ Counts fuel m' s)
      (hfresh : ¬ m''.Exhausted) (hstays : (m''.sitter? s).isSome = true) : Elapses s m j m''
  | reload {j : Nat} {X Y Y' : Machine} {bytes tail rest : Bytes} (h : Elapses s m j X) (hY : Managed Y)
      (hsave : X.save.1 = .ok bytes) (hload : Y.load (bytes ++ tail) = (.ok rest, Y'))
      (hreturns : Returns X Y) (hfresh : ¬ Y'.Exhausted) : Elapses s m j Y'

/-- **Of a delay as much is left** as ticks that count are still to come. -/
theorem Elapses.dozes {j : Nat} (h : Elapses s m j m') (hm : Managed m) (hfresh : ¬ m.Exhausted)
    (hsit : m.sitter? s = some t) (hlt : j < t.delay.toNat) : Managed m' ∧ ¬ m'.Exhausted ∧
      ∃ t', m'.sitter? s = some t' ∧ t.Dozes t' ∧ t'.delay.toNat = t.delay.toNat - j := by
  induction h with
  | refl => exact ⟨hm, hfresh, t, hsit, .refl t, rfl⟩
  | aside _ hoccasion hdo hfresh' hstays ih =>
    obtain ⟨hm', -, u, hu, hdozes, hdelay⟩ := ih hlt
    obtain ⟨u', hu', hr⟩ := restates_of_undertakes hdo hoccasion hm' hfresh' hu hstays
    exact ⟨.handle hm' hdo, hfresh', u', hu', hdozes.trans hr.dozes,
      (congrArg UInt32.toNat hr.delay_eq).trans hdelay⟩
  | @counted j fuel m' m'' _ hexec hcounts hfresh' hstays ih =>
    obtain ⟨hm', -, u, hu, hdozes, hdelay⟩ := ih (by omega)
    have hne : u.delay ≠ 0 := ne_zero_of_toNat (by omega)
    obtain ⟨u', hu'⟩ := Option.isSome_iff_exists.1 hstays
    obtain ⟨hdozes', hdelay'⟩ :=
      ((hm'.counted_tick hexec hfresh' hu hne hcounts).1 (by omega)).2 u' hu'
    exact ⟨hm'.exec hexec, hfresh', u', hu', hdozes.trans hdozes', by omega⟩
  | @idle j fuel m' m'' _ hexec hidle hfresh' hstays ih =>
    obtain ⟨hm', -, u, hu, hdozes, hdelay⟩ := ih hlt
    have hne : u.delay ≠ 0 := ne_zero_of_toNat (by omega)
    obtain ⟨u', hu'⟩ := Option.isSome_iff_exists.1 hstays
    have hr := (hm'.idle_tick hexec hfresh' hu hne hidle).2 u' hu'
    exact ⟨hm'.exec hexec, hfresh', u', hu', hdozes.trans hr.dozes,
      (congrArg UInt32.toNat hr.delay_eq).trans hdelay⟩
  | reload _ hY hsave hload hreturns hfresh' ih =>
    obtain ⟨hX, -, u, hu, hdozes, hdelay⟩ := ih hlt
    have hscopes := hreturns.scopes_load hX.coherent hsave hload
    exact ⟨.reload hX hY hsave hload hreturns, hfresh', _,
      (sitter?_recast hscopes s).trans (by rw [hu, Option.map_some]), hdozes.trans (dozes_recast ..), hdelay⟩

/-- **Delays count ticks exactly.**  Let an instruction ask for a delay, in any turn that the host has a thread
given.  If the delay is 0 then the next instruction is carried out in the same turn.  If it is not then the
turn ends, and once the host has the machine again, so many ticks count for the delay as it says: while they
last the thread is as it was, without a turn, and in the last of them it has a turn that begins at the next
instruction.  The ticks that do not count give it no turn, and saved states are no exception. -/
theorem Managed.delays_exactly {service : Service} {k' : Nat} {n₁ : Machine} {u₁ u₂ : Thread}
    (hm : Managed m) {r : Option Word} (hrun : ∀ host, service.run host fuel m = some (r, m'))
    (hfresh : ¬ m'.Exhausted)
    (hturn : HasTurn fuel m service k n u) (hd : Dispatches k n u k' count x op operands n₁ u₁)
    (hask : delayAsked? op operands (u₁.behind op) = some (w, u₂)) :
    u₂.codePtr = u₁.codePtr + 1 + op.arity ∧
    (w = 0 → ∀ l op' operands', k' = l + 1 →
      (n.settings.branchLimit = 0 ∨ count + 1 < n.settings.branchLimit) →
      fetchAt x.code u₂.codePtr = .ok (op', operands') →
      Dispatches k n u l (if n.settings.branchLimit = 0 then count else count + 1) x op' operands' n₁
        { u₂ with delay := 0 }) ∧
    (w ≠ 0 → turn quietHost k n u = some (n₁, { u₂ with delay := w }) ∧
      ∀ t, m'.sitter? u.seat = some t → ∀ j m'', Elapses u.seat m' j m'' → j < w.toNat →
        (∃ t', m''.sitter? u.seat = some t' ∧ u₂.Dozes t' ∧ t'.delay.toNat = w.toNat - j) ∧
        ∀ fuel m₃, (∀ host, m''.exec host fuel = some m₃) → ¬ m₃.Exhausted →
          (Counts fuel m'' u.seat →
            (j + 1 < w.toNat → u.seat ∉ entries (m''.tickMarks quietHost fuel)) ∧
            (j + 1 = w.toNat → u.seat ∈ entries (m''.tickMarks quietHost fuel) ∧
              ∃ y ∈ m''.tickVisits quietHost fuel, y.seat? = some u.seat ∧
                ∃ q v, y.turn? = some (q, v) ∧ u₂.Dozes v ∧ v.state = .running ∧ v.delay = 0)) ∧
          (¬ Counts fuel m'' u.seat → u.seat ∉ entries (m''.tickMarks quietHost fuel))) := by
  have hstep : ∀ turn exec, step quietHost turn exec x op operands n₁ (u₁.behind op) =
      some (n₁, { u₂ with delay := w }, false) := fun _ _ => step_of_delay hask
  have hpopped : u₂.codePtr = u₁.codePtr + 1 + op.arity ∧ u₂.state = .running := by
    obtain ⟨hcode, hstate⟩ := delayAsked?_same hask
    exact ⟨hcode, hstate.trans hd.running⟩
  refine ⟨hpopped.1, fun hzero l op' operands' hk hmore hfetch => ?_, fun hne => ?_⟩
  · subst hzero hk
    exact hd.next (hstep _ _) hpopped.2 rfl hmore hfetch
  obtain ⟨-, n', u', hends, -, -, hsits⟩ := hturn.ends hm hm.rest (hrun quietHost) hfresh
  -- the turn ends at the delay
  obtain ⟨rfl, rfl⟩ : n' = n₁ ∧ u' = { u₂ with delay := w } := by
    rw [hd.turn_eq, hstep] at hends
    cases k' with
    | zero => cases hends
    | succ l =>
      dsimp only at hends
      rw [loop_of_blocked (.inr hne)] at hends
      cases hends
      exact ⟨rfl, rfl⟩
  refine ⟨hends, fun t ht j m'' helapses hlt => ?_⟩
  have hr : Thread.Restates { u₂ with delay := w } t := hsits t ht
  have hasleep : u₂.Dozes { u₂ with delay := w } := ⟨rfl, rfl⟩
  have hdozes := hasleep.trans hr.dozes
  have hdelay : t.delay.toNat = w.toNat := congrArg UInt32.toNat hr.delay_eq
  obtain ⟨hm'', hfresh'', t', ht', hdozes', hleft⟩ :=
    helapses.dozes (hm.service hrun) hfresh ht (by omega)
  have hne' : t'.delay ≠ 0 := ne_zero_of_toNat (by omega)
  refine ⟨⟨t', ht', hdozes.trans hdozes', by omega⟩, fun fuel m₃ hexec hfresh₃ =>
    ⟨fun hcounts => ?_, fun hidle => (hm''.idle_tick hexec hfresh₃ ht' hne' hidle).1⟩⟩
  obtain ⟨hmore, hlast⟩ := hm''.counted_tick hexec hfresh₃ ht' hne' hcounts
  refine ⟨fun hj => (hmore (by omega)).1, fun hj => ?_⟩
  obtain ⟨hentered, y, hy, hseat, q, v, hturn', hdozes'', hrunning, hzero⟩ := hlast (by omega)
  exact ⟨hentered, y, hy, hseat, q, v, hturn', (hdozes.trans hdozes').trans hdozes'', hrunning, hzero⟩

/-- The second instruction of a script asks for a delay of 5 ticks.  The turn ends there, and all of the delay
is left after the tick. -/
theorem Managed.delays_exactly_asleep : ∃ p : Machine × Thread, ∃ x n₁ u₁,
    HasTurn 9 startedMachine .tick 9 (p.1.noting p.2) p.2 ∧
    Dispatches 9 (p.1.noting p.2) p.2 7 1 x .delayLit [5] n₁ u₁ ∧
    turn quietHost 9 (p.1.noting p.2) p.2 = some (n₁, { u₁.behind .delayLit with delay := 5 }) ∧
    ∃ t, sleepingMachine.sitter? p.2.seat = some t ∧ t.delay.toNat = 5 := by
  obtain ⟨hlast, hview⟩ : (∀ e ∈ sleepingMachine.trace, logEnd? e ≠ some '5') ∧
      ((startedMachine.tickVisits quietHost 9).head?.bind fun y => y.turn?.bind fun p =>
        p.2.module.bind fun x => (step quietHost (turn quietHost 8) (execWith (turn quietHost 8) 8) x
          .pushLit [0] (p.1.noting p.2) (p.2.behind .pushLit)).map fun q => decide
            ((p.2.state = .running ∧ p.2.delay = 0 ∧ p.1.settings.branchLimit = 65536 ∧
                (fetchAt x.code p.2.codePtr).toOption = some (.pushLit, [0])) ∧
              (q.2.2 = false ∧ q.2.1.state = .running ∧ q.2.1.delay = 0 ∧
                (fetchAt x.code q.2.1.codePtr).toOption = some (.delayLit, [5])) ∧
              (sleepingMachine.sitter? p.2.seat).isSome = true)) = some true := by
    decide +kernel
  have hfresh : ¬ sleepingMachine.Exhausted := not_exhausted_of_logEnd? hlast
  obtain ⟨y, hy, hview⟩ := Option.bind_eq_some_iff.1 hview
  obtain ⟨p, hturn, hview⟩ := Option.bind_eq_some_iff.1 hview
  obtain ⟨x, hmodule, hview⟩ := Option.bind_eq_some_iff.1 hview
  obtain ⟨⟨n₁, u₁, waits⟩, hstep, hview⟩ := Option.map_eq_some_iff.1 hview
  obtain ⟨⟨hstate, hdelay, hlimit, hfetch⟩, ⟨rfl, hstate₁, hdelay₁, hfetch₁⟩, hsome⟩ := of_decide_eq_true hview
  obtain ⟨t, ht⟩ := Option.isSome_iff_exists.1 hsome
  have hhas : HasTurn 9 startedMachine .tick 9 (p.1.noting p.2) p.2 :=
    .visit (List.mem_of_mem_head? hy) hturn .self
  have hdispatches : Dispatches 9 (p.1.noting p.2) p.2 7 1 x .delayLit [5] n₁ u₁ := by
    have hsettings : (p.1.noting p.2).settings.branchLimit = 65536 := hlimit
    refine ⟨hmodule, ?_, hstate₁, hdelay₁, .inr (by rw [hsettings]; decide), eq_ok_of_toOption hfetch₁⟩
    rw [hsettings]
    exact .next hstate hdelay (.inr (by decide)) (eq_ok_of_toOption hfetch) hstep .here
  have hexec : ∀ host, Service.run host 9 startedMachine .tick = some (none, sleepingMachine) := fun host => by
    rw [Service.run, exec_startedMachine]
    rfl
  obtain ⟨-, -, hsleeps⟩ :=
    Managed.delays_exactly managed_startedMachine hexec hfresh hhas hdispatches rfl
  obtain ⟨hends, hlater⟩ := hsleeps (by decide)
  obtain ⟨⟨t', ht', -, hleft⟩, -⟩ := hlater t ht 0 sleepingMachine .refl (by decide)
  exact ⟨p, x, n₁, u₁, hhas, hdispatches, hends, t', ht', hleft⟩

end Machine

end ScriptMachine
