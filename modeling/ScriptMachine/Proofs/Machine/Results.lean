import ScriptMachine.Proofs.Machine.InnerTurns

/-!
# Results of scripts

A script that is started for its result has its turn at once, and what is answered is read off the thread
as that turn ends.  While the thread runs it can be stopped by its name, which it holds, and by a start by
force.  Then the stop is kept by its placeholder, and the thread learns of it when it is put back.  But for
that, the answer tells a thread that has ended from one that goes on (`Managed.result_tells`).
-/

namespace ScriptMachine

namespace Moment

open Machine Thread

variable {occasion : Occasion} {home : ScopeId} {x y z : Moment} {m : Machine} {s : Seat} {p : Thread}

/-- A thread is stopped while it is out of the tree: by its name, which it holds, or because its script is
started by force. -/
inductive StopsOut (s : Seat) : Moment → Moment → Prop
  | named {m : Machine} {ds : List Detached} {name : ScriptName} {p : Thread}
      (hsit : m.sitter? s = some p) (hplace : p.isPlaceholder = true)
      (hreach : m.Reaches s.scope name s p) :
    StopsOut s ⟨m, ds⟩ ⟨m.comply s.scope (.halt name false), ds⟩
  | forced {m : Machine} {ds : List Detached} {j : Nat} {args : List Word} {info : ThreadInfo} {p : Thread}
      (hheld : m.HeldBy s.scope s.moduleIndex j p) (hplace : p.isPlaceholder = true) :
    StopsOut s ⟨m, ds⟩ ⟨m.comply s.scope (.start s.moduleIndex j args info true), ds⟩

/-- On the way from `x` to `y` the thread of the seat is stopped while it is out of the tree. -/
def StoppedOut (occasion : Occasion) (s : Seat) (x y : Moment) : Prop :=
  ∃ a b, Course occasion s.scope x a ∧ StopsOut s a b ∧ Course occasion s.scope b y

/-- A stretch of a course may be longer at both ends. -/
theorem StoppedOut.mono {x' y' : Moment} (h : StoppedOut occasion s x y)
    (hbefore : Course occasion s.scope x' x) (hafter : Course occasion s.scope y y') :
    StoppedOut occasion s x' y' := by
  obtain ⟨a, b, ha, hstop, hb⟩ := h
  exact ⟨a, b, hbefore.trans ha, hstop, hb.trans hafter⟩

/-- **One beat** of a start takes no placeholder out of the tree. -/
theorem Pace.real_out (h : Pace .start home x y) (hx : ∀ d ∈ x.out, d.thread.isPlaceholder = false) :
    ∀ d ∈ y.out, d.thread.isPlaceholder = false := by
  obtain ⟨hbeat, hordered, hfresh⟩ := h
  cases hbeat with
  | work => exact hx
  | perform hperforms =>
    intro d hd
    rcases List.mem_cons.1 hd with rfl | hd
    · exact hperforms.same.isPlaceholder_eq.trans (hx _ List.mem_cons_self)
    · exact hx d (List.mem_cons_of_mem _ hd)
  | ask => exact hx
  | @result m ds u v map place scope i j args info takesName hmap hplace hv hname hu hid =>
    -- the thread whose turn begins is the new one
    obtain ⟨rfl, -⟩ := hordered.started hmap hplace hv hname hu hid hfresh
    have hreal : u.isPlaceholder = false := by
      obtain ⟨script, -, rfl⟩ := Option.map_eq_some_iff.1 hv
      rfl
    intro d hd
    rcases List.mem_cons.1 hd with rfl | hd
    · exact hreal
    · exact hx d hd
  | back m d ds => exact fun e he => hx e (List.mem_cons_of_mem _ he)
  | rest hoccasion => cases hoccasion
  | clock _ _ _ hoccasion => cases hoccasion
  | reap hoccasion => cases hoccasion
  | wait hoccasion => cases hoccasion
  | visit hoccasion => cases hoccasion

/-- The seat is kept by a placeholder that was not asked to stop, the thread was stopped while it was out,
or it is in the tree again. -/
def Kept (s : Seat) (x y : Moment) : Prop :=
  (∃ p, y.machine.sitter? s = some p ∧ p.isPlaceholder = true ∧ p.state ≠ .stopped) ∨
    StoppedOut .start s x y ∨ ∃ t, y.machine.sitter? s = some t ∧ t.isPlaceholder = false

/-- What was told the placeholder is kept along one pace. -/
theorem Pace.kept (h : Pace .start s.scope y z) (hcourse : Course .start s.scope x y)
    (hs : y.machine.Known s) (hout : ∀ d ∈ y.out, d.thread.isPlaceholder = false) (hy : Kept s x y) :
    Kept s x z := by
  have hlast : Course .start s.scope y z := .single h
  rcases hy with ⟨p, hp, hplace, hstate⟩ | hstopped | ⟨t, ht, hreal⟩
  · rcases h.fate hs nofun with heq | ⟨t, ht, hfate⟩
    · exact .inl ⟨p, heq.trans hp, hplace, hstate⟩
    cases hp.symm.trans ht
    cases hfate with
    | resumed _ _ hsit => exact .inl ⟨_, hsit, hplace, (by decide : ThreadState.running ≠ .stopped)⟩
    | replaced hheld _ _ => exact .inr (.inl ⟨_, _, hcourse, .forced hheld hplace, .refl⟩)
    | @halted m ds name pause hreach hsit =>
      cases pause with
      | true => exact .inl ⟨_, hsit, hplace, (by decide : ThreadState.paused ≠ .stopped)⟩
      | false => exact .inr (.inl ⟨_, _, hcourse, .named hp hplace hreach, .refl⟩)
    | @returned m d ds _ hsit =>
      refine .inr (.inr ⟨_, hsit, ?_⟩)
      exact (same_settled d.thread p.state).isPlaceholder_eq.trans (hout d List.mem_cons_self)
    | reaped hoccasion => cases hoccasion
    | lowered hoccasion => cases hoccasion
    | entered hoccasion => cases hoccasion
  · exact .inr (.inl (hstopped.mono .refl hlast))
  · refine .inr (.inr ?_)
    rcases h.fate hs nofun with heq | ⟨t', ht', hfate⟩
    · exact ⟨t, heq.trans ht, hreal⟩
    cases ht.symm.trans ht'
    cases hfate with
    | resumed _ _ hsit => exact ⟨_, hsit, hreal⟩
    | replaced _ _ hsit => exact ⟨_, hsit, hreal⟩
    | halted _ hsit => exact ⟨_, hsit, hreal⟩
    | returned hplace => cases hreal.symm.trans hplace
    | reaped hoccasion => cases hoccasion
    | lowered hoccasion => cases hoccasion
    | entered hoccasion => cases hoccasion

/-- **A placeholder that was asked to stop**, in what follows a start, was asked to stop there. -/
theorem Course.stoppedOut (h : Course .start s.scope x y) (hs : x.machine.Known s)
    (hout : ∀ d ∈ x.out, d.thread.isPlaceholder = false) (hx : x.machine.sitter? s = some p)
    (hstate : p.isPlaceholder = true ∧ p.state ≠ .stopped) {p' : Thread} (hp' : y.machine.sitter? s = some p')
    (hplace : p'.isPlaceholder = true) (hstopped : p'.state = .stopped) : StoppedOut .start s x y := by
  have hall : Course .start s.scope x y ∧ y.machine.Known s ∧
      (∀ d ∈ y.out, d.thread.isPlaceholder = false) ∧ Kept s x y := by
    clear hp'
    induction h with
    | refl => exact ⟨.refl, hs, hout, .inl ⟨p, hx, hstate⟩⟩
    | tail _ hpace ih =>
      obtain ⟨hcourse, hknown, hreal, hkept⟩ := ih
      exact ⟨hcourse.tail hpace, hpace.known nofun hknown, hpace.real_out hreal,
        hpace.kept hcourse hknown hreal hkept⟩
  rcases hall.2.2.2 with ⟨q, hq, -, hne⟩ | hevent | ⟨t, ht, hreal⟩
  · cases hp'.symm.trans hq
    exact absurd hstopped hne
  · exact hevent
  · cases hp'.symm.trans ht
    cases hplace.symm.trans hreal

end Moment

namespace Machine

open Thread Moment

variable {k : Nat} {n n' : Machine} {scope : ScopeId} {name : ScriptName}
  {args : List Word} {info : ThreadInfo} {r : Option Word} {s : Seat} {p t : Thread} {slot : ScriptSlot}

/-- A script is started for its result: by the host, or by a script within any turn that the host has a
thread given. -/
inductive StartsResult :
    Nat → Machine → ScopeId → ScriptName → List Word → ThreadInfo → Prop
  | host {k m scope name args info} (hm : Managed m) : StartsResult k m scope name args info
  | script {fuel m service k n u k' count x op operands n₁ u₁ p} (hm : Managed m)
      (hturn : HasTurn fuel m service k n u) (hd : Dispatches k n u k' count x op operands n₁ u₁)
      (hcall : resultCall? op operands n₁ (u₁.behind op) = some p) :
    StartsResult k' n₁ u₁.scope p.1 p.2 u₁.info

/-- A script is started for its result where names and threads are in order. -/
theorem StartsResult.ordered (h : StartsResult k n scope name args info) (hfresh : ¬ n.Exhausted) :
    n.Ordered := by
  cases h with
  | host hm => exact hm.ordered hfresh
  | @script fuel m service k n u k' count x op operands n₁ u₁ p hm hturn hd hcall =>
    have hacts : Acts Never n u _ u₁ := hd.plays.acts
    exact (hacts.orderly (hturn.begun hm fun he => hfresh (he.mono hacts.trace)).ordered hfresh).1

/-- Without a stop a thread that has not ended goes on. -/
theorem state_settled (hend : t.state.isFinished = false) (hstate : p.state ≠ .stopped) :
    (settled t p.state).state.isFinished = false := by
  unfold settled
  split
  · rename_i hstopped
    exact absurd hstopped hstate
  · rw [if_neg (by simp [hend])]
    rfl
  · exact hend

/-- A thread that has ended is put back as it is. -/
theorem settled_stopped (hstopped : t.state = .stopped) (asked : ThreadState) :
    (settled t asked).state = .stopped ∧ (settled t asked).result = t.result := by
  unfold settled
  split
  · exact ⟨rfl, rfl⟩
  · rw [if_pos (by rw [hstopped]; rfl)]
    exact ⟨hstopped, rfl⟩
  · exact ⟨hstopped, rfl⟩

/-- While a thread that is started for its result runs, its placeholder learns what is asked of it. -/
theorem Ordered.startResult_course (hm : n.Ordered) {q : Machine × Thread}
    (hstarted : n.startedTurn? scope name args info = some q)
    (h : n.startResult (turn quietHost k) scope name args info = some (r, n')) (hfresh : ¬ n'.Exhausted)
    {n₂ : Machine} {u : Thread} (hturn : turn quietHost k (q.1.noting q.2) q.2 = some (n₂, u))
    (hp : n₂.sitter? q.2.seat = some p) (hplace : p.isPlaceholder = true) (hstopped : p.state = .stopped) :
    StoppedOut .start q.2.seat ⟨n, []⟩ ⟨n', []⟩ := by
  obtain ⟨map, place, v, u₀, i, j, takesName, hmap, hmodule, hv, hname, hu, hid, hq, hresult⟩ :=
    exists_started hstarted
  rw [hresult] at h
  obtain ⟨⟨m₂, u₂⟩, hrun, heq⟩ := Option.map_eq_some_iff.1 h
  cases heq
  have hplays := plays_runDetached plays_turn hrun
  have hacts : Acts Never q.1 q.2 m₂ u₂ := hplays.acts
  have hfresh₂ : ¬ m₂.Exhausted := fun he =>
    hfresh (he.mono (trace_reattach { m₂ with executing := n.executing } scope i u₂))
  have hfreshq : ¬ q.1.Exhausted := fun he => hfresh₂ (he.mono hacts.trace)
  have hbegun := (hm.begun_started hstarted hfreshq).1
  -- the turn begins, and the thread is put back when it is over
  have hfirst : Pace .start q.2.seat.scope ⟨n, []⟩ ⟨q.1, [⟨q.2, scope, i, n.executing⟩]⟩ := by
    refine ⟨?_, hm, hfreshq⟩
    rw [hq]
    exact .result hmap hmodule hv hname hu hid
  have hmiddle : Course .start q.2.seat.scope ⟨q.1, [⟨q.2, scope, i, n.executing⟩]⟩
      ⟨m₂, [⟨u₂, scope, i, n.executing⟩]⟩ :=
    course_of_plays hplays hbegun.ordered hfresh₂ ⟨u₂, scope, i, n.executing⟩ []
  have hlast : Pace .start q.2.seat.scope ⟨m₂, [⟨u₂, scope, i, n.executing⟩]⟩ ⟨_, []⟩ :=
    ⟨.back m₂ _ _, (hacts.orderly hbegun.ordered hfresh₂).1, hfresh⟩
  have hp₂ : m₂.sitter? q.2.seat = some p := by
    obtain ⟨y, hturn', heq⟩ := Option.map_eq_some_iff.1 hrun
    cases hturn.symm.trans hturn'
    cases heq
    exact hp
  have hout : ∀ d ∈ [(⟨q.2, scope, i, n.executing⟩ : Detached)], d.thread.isPlaceholder = false := by
    intro d hd
    rw [List.mem_singleton.1 hd]
    exact hbegun.real
  refine (hmiddle.stoppedOut hbegun.known hout hbegun.vacant ⟨rfl, ?_⟩ hp₂ hplace
    hstopped).mono (.single hfirst) (.single hlast)
  exact (by decide : ThreadState.running ≠ .stopped)

/-- **The answer of a start for a result** tells a thread that has ended from one that goes on.  A script
that can be found gets a new thread, which is in the tree when the answer is there.  There is a result just if
the thread has ended, and it is that thread's; and without a result the thread goes on, waits or is paused.
Only a thread that was stopped while it ran, and did not end in its turn, has ended without a result. -/
theorem Managed.result_tells (hstarts : StartsResult k n scope name args info)
    (hslot : n.resolveScript? scope name = some slot)
    (h : n.startResult (turn quietHost k) scope name args info = some (r, n')) (hfresh : ¬ n'.Exhausted) :
    ∃ s t, s.scope = scope ∧ s.moduleIndex = slot.moduleIndex ∧ ¬ n.Known s ∧ n'.sitter? s = some t ∧
      t.isPlaceholder = false ∧ t.scriptIndex = slot.scriptIndex ∧
      (((∀ w, r = some w ↔ t.state = .stopped ∧ t.result = w) ∧
          (r = none → t.state.isFinished = false)) ∨
        r = none ∧ t.state = .stopped ∧ StoppedOut .start s ⟨n, []⟩ ⟨n', []⟩) := by
  have hm : n.Ordered := hstarts.ordered fun he => hfresh (he.mono
    (acts_startResult (t := default) (acts_turn (obeys_quietHost Never) tame_never) h).trace)
  obtain ⟨map, place, v, hmap, -, hv, -, -, hstarted⟩ := hm.startedTurn?_eq hslot args info
  obtain ⟨hbegun, -, n₂, u, p, hturn, hfresh₂, -, hp, hplace, hsit, rfl⟩ :=
    hm.startResult_turn hstarted h hfresh
  obtain ⟨-, -, hseat, hreal, -⟩ := hbegun.noting.over hturn hfresh₂
  have hplays := plays_turn hturn
  have hacts : Acts Never _ _ n₂ u := hplays.acts
  obtain ⟨-, -, hproceeds⟩ := hacts.orderly hbegun.noting.ordered hfresh₂
  have hnew : v.seat = ⟨scope, slot.moduleIndex, map.nextThreadId⟩ ∧ v.state = .running ∧
      v.scriptIndex = slot.scriptIndex := by
    obtain ⟨script, -, rfl⟩ := Option.map_eq_some_iff.1 hv
    exact ⟨rfl, rfl, rfl⟩
  have hown : u.seat = ⟨scope, slot.moduleIndex, map.nextThreadId⟩ := hseat.trans hnew.1
  have hscript : u.scriptIndex = slot.scriptIndex := hplays.same.scriptIndex.trans hnew.2.2
  have hsame := same_settled u p.state
  refine ⟨u.seat, settled u p.state, congrArg Seat.scope hown, congrArg Seat.moduleIndex hown, ?_, hsit,
    hsame.isPlaceholder_eq.trans hreal, hsame.scriptIndex.trans hscript, ?_⟩
  · rw [hown]
    rintro ⟨map', hmap', hlt⟩
    cases hmap.symm.trans hmap'
    exact UInt32.lt_irrefl _ hlt
  by_cases hend : u.state = .stopped
  · obtain ⟨hstopped, hresult⟩ := settled_stopped hend p.state
    rw [if_pos hend]
    refine .inl ⟨fun w => ?_, fun hnone => absurd hnone (Option.some_ne_none _)⟩
    rw [Option.some.injEq, hresult]
    exact ⟨fun hw => ⟨hstopped, hw⟩, fun hw => hw.2⟩
  · have hlive : u.state.isFinished = false := by
      have hinactive : u.state ≠ .inactive := fun hinactive =>
        absurd (hnew.2.1.symm.trans (hproceeds.inactive hinactive)) (by decide)
      revert hend hinactive
      cases u.state <;> simp [ThreadState.isFinished]
    rw [if_neg hend]
    by_cases hstopped : p.state = .stopped
    · refine .inr ⟨rfl, by rw [hstopped]; rfl, ?_⟩
      rw [hseat] at hp ⊢
      exact hm.startResult_course hstarted h hfresh hturn hp hplace hstopped
    · have hgoes := state_settled hlive hstopped
      refine .inl ⟨fun w => ⟨fun hw => absurd hw.symm (Option.some_ne_none w), fun hw => ?_⟩,
        fun _ => hgoes⟩
      rw [hw.1] at hgoes
      cases hgoes

/-- Another instance of a script falls asleep.  It gives no result, and it goes on. -/
theorem Managed.result_tells_asleep :
    StartsResult 9 startedMachine {} (.number 1) [] {} ∧
      ∃ n', startedMachine.startResult (turn quietHost 9) {} (.number 1) [] {} = some (none, n') ∧
        ¬ n'.Exhausted ∧ ∃ s t, n'.sitter? s = some t ∧ ¬ startedMachine.Known s ∧
          t.state.isFinished = false := by
  obtain ⟨hslot, hview⟩ : (startedMachine.resolveScript? {} (.number 1)).map (·.moduleIndex) = some 0 ∧
      (startedMachine.startResult (turn quietHost 9) {} (.number 1) [] {}).map (fun q =>
        (q.1, q.2.trace.all fun e => logEnd? e != some '5', (q.2.threadsAt {} 0).map (·.state))) =
          some (none, true, [.running, .running]) := by decide +kernel
  obtain ⟨⟨r, n'⟩, hstart, heq⟩ := Option.map_eq_some_iff.1 hview
  obtain ⟨rfl, hlast, hstates⟩ : r = none ∧ (n'.trace.all fun e => logEnd? e != some '5') = true ∧
      (n'.threadsAt {} 0).map (·.state) = [.running, .running] := by
    simpa only [Prod.mk.injEq] using heq
  obtain ⟨slot, hslot, hmodule⟩ := Option.map_eq_some_iff.1 hslot
  have hfresh : ¬ n'.Exhausted :=
    not_exhausted_of_logEnd? fun e he => bne_iff_ne.1 (List.all_eq_true.1 hlast e he)
  have hstarts : StartsResult 9 startedMachine {} (.number 1) [] {} :=
    .host managed_startedMachine
  obtain ⟨s, t, hscope, hindex, hnew, hsit, -⟩ :=
    Managed.result_tells hstarts hslot hstart hfresh
  have hrunning : t.state = .running := by
    have hmem := List.mem_map_of_mem (f := (·.state)) (mem_of_sitter? hsit).1
    rw [hscope, hindex, hmodule, hstates] at hmem
    simpa using hmem
  have hgoes : t.state.isFinished = false := by rw [hrunning]; rfl
  exact ⟨hstarts, n', hstart, hfresh, s, t, hsit, hnew, hgoes⟩

end Machine

end ScriptMachine
