import ScriptMachine.Proofs.Machine.Courses

/-!
# Threads that stay put

A thread in the tree whose seat it keeps through a run is not out of the tree at any moment, and so it
carries out no instruction.  Threads that have ended keep their seats until a tick removes them, threads
that are paused until they are started or ended, and threads that wait until the scheduler lets them go on,
or they are paused or ended (`Managed.threads_stay`).

A stop ends the threads of a script that are in the tree, and the one that holds its name even if that
thread is out of the tree (`Managed.stop_reaches`).
-/

namespace ScriptMachine

/-- A thread that waits has not ended. -/
theorem ThreadState.isFinished_of_isWait {state : ThreadState} (h : state.isWait = true) :
    state.isFinished = false := by
  cases state <;> first | rfl | cases h

/-- Who sits in a seat has a known one. -/
theorem Machine.Ordered.known_of_sitter? {m : Machine} {s : Seat} {t : Thread} (hm : m.Ordered)
    (hsit : m.sitter? s = some t) : m.Known s := by
  obtain ⟨hmem, hid⟩ := mem_of_sitter? hsit
  have hown := hm.known hmem
  rwa [hid] at hown

namespace Moment

open Machine Thread

variable {occasion : Occasion} {home : ScopeId} {x y : Moment} {m m' : Machine} {d : Detached}
  {ds : List Detached} {s : Seat} {t : Thread}

/-! ## Seats of threads that are out -/

/-- Placeholders keep the seats of the threads that are out of the tree, each thread its own. -/
structure Vacated (x : Moment) : Prop where
  kept : ∀ d ∈ x.out, x.machine.Known d.seat ∧
    ∃ p, x.machine.sitter? d.seat = some p ∧ p.isPlaceholder = true
  apart : (x.out.map (·.seat)).Nodup

/-- At rest no thread is out of the tree. -/
theorem vacated_rest (m : Machine) : Vacated ⟨m, []⟩ := ⟨nofun, .nil⟩

/-- What scripts do leaves placeholders where they are. -/
theorem Vacated.stirs (hx : Vacated ⟨m, ds⟩) (h : m.Stirs m') (hm : m.Ordered)
    (hfresh : ¬ m'.Exhausted) : Vacated ⟨m', ds⟩ := by
  have hwidens := (h.orderly hm hfresh).2
  refine ⟨fun d hd => ?_, hx.apart⟩
  obtain ⟨hknown, p, hp, hplace⟩ := hx.kept d hd
  refine ⟨hwidens.known hknown, ?_⟩
  have hrel := hwidens.sitter? hknown
  rw [hp] at hrel
  generalize hsit : m'.sitter? d.seat = r at hrel
  cases hrel with
  | some hr => exact ⟨_, rfl, hr.same.isPlaceholder_eq.trans hplace⟩

/-- A thread is taken out. -/
theorem Vacated.take {scope : ScopeId} {i : Nat} {k : List Thread → Nat} {u u' : Thread} {b : Bool}
    (hx : Vacated ⟨m, ds⟩) (hm : m.Ordered)
    (hu : (m.threadsAt scope i)[k (m.threadsAt scope i)]? = some u) (hid : u'.id = u.id)
    (hnew : ∀ d ∈ ds, d.seat ≠ ⟨scope, i, u.id⟩) :
    Vacated ⟨m.detach scope i k u.id, ⟨u', scope, i, b⟩ :: ds⟩ := by
  have hout := hm.distinct.sitter?_detach (k := k) hu
  have hknown := (rewrites_detach m scope i k u.id).known
  have hseat : Detached.seat ⟨u', scope, i, b⟩ = ⟨scope, i, u.id⟩ := by rw [Detached.seat, hid]
  constructor
  · intro d hd
    rcases List.mem_cons.1 hd with rfl | hd
    · rw [hseat]
      refine ⟨(hknown _).2 (hm.known (List.mem_of_getElem? hu)), placeholder u.id, ?_, rfl⟩
      rw [hout, if_pos rfl, hm.distinct.sitter? hu]
      rfl
    · obtain ⟨hd', p, hp, hplace⟩ := hx.kept d hd
      exact ⟨(hknown _).2 hd', p, (hout _).trans ((if_neg (hnew d hd)).trans hp), hplace⟩
  · refine List.nodup_cons.2 ⟨fun hmem => ?_, hx.apart⟩
    obtain ⟨d, hd, heq⟩ := List.mem_map.1 hmem
    exact hnew d hd (heq.trans hseat)

/-- **One beat** leaves placeholders in the seats of the threads that are out. -/
theorem Pace.vacated (h : Pace occasion home x y) (hx : Vacated x) : Vacated y := by
  obtain ⟨hbeat, hm, hfresh⟩ := h
  cases hbeat with
  | work scope ds hworks => exact hx.stirs hworks.stirs hm hfresh
  | @perform m d ds t' hperforms =>
    have hseat : Detached.seat { d with thread := t' } = d.seat := by
      rw [Detached.seat, Detached.seat, hperforms.same.id]
    refine ⟨fun e he => ?_, ?_⟩
    · rcases List.mem_cons.1 he with rfl | he
      · rw [hseat]
        exact hx.kept d List.mem_cons_self
      · exact hx.kept e (List.mem_cons_of_mem _ he)
    · have hapart := hx.apart
      simp only [List.map_cons, hseat] at hapart ⊢
      exact hapart
  | ask m ds scope q => exact hx.stirs (stirs_comply m scope q) hm hfresh
  | @result m ds u v map place scope i j args info takesName hmap hplace hv hname hu hid =>
    obtain ⟨-, -, hm₁, -⟩ := hm.started hmap hplace hv hname hu hid hfresh
    have hat := getElem?_started hmap hplace hv takesName hu
    have hspawned := hx.stirs (.spawn hmap hplace hv hname) hm hfresh
    have hnew : ∀ e ∈ ds, e.seat ≠ ⟨scope, i, u.id⟩ := by
      intro e he heq
      have hknown := (hx.kept e he).1
      rw [heq, hid, make?_id hv] at hknown
      exact not_known_next hmap i hknown
    generalize hn : (m.spawn scope i j args info takesName).2 = n at hm₁ hat hspawned
    have htaken : Vacated ⟨n.detach scope i (fun ts => ts.findIdx (·.id == u.id)) u.id,
        ⟨{ u with lastTick := n.tick }, scope, i, m.executing⟩ :: ds⟩ :=
      hspawned.take hm₁ hat rfl hnew
    exact ⟨htaken.kept, htaken.apart⟩
  | back m d ds =>
    obtain ⟨hnot, hapart⟩ := List.nodup_cons.1 hx.apart
    refine ⟨fun e he => ?_, hapart⟩
    obtain ⟨hknown, hkept⟩ := hx.kept e (List.mem_cons_of_mem _ he)
    obtain ⟨v, f, -, -, hback⟩ :=
      rewrites_reattach { m with executing := d.executing } d.scope d.moduleIndex d.thread
    refine ⟨(hback.known _).2 hknown, ?_⟩
    rcases sitter?_reattach { m with executing := d.executing } d.scope d.moduleIndex d.thread e.seat with
      heq | ⟨heq, -⟩
    · rw [heq]
      exact hkept
    · exact absurd (List.mem_map.2 ⟨e, he, heq⟩) hnot
  | rest hoccasion hthreads => exact vacated_rest _
  | clock => exact vacated_rest _
  | reap => exact vacated_rest _
  | wait => exact vacated_rest _
  | visit _ hu => exact (vacated_rest _).take hm hu rfl (by rintro _ ⟨⟩)

/-- A thread in the tree is not out of it. -/
theorem Vacated.not_out (hx : Vacated x) (hsit : x.machine.sitter? s = some t)
    (hreal : t.isPlaceholder = false) : ∀ d ∈ x.out, d.seat ≠ s := by
  rintro d hd rfl
  obtain ⟨-, p, hp, hplace⟩ := hx.kept d hd
  cases hp.symm.trans hsit
  rw [hplace] at hreal
  cases hreal

/-! ## Threads that are left alone -/

/-- The thread sits in its seat, and it does not run. -/
def Sits (s : Seat) (t : Thread) (x : Moment) : Prop :=
  x.machine.sitter? s = some t ∧ ∀ d ∈ x.out, d.seat ≠ s

/-- From one moment to a later one the thread keeps its seat, does not run and stays as it is. -/
def Undisturbed (occasion : Occasion) (s : Seat) (t : Thread) (x y : Moment) : Prop :=
  Sits s t x ∧ Relation.ReflTransGen (fun a b => Pace occasion s.scope a b ∧ Sits s t b) x y

/-- An undisturbed thread sits where it sat. -/
theorem Undisturbed.sits (h : Undisturbed occasion s t x y) : Sits s t y := by
  obtain ⟨hx, hcourse⟩ := h
  cases hcourse with
  | refl => exact hx
  | tail _ hlast => exact hlast.2

/-- What leaves a thread undisturbed is part of a course. -/
theorem Undisturbed.course (h : Undisturbed occasion s t x y) : Course occasion s.scope x y :=
  Relation.ReflTransGen.mono (fun _ _ h => h.1) _ _ h.2

/-- **A thread in the tree is left alone**, or something happens to it that changes it. -/
theorem Course.until (h : Course occasion s.scope x y) (hx : Vacated x)
    (hsit : x.machine.sitter? s = some t) (hreal : t.isPlaceholder = false) :
    Undisturbed occasion s t x y ∨ ∃ a b, Undisturbed occasion s t x a ∧ Pace occasion s.scope a b ∧
      Fate occasion s t a b ∧ b.machine.sitter? s ≠ some t ∧ Course occasion s.scope b y := by
  induction h using Relation.ReflTransGen.head_induction_on with
  | refl => exact .inl ⟨⟨hsit, hx.not_out hsit hreal⟩, .refl⟩
  | @head x z hpace hrest ih =>
    have hsits : Sits s t x := ⟨hsit, hx.not_out hsit hreal⟩
    by_cases hsit' : z.machine.sitter? s = some t
    · have hz := hpace.vacated hx
      have hstep : Pace occasion s.scope x z ∧ Sits s t z := ⟨hpace, hsit', hz.not_out hsit' hreal⟩
      rcases ih hz hsit' with ⟨-, hcourse⟩ | ⟨a, b, ⟨-, hcourse⟩, hafter⟩
      · exact .inl ⟨hsits, .head hstep hcourse⟩
      · exact .inr ⟨a, b, ⟨hsits, .head hstep hcourse⟩, hafter⟩
    · rcases hpace.fate (hpace.ordered.known_of_sitter? hsit) fun _ => rfl with heq | ⟨u, hu, hfate⟩
      · exact absurd (heq.trans hsit) hsit'
      · cases hsit.symm.trans hu
        exact .inr ⟨x, z, ⟨hsits, .refl⟩, hpace, hfate, hsit', hrest⟩

/-! ## What can happen to threads that do not run -/

/-- The script of the thread, whose name it holds, is started. -/
def Starts (forced : Bool) (s : Seat) (t : Thread) (x y : Moment) : Prop :=
  x.machine.HeldBy s.scope s.moduleIndex t.scriptIndex t ∧ ∃ args info,
    y = ⟨x.machine.comply s.scope (.start s.moduleIndex t.scriptIndex args info forced), x.out⟩

/-- The script of the thread is stopped or paused by its name. -/
def Halts (pause : Bool) (s : Seat) (t : Thread) (x y : Moment) : Prop :=
  ∃ name slot, x.machine.resolveScript? s.scope name = some slot ∧
    slot.moduleIndex = s.moduleIndex ∧ slot.scriptIndex = t.scriptIndex ∧
    y = ⟨x.machine.comply s.scope (.halt name pause), x.out⟩

/-- The scheduler removes the thread from an active map. -/
def Removes (s : Seat) (t : Thread) (x y : Moment) : Prop :=
  ∃ j, x.machine.scopes.isActive s.scope = true ∧
    (x.machine.threadsAt s.scope s.moduleIndex)[j]? = some t ∧
    y = ⟨x.machine.reap s.scope s.moduleIndex j, x.out⟩

/-- The scheduler finds that nothing keeps the thread from going on, and its turn begins. -/
def Promotes (s : Seat) (t : Thread) (x y : Moment) : Prop :=
  (x.machine.isRunnable s.scope t.state).1 = true ∧
    y.machine.sitter? s = some (placeholder t.id) ∧
    y.out = [⟨t.awake x.machine.tick, s.scope, s.moduleIndex, x.machine.executing⟩]

variable {a b : Moment}

/-- A start that finds the thread under its name starts it again. -/
theorem starts_of_heldBy {j : Nat} {args : List Word} {info : ThreadInfo} {forced : Bool} (hm : m.Ordered)
    (hreal : t.isPlaceholder = false) (hheld : m.HeldBy s.scope s.moduleIndex j t) :
    Starts forced s t ⟨m, ds⟩ ⟨m.comply s.scope (.start s.moduleIndex j args info forced), ds⟩ := by
  obtain rfl := hheld.scriptIndex_eq hm hreal
  exact ⟨hheld, args, info, rfl⟩

/-- A halt that reaches a thread halts it. -/
theorem halts_of_reaches {name : ScriptName} {pause : Bool} (hreal : t.isPlaceholder = false)
    (hreach : m.Reaches s.scope name s t) :
    Halts pause s t ⟨m, ds⟩ ⟨m.comply s.scope (.halt name pause), ds⟩ := by
  obtain ⟨slot, hslot, -, hindex, hreaches⟩ := hreach
  rw [reaches, hreal] at hreaches
  have hscript : t.scriptIndex = slot.scriptIndex := by simpa using (Bool.and_eq_true_iff.1 hreaches).1
  exact ⟨name, slot, hslot, hindex.symm, hscript.symm, rfl⟩

/-- A thread that has ended is removed, if anything happens to it. -/
theorem Fate.removes (h : Fate occasion s t a b) (hreal : t.isPlaceholder = false)
    (hstate : t.state = .stopped) :
    occasion = .tick ∧ Removes s t a b ∧ b.machine.sitter? s = none := by
  cases h with
  | resumed hheld hpaused hsit => simp [hstate] at hpaused
  | replaced hheld hlive hsit => simp [hstate, ThreadState.isFinished] at hlive
  | halted hreach hsit =>
    obtain ⟨slot, -, -, -, hreaches⟩ := hreach
    simp [reaches, hstate, ThreadState.isFinished] at hreaches
  | returned hplace hsit => simp [hreal] at hplace
  | reaped hoccasion hactive hat hend hsit => exact ⟨hoccasion, ⟨_, hactive, hat, rfl⟩, hsit⟩
  | lowered hoccasion hrunnable hdelay hsit => simp [hstate, isRunnable] at hrunnable
  | entered hoccasion hrunnable hdelay hsit => simp [hstate, isRunnable] at hrunnable

/-- A thread that is paused goes on when its script is started, and ends when that is done by force or
its script is stopped. -/
theorem Fate.resumes (h : Fate occasion s t a b) (hm : a.machine.Ordered)
    (hreal : t.isPlaceholder = false) (hstate : t.state = .paused)
    (hchanged : b.machine.sitter? s ≠ some t) :
    b.machine.sitter? s = some { t with state := .running } ∧ Starts false s t a b ∨
      b.machine.sitter? s = some { t with state := .stopped } ∧
        (Starts true s t a b ∨ Halts false s t a b) := by
  cases h with
  | resumed hheld _ hsit => exact .inl ⟨hsit, starts_of_heldBy hm hreal hheld⟩
  | replaced hheld _ hsit => exact .inr ⟨hsit, .inl (starts_of_heldBy hm hreal hheld)⟩
  | @halted m ds name pause hreach hsit =>
    cases pause with
    | false => exact .inr ⟨hsit, .inr (halts_of_reaches hreal hreach)⟩
    | true =>
      -- it is paused already
      refine absurd (hsit.trans ?_) hchanged
      rw [haltState, if_pos rfl, ← hstate]
  | returned hplace _ => simp [hreal] at hplace
  | reaped _ _ _ hend _ => simp [hstate, ThreadState.isFinished] at hend
  | lowered _ hrunnable _ _ => simp [hstate, isRunnable] at hrunnable
  | entered _ hrunnable _ _ => simp [hstate, isRunnable] at hrunnable

/-- A thread that waits, and does not sleep, has its turn as soon as it may go on, or it is paused or
ended. -/
theorem Fate.promotes (h : Fate occasion s t a b) (hm : a.machine.Ordered)
    (hreal : t.isPlaceholder = false) (hstate : t.state.isWait = true) (hdelay : t.delay = 0) :
    occasion = .tick ∧ Promotes s t a b ∨
      b.machine.sitter? s = some { t with state := .paused } ∧ Halts true s t a b ∨
      b.machine.sitter? s = some { t with state := .stopped } ∧
        (Starts true s t a b ∨ Halts false s t a b) := by
  cases h with
  | resumed _ hpaused _ =>
    rw [hpaused] at hstate
    cases hstate
  | replaced hheld _ hsit => exact .inr (.inr ⟨hsit, .inl (starts_of_heldBy hm hreal hheld)⟩)
  | @halted m ds name pause hreach hsit =>
    cases pause with
    | false => exact .inr (.inr ⟨hsit, .inr (halts_of_reaches hreal hreach)⟩)
    | true => exact .inr (.inl ⟨hsit, halts_of_reaches hreal hreach⟩)
  | returned hplace _ => simp [hreal] at hplace
  | reaped _ _ _ hend _ => simp [ThreadState.isFinished_of_isWait hstate] at hend
  | lowered _ _ hpositive _ =>
    simp only [awake, hdelay] at hpositive
    exact absurd hpositive (by decide)
  | entered hoccasion hrunnable _ hsit => exact .inl ⟨hoccasion, hrunnable, hsit, rfl⟩

/-! ## Threads that are removed -/

/-- The trace after a thread was removed, where the host asks for that. -/
theorem Removes.trace (h : Removes s t a b) (hasks : a.machine.hooks.has .threadStop = true) :
    ∃ before, b.machine.trace = .threadStop t :: before ∧ a.machine.trace <:+ before := by
  obtain ⟨j, -, hat, rfl⟩ := h
  rw [getElem?_threadsAt] at hat
  have htold : ∃ e, (a.machine.reap s.scope s.moduleIndex j).trace =
      .threadStop t :: e :: a.machine.trace := by
    simp only [Machine.reap, hat, report]
    split
    · exact ⟨_, rfl⟩
    · rename_i hsilent
      exact absurd hasks hsilent
  obtain ⟨e, he⟩ := htold
  exact ⟨_, he, List.suffix_cons ..⟩

/-- A thread that is gone holds no name. -/
theorem Course.unnamed (h : Course occasion home ⟨m, ds⟩ ⟨m', []⟩) (hoccasion : occasion ≠ .request)
    (hm : m.Ordered) (hm' : m'.Ordered) (hsit : m.sitter? s = some t) (hgone : m'.sitter? s = none)
    {map : MapScope} (hmap : m'.scopes.map? s.scope = some map) {name : ScriptName} {slot : ScriptSlot}
    (hslot : map.slots.find? name = some slot) : slot.thread ≠ some s.id := by
  intro hthread
  obtain ⟨hmem, hid⟩ := mem_of_sitter? hsit
  -- the thread that holds the name sits in a module of the map
  obtain ⟨q, p, -, hq, hholder, -⟩ := (hm' s.scope map hmap).staffed.holder name slot _ hslot hthread
  obtain ⟨place, hplace, rfl⟩ := MapScope.getElem?_of_plan hq
  obtain ⟨u, hu, hrole⟩ := List.mem_map.1 hholder
  have huid : u.id = s.id := congrArg Prod.fst hrole
  have hat : u ∈ m'.threadsAt s.scope slot.moduleIndex := by
    rw [threadsAt, ScopeTree.module?_eq, hmap, Option.bind_some, hplace]
    exact hu
  have hsits : m'.sitter? ⟨s.scope, slot.moduleIndex, s.id⟩ ≠ none := by
    rw [sitter?, ne_eq, List.find?_eq_none]
    exact fun hnone => hnone u hat (beq_iff_eq.2 huid)
  -- nobody came into the seats of that id
  have hold := hm.known_of_sitter? hsit
  have hknown : m.Known ⟨s.scope, slot.moduleIndex, s.id⟩ := hold
  by_cases hindex : slot.moduleIndex = s.moduleIndex
  · rw [hindex] at hsits
    exact hsits hgone
  · refine hsits (h.gone hoccasion ⟨hknown, ?_⟩).2
    rw [sitter?, List.find?_eq_none]
    intro v hv hvid
    obtain ⟨map₀, x, hmap₀, hx, hmemv, -⟩ := exists_threadsAt hv
    obtain ⟨map₁, x', hmap₁, hx', hmemt, -⟩ := exists_threadsAt hmem
    cases hmap₀.symm.trans hmap₁
    refine hindex ((hm s.scope map₀ hmap₀).staffed.apart _ _ _ _ (MapScope.getElem?_plan hx)
      (MapScope.getElem?_plan hx') _ (List.mem_map_of_mem hmemv) _ (List.mem_map_of_mem hmemt) ?_)
    exact (beq_iff_eq.1 hvid).trans hid.symm

end Moment

namespace Machine

open Moment Thread

variable {occasion : Occasion} {m m' : Machine} {s : Seat} {t : Thread}

/-- **Threads that do not run stay put.**  Let a host do something with a machine at rest, where scripts
call built-in functions only, no map gives away its last thread id, and the map of a thread is not freed.

A thread that has ended is left alone, unless there is a tick and its map is active with all above it: then
it is left alone until it is removed, no name is held by its id afterwards, and the host is told if it
asks.  A thread that is paused is left alone until its script is started, and it goes on, or started by
force or stopped, and it ends.  A thread that waits does not sleep; it is left alone until its turn begins
in a tick because nothing keeps it any more, its script is paused, or its script is started by force or
stopped. -/
theorem Managed.threads_stay (hm : Managed m) (hrest : m.executing = false)
    (h : Undertakes occasion m m') (hfresh : ¬ m'.Exhausted)
    (hkept : (m'.scopes.map? s.scope).isSome = true) (hsit : m.sitter? s = some t) :
    (t.state = .stopped →
      if occasion = .tick ∧ m.scopes.isActive s.scope = true then
        (∃ a b, Undisturbed occasion s t ⟨m, []⟩ a ∧ Removes s t a b ∧
          Course occasion s.scope b ⟨m', []⟩) ∧
        m'.sitter? s = none ∧
        (∀ map name slot, m'.scopes.map? s.scope = some map → map.slots.find? name = some slot →
          slot.thread ≠ some s.id) ∧
        (m.hooks.has .threadStop = true → ∃ before after,
          m'.trace = after ++ .threadStop t :: before ∧ m.trace <:+ before)
      else Undisturbed occasion s t ⟨m, []⟩ ⟨m', []⟩) ∧
    (t.state = .paused → Undisturbed occasion s t ⟨m, []⟩ ⟨m', []⟩ ∨
      ∃ a b, Undisturbed occasion s t ⟨m, []⟩ a ∧ Course occasion s.scope b ⟨m', []⟩ ∧
        (b.machine.sitter? s = some { t with state := .running } ∧ Moment.Starts false s t a b ∨
          b.machine.sitter? s = some { t with state := .stopped } ∧
            (Moment.Starts true s t a b ∨ Halts false s t a b))) ∧
    (t.state.isWait = true → t.delay = 0 ∧ (Undisturbed occasion s t ⟨m, []⟩ ⟨m', []⟩ ∨
      ∃ a b, Undisturbed occasion s t ⟨m, []⟩ a ∧ Course occasion s.scope b ⟨m', []⟩ ∧
        (occasion = .tick ∧ Promotes s t a b ∨
          b.machine.sitter? s = some { t with state := .paused } ∧ Halts true s t a b ∨
          b.machine.sitter? s = some { t with state := .stopped } ∧
            (Moment.Starts true s t a b ∨ Halts false s t a b)))) := by
  have hfresh₀ : ¬ m.Exhausted := fun he => hfresh (he.mono h.trace)
  have hordered := hm.ordered hfresh₀
  obtain ⟨hmem, hid⟩ := mem_of_sitter? hsit
  have hreal : t.isPlaceholder = false := by
    obtain ⟨map, x, hmap, hx, ht, -⟩ := exists_threadsAt hmem
    exact hm.filled hfresh₀ s.scope map hmap x (List.mem_of_getElem? hx) t ht
  have hcourse := h.course hm hfresh fun _ => hkept
  have huntil := hcourse.until (vacated_rest m) hsit hreal
  refine ⟨fun hstate => ?_, fun hstate => ?_, fun hstate => ?_⟩
  · -- what is gone at some moment is gone at the end
    have hends : Undisturbed occasion s t ⟨m, []⟩ ⟨m', []⟩ ∨ ∃ a b, occasion = .tick ∧
        Undisturbed occasion s t ⟨m, []⟩ a ∧ Removes s t a b ∧ Course occasion s.scope b ⟨m', []⟩ ∧
        m'.sitter? s = none := by
      rcases huntil with hleft | ⟨a, b, hleft, hpace, hfate, -, hafter⟩
      · exact .inl hleft
      · obtain ⟨rfl, hremoves, hgone⟩ := hfate.removes hreal hstate
        have hknown := hpace.known (by decide) (hpace.ordered.known_of_sitter? hleft.sits.1)
        exact .inr ⟨a, b, rfl, hleft, hremoves, hafter, (hafter.gone (by decide) ⟨hknown, hgone⟩).2⟩
    split
    · rename_i htick
      obtain ⟨rfl, hactive⟩ := htick
      have hgone : m'.sitter? s = none := by
        cases h with
        | exec _ hexec =>
          have hran : Course .tick s.scope ⟨m, []⟩ ⟨m', []⟩ ∧ _ :=
            course_exec hrest hordered (hm.filled hfresh₀) (hexec quietHost) hfresh
          exact hran.2 s t hactive hsit hstate
      rcases hends with hleft | ⟨a, b, -, hleft, hremoves, hafter, -⟩
      · cases hgone.symm.trans hleft.sits.1
      · refine ⟨⟨a, b, hleft, hremoves, hafter⟩, hgone, fun map name slot hmap hslot => ?_, fun hasks => ?_⟩
        · exact hcourse.unnamed (by decide) hordered (Managed.ordered (hm.handle h) hfresh) hsit hgone hmap hslot
        · obtain ⟨htrace, hhooks⟩ := hleft.course.trace (by decide)
          obtain ⟨before, htold, hbefore⟩ := hremoves.trace (hhooks ▸ hasks)
          obtain ⟨after, heq⟩ := (hafter.trace (by decide)).1
          exact ⟨before, after, htold ▸ heq.symm, htrace.trans hbefore⟩
    · rename_i hquiet
      rcases hends with hleft | ⟨a, b, rfl, -, -, -, hgone⟩
      · exact hleft
      · -- the tick leaves a map alone that is not active
        have hoff : m.scopes.isActive s.scope = false := by simpa using hquiet
        cases h with
        | exec _ hexec =>
          have hsame := map?_exec (Regime.Run.settled hm) hoff (hexec quietHost)
          have hsit' : m'.sitter? s = some t := by
            rw [sitter?, threadsAt, ScopeTree.module?_eq, hsame, ← ScopeTree.module?_eq]
            exact hsit
          cases hgone.symm.trans hsit'
  · rcases huntil with hleft | ⟨a, b, hleft, hpace, hfate, hchanged, hafter⟩
    · exact .inl hleft
    · exact .inr ⟨a, b, hleft, hafter, hfate.resumes hpace.ordered hreal hstate hchanged⟩
  · have hdelay : t.delay = 0 := calmAt_of_managed hm hfresh₀ s.moduleIndex t hmem hstate
    refine ⟨hdelay, ?_⟩
    rcases huntil with hleft | ⟨a, b, hleft, hpace, hfate, -, hafter⟩
    · exact .inl hleft
    · exact .inr ⟨a, b, hleft, hafter, hfate.promotes hpace.ordered hreal hstate hdelay⟩

/-- The thread of the small program is stopped before its first turn, and the host asks which threads
end. -/
def endedMachine : Machine :=
  { (startedMachine.serve (.stop {} (.number 1))).2 with hooks := { installed := [.threadStop] } }

/-- The machine after a tick. -/
def sweptMachine : Machine := (endedMachine.exec quietHost 9).getD endedMachine

/-- How the machine with the stopped thread comes about. -/
theorem managed_endedMachine : Managed endedMachine :=
  (managed_startedMachine.operate (.request (.stop {} (.number 1)) trivial)).equip _

/-- The tick passes whatever host there is. -/
theorem exec_endedMachine (host : Host) : endedMachine.exec host 9 = some sweptMachine := by
  have hruns : endedMachine.hostFuncs = #[] ∧ (endedMachine.exec quietHost 9).isSome = true := by
    decide +kernel
  obtain ⟨m, hm⟩ := Option.isSome_iff_exists.1 hruns.2
  rw [exec_eq_of_hostFuncs hruns.1, sweptMachine, hm, Option.getD_some]

/-- The thread is removed by the tick, and the host is told. -/
theorem Managed.threads_stay_swept : Managed endedMachine ∧
    Undertakes .tick endedMachine sweptMachine ∧
    ∃ t, endedMachine.sitter? ⟨{}, 0, 1⟩ = some t ∧ t.state = .stopped ∧
      sweptMachine.sitter? ⟨{}, 0, 1⟩ = none ∧ ∃ before after,
        sweptMachine.trace = after ++ .threadStop t :: before := by
  obtain ⟨hrest, hlast, hsits, hactive, hkept, hasks⟩ : endedMachine.executing = false ∧
      (∀ e ∈ sweptMachine.trace, logEnd? e ≠ some '5') ∧
      (endedMachine.sitter? ⟨{}, 0, 1⟩).map (·.state) = some .stopped ∧
      endedMachine.scopes.isActive {} = true ∧ (sweptMachine.scopes.map? {}).isSome = true ∧
      endedMachine.hooks.has .threadStop = true := by decide +kernel
  have hfresh : ¬ sweptMachine.Exhausted := not_exhausted_of_logEnd? hlast
  obtain ⟨t, hsit, hstate⟩ := Option.map_eq_some_iff.1 hsits
  have hexec : Undertakes .tick endedMachine sweptMachine :=
    .exec trivial exec_endedMachine
  obtain ⟨hstays, -⟩ :=
    Managed.threads_stay (s := ⟨{}, 0, 1⟩) managed_endedMachine hrest hexec hfresh hkept hsit
  rw [if_pos ⟨rfl, hactive⟩] at hstays
  obtain ⟨-, hgone, -, htold⟩ := hstays hstate
  obtain ⟨before, after, htrace, -⟩ := htold hasks
  exact ⟨managed_endedMachine, hexec, t, hsit, hstate, hgone, before, after, htrace⟩

/-! ## What a stop reaches -/

/-- A thread of the script is reached in the tree, and the one that holds the name also when it is out. -/
theorem reaches_of_holds {scope : ScopeId} {name : ScriptName} {slot : ScriptSlot} {i : Nat}
    (hslot : m.resolveScript? scope name = some slot) (hindex : i = slot.moduleIndex)
    (hlive : t.state.isFinished = false)
    (hscript : t.isPlaceholder = false ∧ t.scriptIndex = slot.scriptIndex ∨
      t.isPlaceholder = true ∧ slot.thread = some t.id) :
    m.Reaches scope name ⟨scope, i, t.id⟩ t := by
  refine ⟨slot, hslot, rfl, hindex, ?_⟩
  rcases hscript with ⟨hreal, hscript⟩ | ⟨hplace, hholds⟩
  · simp [reaches, hreal, hscript, hlive]
  · simp [reaches, hplace, hholds, hlive]

/-- **A stop ends what it reaches.**  A stop at rest ends every thread of the script that its name leads
to.  When a stop is asked for in a tick or a start for a result, where scripts call built-in functions only,
then at the end every thread of the script that was in the tree, and the one that held the name even if it
was out of the tree, has ended or is gone.  Other threads that are out of the tree are not reached. -/
theorem Managed.stop_reaches (hm : Managed m) (hfresh : ¬ m.Exhausted) :
    (∀ scope name slot, m.resolveScript? scope name = some slot →
      ∀ t ∈ m.threadsAt scope slot.moduleIndex, t.scriptIndex = slot.scriptIndex →
        t.state.isFinished = false →
        (m.serve (.stop scope name)).2.sitter? ⟨scope, slot.moduleIndex, t.id⟩ =
          some { t with state := .stopped }) ∧
    ∀ occasion m', occasion ≠ .request → Undertakes occasion m m' → ¬ m'.Exhausted → ∀ home,
      Course occasion home ⟨m, []⟩ ⟨m', []⟩ ∧
      ∀ x y scope name slot, Course occasion home ⟨m, []⟩ x → Pace occasion home x y →
        y = ⟨x.machine.comply scope (.halt name false), x.out⟩ → Course occasion home y ⟨m', []⟩ →
        x.machine.resolveScript? scope name = some slot →
        ∀ t ∈ x.machine.threadsAt scope slot.moduleIndex, t.state.isFinished = false →
          (t.isPlaceholder = false ∧ t.scriptIndex = slot.scriptIndex ∨
            t.isPlaceholder = true ∧ slot.thread = some t.id) →
          ∀ t', m'.sitter? ⟨scope, slot.moduleIndex, t.id⟩ = some t' → t'.state = .stopped := by
  have hreached : ∀ {m : Machine} {scope name slot t}, m.Ordered → m.resolveScript? scope name = some slot →
      t ∈ m.threadsAt scope slot.moduleIndex → t.state.isFinished = false →
      (t.isPlaceholder = false ∧ t.scriptIndex = slot.scriptIndex ∨
        t.isPlaceholder = true ∧ slot.thread = some t.id) →
      (m.setScriptState scope name .stopped).2.sitter? ⟨scope, slot.moduleIndex, t.id⟩ =
        some { t with state := .stopped } := by
    intro m scope name slot t hm hslot ht hlive hscript
    obtain ⟨j, hj⟩ := List.getElem?_of_mem ht
    have hsit := hm.distinct.sitter? hj
    rcases sitter?_setScriptState m scope name .stopped ⟨scope, slot.moduleIndex, t.id⟩ with
      ⟨u, hu, -, hstopped⟩ | ⟨hnot, -⟩
    · cases hsit.symm.trans hu
      exact hstopped
    · exact absurd (reaches_of_holds hslot rfl hlive hscript) (hnot t hsit)
  constructor
  · intro scope name slot hslot t ht hscript hlive
    obtain ⟨map, x, hmap, hx, hmem, -⟩ := exists_threadsAt ht
    have hreal := hm.filled hfresh scope map hmap x (List.mem_of_getElem? hx) t hmem
    exact hreached (hm.ordered hfresh) hslot ht hlive (.inl ⟨hreal, hscript⟩)
  · intro occasion m' hoccasion hgoes hfresh' home
    refine ⟨hgoes.course hm hfresh' fun hrequest => absurd hrequest hoccasion, ?_⟩
    intro x y scope name slot _ hpace hy hafter hslot t ht hlive hscript t' ht'
    have hstopped := hreached hpace.ordered hslot ht hlive hscript
    have hended : Ended y.machine ⟨scope, slot.moduleIndex, t.id⟩ := by
      refine ⟨hpace.known hoccasion (hpace.ordered.known ht), fun u hu => ?_⟩
      rw [hy] at hu
      cases hstopped.symm.trans hu
      rfl
    exact (hafter.ended hoccasion hended).2 t' ht'

/-- The thread of the small program is stopped at rest, and the tick that comes instead is a course. -/
theorem Managed.stop_reaches_started : Managed startedMachine ∧
    ¬ startedMachine.Exhausted ∧
    (∃ t, startedMachine.sitter? ⟨{}, 0, 1⟩ = some t ∧ t.state = .running ∧
      (startedMachine.serve (.stop {} (.number 1))).2.sitter? ⟨{}, 0, t.id⟩ =
        some { t with state := .stopped }) ∧
    Course .tick {} ⟨startedMachine, []⟩ ⟨sleepingMachine, []⟩ := by
  obtain ⟨hlast, hlast', hslot, hsits⟩ :
      (∀ e ∈ startedMachine.trace, logEnd? e ≠ some '5') ∧
      (∀ e ∈ sleepingMachine.trace, logEnd? e ≠ some '5') ∧
      startedMachine.resolveScript? {} (.number 1) =
        some { moduleIndex := 0, scriptIndex := 0, thread := some 1 } ∧
      (startedMachine.sitter? ⟨{}, 0, 1⟩).map (fun t => (t.scriptIndex, t.state)) =
        some (0, .running) := by decide +kernel
  obtain ⟨t, hsit, hview⟩ := Option.map_eq_some_iff.1 hsits
  obtain ⟨hscript, hstate⟩ : t.scriptIndex = 0 ∧ t.state = .running := by simpa using hview
  obtain ⟨hmem, -⟩ := mem_of_sitter? hsit
  obtain ⟨hrest, hruns⟩ := Managed.stop_reaches managed_startedMachine (not_exhausted_of_logEnd? hlast)
  have hstop := hrest {} (.number 1) _ hslot t hmem hscript (by rw [hstate]; rfl)
  obtain ⟨hcourse, -⟩ := hruns .tick _ (by decide) (.exec trivial exec_startedMachine)
    (not_exhausted_of_logEnd? hlast') {}
  exact ⟨managed_startedMachine, not_exhausted_of_logEnd? hlast, ⟨t, hsit, hstate, hstop⟩, hcourse⟩

end Machine

end ScriptMachine
