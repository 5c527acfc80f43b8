import ScriptMachine.Proofs.Machine.Chronicle
import ScriptMachine.Proofs.Machine.Confinement
import ScriptMachine.Proofs.Machine.Instances

/-!
# What happens to a thread that does not run

A run in which scripts call built-in functions only is followed beat by beat.  A `Moment.Beat` is a piece
of work of a script, something that is asked for, a thread that is taken out of the tree for its turn or
put back, or something that the scheduler or the host does.

A thread that sits in the tree carries out no instruction, for that is what threads do that are out of
the tree.  It stays as it is until one of few things happens to it (`Pace.fate`): its script is started,
stopped or paused, or the scheduler removes it, lowers its delay or takes it out for its turn.
-/

namespace ScriptMachine

/-- A thread is looked up by its id after all have changed. -/
theorem find?_map_id {ts : List Thread} {f : Thread → Thread} (hf : ∀ t, (f t).id = t.id) (k : Word) :
    (ts.map f).find? (·.id == k) = (ts.find? (·.id == k)).map f := by
  rw [List.find?_map]
  simp only [Function.comp_def, hf]

namespace Machine

open Thread

variable {m m' : Machine} {scope home : ScopeId} {i j : Nat} {s : Seat} {t u : Thread}

/-! ## Who sits where afterwards -/

/-- Threads depend on what is bare of maps only. -/
theorem threadsAt_of_bare (h : ∀ id, (m'.scopes.map? id).map MapScope.bare =
    (m.scopes.map? id).map MapScope.bare) : m'.threadsAt = m.threadsAt := by
  have hbare : ∀ m : Machine, ∀ id n, m.threadsAt id n =
      (((((m.scopes.map? id).map MapScope.bare).bind (·.modules[n]?)).map (·.threads)).getD []) := by
    intro m id n
    rw [threadsAt, ScopeTree.module?_eq]
    cases m.scopes.map? id with
    | none => rfl
    | some map =>
      simp only [Option.bind_some, Option.map_some, MapScope.bare, List.getElem?_map]
      cases map.modules[n]? <;> rfl
  funext id n
  rw [hbare, hbare, h]

/-- Whether a seat is known depends on what is bare of maps only. -/
theorem known_of_bare (h : ∀ id, (m'.scopes.map? id).map MapScope.bare =
    (m.scopes.map? id).map MapScope.bare) (hs : m.Known s) : m'.Known s := by
  obtain ⟨map, hmap, hlt⟩ := hs
  have hs := h s.scope
  rw [hmap, Option.map_some] at hs
  obtain ⟨map', hmap', heq⟩ := Option.map_eq_some_iff.1 hs
  have hnext := congrArg MapScope.nextThreadId heq
  exact ⟨map', hmap', (show map'.nextThreadId = map.nextThreadId from hnext) ▸ hlt⟩

/-- A new thread comes behind the others of its module, or there is none. -/
theorem threadsAt_spawn (m : Machine) (scope : ScopeId) (i j : Nat) (args : List Word)
    (info : ThreadInfo) (takesName : Bool) :
    (m.spawn scope i j args info takesName).2.threadsAt = m.threadsAt ∨
    ∃ map v, m.scopes.map? scope = some map ∧ v.id = map.nextThreadId ∧ v.state = .running ∧
      ∀ id n, (m.spawn scope i j args info takesName).2.threadsAt id n =
        if id = scope ∧ n = i then m.threadsAt id n ++ [v] else m.threadsAt id n := by
  have hput : ∀ {m₁ : Machine} {map : MapScope}, m.scopes.map? scope = some map →
      m₁.scopes = m.scopes.modifyMap scope (fun _ => map.takeThreadId.2) →
      m₁.threadsAt = m.threadsAt := by
    intro m₁ map hmap hscopes
    funext id n
    rw [threadsAt_modifyMap (i := i) (g := fun ts => ts) hscopes (fun _ => rfl)]
    · split <;> rfl
    · intro map₀ hmap₀
      cases hmap.symm.trans hmap₀
      exact (List.modify_id ..).symm
  cases hmap : m.scopes.map? scope with
  | none => exact .inl (by rw [spawn, hmap])
  | some map =>
    cases hplace : map.modules[i]? with
    | none =>
      have hplace' : map.takeThreadId.2.modules[i]? = none := hplace
      refine .inl (hput hmap ?_)
      simp only [spawn, hmap, hplace']
    | some place =>
      have hplace' : map.takeThreadId.2.modules[i]? = some place := hplace
      cases hv : Thread.make? map.nextThreadId place.module scope i j args info with
      | none =>
        have hv' : Thread.make? map.takeThreadId.1 place.module scope i j args info = none := hv
        refine .inl (hput hmap ?_)
        simp only [spawn, hmap, hplace', hv']
      | some v =>
        have hrunning : v.state = .running := by
          obtain ⟨script, -, rfl⟩ := Option.map_eq_some_iff.1 hv
          rfl
        refine .inr ⟨map, v, rfl, make?_id hv, hrunning, ?_⟩
        refine threadsAt_modifyMap (g := (· ++ [v])) (spawn_scopes hmap hplace hv takesName)
          (fun hnone => ?_) fun map₀ hmap₀ => ?_
        · rw [ScopeTree.module?_eq, hmap, Option.bind_some, hplace] at hnone
          cases hnone
        · cases hmap.symm.trans hmap₀
          exact withThread_modules ..

/-- A new thread sits in none of the known seats. -/
theorem sitter?_spawn (hs : m.Known s) (scope : ScopeId) (i j : Nat) (args : List Word)
    (info : ThreadInfo) (takesName : Bool) :
    (m.spawn scope i j args info takesName).2.sitter? s = m.sitter? s := by
  rcases threadsAt_spawn m scope i j args info takesName with heq | ⟨map, v, hmap, hid, -, hthreads⟩
  · rw [sitter?, sitter?, heq]
  · rw [sitter?, sitter?, hthreads]
    split
    · rename_i hat
      obtain ⟨map₀, hmap₀, hlt⟩ := hs
      rw [hat.1] at hmap₀
      cases hmap.symm.trans hmap₀
      have hne : (v.id == s.id) = false := by
        rw [hid]
        exact beq_false_of_ne (UInt32.ne_of_lt hlt).symm
      rw [List.find?_append]
      simp [hne]
    · rfl

/-- A thread is put into a state. -/
def put (m : Machine) (scope : ScopeId) (i : Nat) (k : Word) (state : ThreadState) : Machine :=
  { m with scopes := m.scopes.modifyModule scope i fun x => x.modifyThread k fun t => { t with state } }

/-- A state is put into one thread of the module scope. -/
theorem rewrites_put (m : Machine) (scope : ScopeId) (i : Nat) (k : Word) (state : ThreadState) :
    m.Rewrites scope i (fun ts => ts.modify (ts.findIdx (·.id == k)) fun t => { t with state })
      (m.put scope i k state) := by
  refine rewrites_modifyMap (List.modify_nil ..) rfl rfl (fun _ => rfl) (fun _ => rfl) fun map => ?_
  simp only [MapScope.modifyModule, ModuleScope.modifyThread, updateFirst_eq_modify]

/-- A state is put in one seat, and the others stay as they are. -/
theorem sitter?_put (hsit : m.sitter? ⟨scope, i, t.id⟩ = some t) (state : ThreadState) (s : Seat) :
    (m.put scope i t.id state).sitter? s =
      if s = ⟨scope, i, t.id⟩ then some { t with state } else m.sitter? s := by
  rw [(rewrites_put m scope i t.id state).sitter? rfl fun _ h => h]
  split
  · rename_i heq
    rw [heq, hsit]
    rfl
  · rfl

/-- The thread holds the name of the script at these numbers, to which the name leads. -/
def HeldBy (m : Machine) (scope : ScopeId) (i j : Nat) (t : Thread) : Prop :=
  ∃ map x slot, m.scopes.map? scope = some map ∧ map.script? i j = some x ∧
    map.slots.find? x.name = some slot ∧ slot.moduleIndex = i ∧ slot.scriptIndex = j ∧
    slot.thread = some t.id ∧ m.sitter? ⟨scope, i, t.id⟩ = some t

/-- In a machine in order the thread runs the script whose name it holds. -/
theorem HeldBy.scriptIndex_eq (h : m.HeldBy scope i j t) (hm : m.Ordered)
    (hreal : t.isPlaceholder = false) : t.scriptIndex = j := by
  obtain ⟨map, x, slot, hmap, -, hslot, rfl, rfl, hthread, hsit⟩ := h
  obtain ⟨q, p, -, hq, hmem, hpost, -⟩ := (hm scope map hmap).staffed.holder _ slot _ hslot hthread
  obtain ⟨map', place, hmap', hplace, ht, -⟩ := exists_threadsAt (mem_of_sitter? hsit).1
  cases hmap.symm.trans hmap'
  cases hq.symm.trans (MapScope.getElem?_plan hplace)
  -- the thread is the only one with its id
  have hrole := (hm scope map hmap).staffed.eq_of_mem (MapScope.getElem?_plan hplace)
    (List.mem_map_of_mem ht) hmem rfl
  obtain ⟨module, hmodule⟩ : ∃ module, t.module = some module := by
    rw [isPlaceholder, Option.isNone_eq_false_iff] at hreal
    exact Option.isSome_iff_exists.1 hreal
  refine hpost ⟨module.toModule, t.scope, t.moduleIndex, t.scriptIndex⟩ ?_
  have hp : t.post? = p := congrArg Prod.snd hrole
  rw [← hp, post?, hmodule]
  rfl

/-- What a start can come to: nothing, a new thread, or that the thread that holds the name goes on or
is replaced. -/
theorem startAt_cases (m : Machine) (scope : ScopeId) (i j : Nat) (args : List Word) (info : ThreadInfo)
    (forced : Bool) :
    (m.startAt scope i j args info forced).2 = m ∨
    (∃ takesName, (m.startAt scope i j args info forced).2 =
      (m.spawn scope i j args info takesName).2) ∨
    ∃ t, m.HeldBy scope i j t ∧ t.state.isFinished = false ∧
      ((forced = true ∧ ∃ takesName, (m.startAt scope i j args info forced).2 =
          ((m.put scope i t.id .stopped).spawn scope i j args info takesName).2) ∨
        (forced = false ∧ t.state = .paused ∧ ∃ text, (m.startAt scope i j args info forced).2 =
          (m.put scope i t.id .running).log .debug text)) := by
  unfold startAt
  split
  · exact .inl rfl
  · rename_i map hmap
    split
    · exact .inl rfl
    · rename_i x hx
      simp only
      split
      · exact .inr (.inl ⟨_, rfl⟩)
      · rename_i t hholder
        have hheld : m.HeldBy scope i j t := by
          split at hholder
          · rename_i howns
            obtain ⟨slot, hslot, hrest⟩ := Option.bind_eq_some_iff.1 hholder
            obtain ⟨k, hthread, hrest⟩ := Option.bind_eq_some_iff.1 hrest
            obtain ⟨place, hplace, hfind⟩ := Option.bind_eq_some_iff.1 hrest
            have hid : t.id = k := by simpa using List.find?_some hfind
            have howns : slot.moduleIndex = i ∧ slot.scriptIndex = j := by
              simp only [ownsName, hslot, Bool.and_eq_true, beq_iff_eq] at howns
              exact howns.1
            refine ⟨map, x, slot, hmap, hx, hslot, howns.1, howns.2, hid ▸ hthread, ?_⟩
            rw [howns.1] at hplace
            rw [sitter?, threadsAt, ScopeTree.module?_eq, hmap, Option.bind_some, hplace, hid]
            exact hfind
          · cases hholder
        split
        · exact .inr (.inl ⟨_, rfl⟩)
        · rename_i hlive
          have hlive : t.state.isFinished = false := by simpa using hlive
          cases forced with
          | true => exact .inr (.inr ⟨t, hheld, hlive, .inl ⟨rfl, _, rfl⟩⟩)
          | false =>
            simp only [Bool.false_eq_true, if_false]
            split
            · rename_i hpaused
              exact .inr (.inr ⟨t, hheld, hlive, .inr ⟨trivial, hpaused, _, rfl⟩⟩)
            · exact .inl rfl

/-- Whoever holds a name sits in its seat. -/
theorem HeldBy.sitter? (h : m.HeldBy scope i j t) : m.sitter? ⟨scope, i, t.id⟩ = some t := by
  obtain ⟨-, -, -, -, -, -, -, -, -, hsit⟩ := h
  exact hsit

/-- **A start** leaves the threads that are there alone, but for the one that holds the name: it goes on
if it is paused, and it ends if the start is forced. -/
theorem sitter?_startAt (hs : m.Known s) (scope : ScopeId) (i j : Nat) (args : List Word)
    (info : ThreadInfo) (forced : Bool) :
    (m.startAt scope i j args info forced).2.sitter? s = m.sitter? s ∨
      ∃ t, s = ⟨scope, i, t.id⟩ ∧ m.HeldBy scope i j t ∧ t.state.isFinished = false ∧
        (forced = false → t.state = .paused) ∧ (m.startAt scope i j args info forced).2.sitter? s =
          some { t with state := if forced then .stopped else .running } := by
  rcases startAt_cases m scope i j args info forced with heq | ⟨takesName, heq⟩ |
    ⟨t, hheld, hlive, ⟨rfl, takesName, heq⟩ | ⟨rfl, hpaused, text, heq⟩⟩
  · exact .inl (by rw [heq])
  · exact .inl (by rw [heq, sitter?_spawn hs])
  all_goals
    rw [heq]
    by_cases hseat : s = ⟨scope, i, t.id⟩
  · refine .inr ⟨t, hseat, hheld, hlive, nofun, ?_⟩
    rw [sitter?_spawn (((rewrites_put m scope i t.id .stopped).known s).2 hs),
      sitter?_put hheld.sitter?, if_pos hseat]
    rfl
  · refine .inl ?_
    rw [sitter?_spawn (((rewrites_put m scope i t.id .stopped).known s).2 hs),
      sitter?_put hheld.sitter?, if_neg hseat]
  · refine .inr ⟨t, hseat, hheld, hlive, fun _ => hpaused, ?_⟩
    exact (sitter?_put hheld.sitter? .running s).trans (if_pos hseat)
  · exact .inl ((sitter?_put hheld.sitter? .running s).trans (if_neg hseat))

/-- What was asked of a script by its name reaches the thread in this seat. -/
def Reaches (m : Machine) (scope : ScopeId) (name : ScriptName) (s : Seat) (t : Thread) : Prop :=
  ∃ slot, m.resolveScript? scope name = some slot ∧ s.scope = scope ∧
    s.moduleIndex = slot.moduleIndex ∧ reaches slot.scriptIndex slot.thread t = true

/-- A state is set in the module scope of the script, and nowhere else. -/
theorem threadsAt_setScriptState {name : ScriptName} {slot : ScriptSlot}
    (hslot : m.resolveScript? scope name = some slot) (state : ThreadState) (id : ScopeId) (n : Nat) :
    (m.setScriptState scope name state).2.threadsAt id n =
      if id = scope ∧ n = slot.moduleIndex then
        (m.threadsAt id n).map fun t =>
          if reaches slot.scriptIndex slot.thread t then { t with state } else t
      else m.threadsAt id n := by
  cases hplace : m.scopes.module? scope slot.moduleIndex with
  | none =>
    simp only [setScriptState, hslot, hplace]
    split
    · rename_i hat
      rw [hat.1, hat.2, threadsAt, hplace]
      rfl
    · rfl
  | some place =>
    simp only [setScriptState, hslot, hplace]
    split
    · exact threadsAt_modifyMap (f := fun map => map.modifyModule slot.moduleIndex fun x =>
        { x with threads := x.threads.map fun t =>
            if reaches slot.scriptIndex slot.thread t then { t with state } else t })
        rfl (fun _ => rfl) (fun _ _ => rfl) id n
    · -- nobody is reached
      rename_i hnone
      split
      · rename_i hat
        rw [hat.1, hat.2, threadsAt, hplace]
        refine (List.map_congr_left fun t ht => ?_).trans (List.map_id _) |>.symm
        rw [List.any_eq_true, not_exists] at hnone
        exact if_neg fun h => hnone t ⟨ht, h⟩
      · rfl

/-- **A stop or pause** puts the threads that it reaches into the state, and leaves others alone. -/
theorem sitter?_setScriptState (m : Machine) (scope : ScopeId) (name : ScriptName) (state : ThreadState)
    (s : Seat) :
    (∃ t, m.sitter? s = some t ∧ m.Reaches scope name s t ∧
      (m.setScriptState scope name state).2.sitter? s = some { t with state }) ∨
    ((∀ t, m.sitter? s = some t → ¬ m.Reaches scope name s t) ∧
      (m.setScriptState scope name state).2.sitter? s = m.sitter? s) := by
  cases hslot : m.resolveScript? scope name with
  | none =>
    refine .inr ⟨?_, by rw [setScriptState, hslot]⟩
    rintro t - ⟨slot, hslot', -⟩
    cases hslot.symm.trans hslot'
  | some slot =>
    rw [sitter?, sitter?, threadsAt_setScriptState hslot]
    by_cases hat : s.scope = scope ∧ s.moduleIndex = slot.moduleIndex
    · rw [if_pos hat, find?_map_id fun t => by split <;> rfl]
      cases hsit : (m.threadsAt s.scope s.moduleIndex).find? (·.id == s.id) with
      | none => exact .inr ⟨by rintro _ ⟨⟩, rfl⟩
      | some t =>
        by_cases hreach : reaches slot.scriptIndex slot.thread t = true
        · exact .inl ⟨t, rfl, ⟨slot, hslot, hat.1, hat.2, hreach⟩, by rw [Option.map_some, if_pos hreach]⟩
        · refine .inr ⟨?_, by rw [Option.map_some, if_neg hreach]⟩
          rintro _ ⟨⟩ ⟨slot', hslot', -, -, hreach'⟩
          cases hslot.symm.trans hslot'
          exact hreach hreach'
    · rw [if_neg hat]
      refine .inr ⟨?_, rfl⟩
      rintro t - ⟨slot', hslot', hscope, hindex, -⟩
      cases hslot.symm.trans hslot'
      exact hat ⟨hscope, hindex⟩

/-- A thread that ran is put in the place of its placeholder, with what was asked of that, or the tree
stays as it is. -/
theorem rewrites_settled (m : Machine) (scope : ScopeId) (i : Nat) (u : Thread) :
    (∃ p, m.sitter? ⟨scope, i, u.id⟩ = some p ∧ p.isPlaceholder = true ∧ m.Rewrites scope i
      (fun ts => ts.modify (ts.findIdx (·.id == u.id)) fun _ => settled u p.state)
      (m.reattach scope i u)) ∨ (m.reattach scope i u).scopes = m.scopes := by
  rcases reattach_cases m scope i u with ⟨x, k, p, -, hx, hk, hid, hplace, -, -, rfl⟩ | ⟨-, -, hscopes, -⟩
  · have hp : x.threads.find? (·.id == u.id) = some p := List.find?_eq_getElem?_findIdx.trans hk
    refine .inl ⟨p, by rw [sitter?, threadsAt, hx]; exact hp, hplace, ?_⟩
    rw [reattach_eq hx hp hplace]
    refine rewrites_modifyMap (List.modify_nil ..) rfl rfl (fun _ => rfl) (fun _ => rfl) fun map => ?_
    simp only [MapScope.modifyModule, updateFirst_eq_modify]
  · exact .inr hscopes

/-- A thread that is put back takes the seat of its placeholder, settled as that one was asked, and all
other seats stay as they are. -/
theorem sitter?_reattach (m : Machine) (scope : ScopeId) (i : Nat) (u : Thread) (s : Seat) :
    (m.reattach scope i u).sitter? s = m.sitter? s ∨ s = ⟨scope, i, u.id⟩ ∧
      ∃ p, m.sitter? s = some p ∧ p.isPlaceholder = true ∧
        (m.reattach scope i u).sitter? s = some (settled u p.state) := by
  rcases rewrites_settled m scope i u with ⟨p, hp, hplace, hback⟩ | hscopes
  · rw [hback.sitter? rfl fun _ _ => (same_settled u p.state).id]
    split
    · rename_i heq
      rw [heq, hp]
      exact .inr ⟨rfl, p, rfl, hplace, rfl⟩
    · exact .inl rfl
  · exact .inl (by rw [sitter?, sitter?, threadsAt_congr hscopes])

end Machine

/-! ## Beats -/

namespace Moment

open Machine Thread

variable {occasion : Occasion} {home : ScopeId} {x y z : Moment} {m m' : Machine} {d : Detached}
  {ds : List Detached} {s : Seat} {t t' u : Thread}

/-- What happens from one moment to the next, where scripts call built-in functions only and the host
leaves the threads of the map `home` alone. -/
inductive Beat (occasion : Occasion) (home : ScopeId) : Moment → Moment → Prop
  | work {m m' : Machine} (scope : ScopeId) (ds : List Detached) (h : Works scope m m') :
    Beat occasion home ⟨m, ds⟩ ⟨m', ds⟩
  /-- An instruction of the innermost thread. -/
  | perform {m : Machine} {d : Detached} {ds : List Detached} {t' : Thread} (h : d.thread.Performs t') :
    Beat occasion home ⟨m, d :: ds⟩ ⟨m, { d with thread := t' } :: ds⟩
  /-- A script, or the host, asks for scripts to be started, stopped or paused. -/
  | ask (m : Machine) (ds : List Detached) (scope : ScopeId) (q : Demand) :
    Beat occasion home ⟨m, ds⟩ ⟨m.comply scope q, ds⟩
  /-- A thread is started for its result, and its turn begins. -/
  | result {m : Machine} {ds : List Detached} {u v : Thread} {map : MapScope} {place : ModuleScope}
      {scope : ScopeId} {i j : Nat} {args : List Word} {info : ThreadInfo} {takesName : Bool}
      (hmap : m.scopes.map? scope = some map) (hplace : map.modules[i]? = some place)
      (hv : Thread.make? map.nextThreadId place.module scope i j args info = some v)
      (hname : takesName = true → map.Single i j)
      (hu : (place.threads ++ [v]).find? (·.id == u.id) = some u) (hid : u.id = v.id) :
    Beat occasion home ⟨m, ds⟩
      ⟨{ (m.spawn scope i j args info takesName).2.detach scope i
          (fun ts => ts.findIdx (·.id == u.id)) u.id with executing := true },
        ⟨{ u with lastTick := (m.spawn scope i j args info takesName).2.tick }, scope, i, m.executing⟩
          :: ds⟩
  /-- The turn of the innermost thread ends. -/
  | back (m : Machine) (d : Detached) (ds : List Detached) :
    Beat occasion home ⟨m, d :: ds⟩
      ⟨{ m with executing := d.executing }.reattach d.scope d.moduleIndex d.thread, ds⟩
  | rest {m m' : Machine} (hoccasion : occasion = .request)
      (h : ∀ i, m'.threadsAt home i = m.threadsAt home i) : Beat occasion home ⟨m, []⟩ ⟨m', []⟩
  /-- A tick begins or ends. -/
  | clock (m : Machine) (executing : Bool) (tick : Nat) (hoccasion : occasion = .tick) :
    Beat occasion home ⟨m, []⟩ ⟨{ m with executing, tick }, []⟩
  /-- A thread that has ended is removed. -/
  | reap {m : Machine} {scope : ScopeId} {i j : Nat} {u : Thread} (hoccasion : occasion = .tick)
      (hactive : m.scopes.isActive scope = true) (hu : (m.threadsAt scope i)[j]? = some u)
      (hend : u.state.isFinished = true) : Beat occasion home ⟨m, []⟩ ⟨m.reap scope i j, []⟩
  /-- A delay is lowered. -/
  | wait {m : Machine} {scope : ScopeId} {i j : Nat} {u : Thread} (hoccasion : occasion = .tick)
      (hu : (m.threadsAt scope i)[j]? = some u) (hrunnable : (m.isRunnable scope u.state).1 = true)
      (hdelay : 0 < (u.awake m.tick).delay) :
    Beat occasion home ⟨m, []⟩ ⟨m.modifyThreadAt scope i j fun _ => u.awake m.tick, []⟩
  /-- The turn of a thread begins. -/
  | visit {m : Machine} {scope : ScopeId} {i j : Nat} {u : Thread} (hoccasion : occasion = .tick)
      (hu : (m.threadsAt scope i)[j]? = some u) (hrunnable : (m.isRunnable scope u.state).1 = true)
      (hdelay : (u.awake m.tick).delay = 0) :
    Beat occasion home ⟨m, []⟩
      ⟨m.detach scope i (fun _ => j) u.id, [⟨u.awake m.tick, scope, i, m.executing⟩]⟩

/-- A beat, with the machine in order before it, and no map that has given away its last id after it. -/
structure Pace (occasion : Occasion) (home : ScopeId) (x y : Moment) : Prop where
  beat : Beat occasion home x y
  ordered : x.machine.Ordered
  fresh : ¬ y.machine.Exhausted

/-- What happens from one moment to a later one. -/
abbrev Course (occasion : Occasion) (home : ScopeId) : Moment → Moment → Prop :=
  Relation.ReflTransGen (Pace occasion home)

/-- What can happen to the thread `t` that sits in the seat `s`. -/
inductive Fate (occasion : Occasion) (s : Seat) (t : Thread) : Moment → Moment → Prop
  /-- Its script is started, and it goes on. -/
  | resumed {m : Machine} {ds : List Detached} {j : Nat} {args : List Word} {info : ThreadInfo}
      (hheld : m.HeldBy s.scope s.moduleIndex j t) (hstate : t.state = .paused)
      (hsit : (m.comply s.scope (.start s.moduleIndex j args info false)).sitter? s =
        some { t with state := .running }) :
    Fate occasion s t ⟨m, ds⟩ ⟨m.comply s.scope (.start s.moduleIndex j args info false), ds⟩
  /-- Its script is started by force, and it ends. -/
  | replaced {m : Machine} {ds : List Detached} {j : Nat} {args : List Word} {info : ThreadInfo}
      (hheld : m.HeldBy s.scope s.moduleIndex j t) (hlive : t.state.isFinished = false)
      (hsit : (m.comply s.scope (.start s.moduleIndex j args info true)).sitter? s =
        some { t with state := .stopped }) :
    Fate occasion s t ⟨m, ds⟩ ⟨m.comply s.scope (.start s.moduleIndex j args info true), ds⟩
  /-- Its script is stopped or paused. -/
  | halted {m : Machine} {ds : List Detached} {name : ScriptName} {pause : Bool}
      (hreach : m.Reaches s.scope name s t)
      (hsit : (m.comply s.scope (.halt name pause)).sitter? s =
        some { t with state := haltState pause }) :
    Fate occasion s t ⟨m, ds⟩ ⟨m.comply s.scope (.halt name pause), ds⟩
  /-- A placeholder makes room for its thread. -/
  | returned {m : Machine} {d : Detached} {ds : List Detached} (hplace : t.isPlaceholder = true)
      (hsit : ({ m with executing := d.executing }.reattach d.scope d.moduleIndex d.thread).sitter? s =
        some (settled d.thread t.state)) :
    Fate occasion s t ⟨m, d :: ds⟩
      ⟨{ m with executing := d.executing }.reattach d.scope d.moduleIndex d.thread, ds⟩
  | reaped {m : Machine} {j : Nat} (hoccasion : occasion = .tick) (hactive : m.scopes.isActive s.scope = true)
      (hat : (m.threadsAt s.scope s.moduleIndex)[j]? = some t) (hend : t.state.isFinished = true)
      (hsit : (m.reap s.scope s.moduleIndex j).sitter? s = none) :
    Fate occasion s t ⟨m, []⟩ ⟨m.reap s.scope s.moduleIndex j, []⟩
  | lowered {m : Machine} {j : Nat} (hoccasion : occasion = .tick)
      (hrunnable : (m.isRunnable s.scope t.state).1 = true) (hdelay : 0 < (t.awake m.tick).delay)
      (hsit : (m.modifyThreadAt s.scope s.moduleIndex j fun _ => t.awake m.tick).sitter? s =
        some (t.awake m.tick)) :
    Fate occasion s t ⟨m, []⟩ ⟨m.modifyThreadAt s.scope s.moduleIndex j fun _ => t.awake m.tick, []⟩
  /-- Its turn begins. -/
  | entered {m : Machine} {j : Nat} (hoccasion : occasion = .tick)
      (hrunnable : (m.isRunnable s.scope t.state).1 = true) (hdelay : (t.awake m.tick).delay = 0)
      (hsit : (m.detach s.scope s.moduleIndex (fun _ => j) t.id).sitter? s =
        some (placeholder t.id)) :
    Fate occasion s t ⟨m, []⟩ ⟨m.detach s.scope s.moduleIndex (fun _ => j) t.id,
      [⟨t.awake m.tick, s.scope, s.moduleIndex, m.executing⟩]⟩

/-- **One beat:** a thread that sits in the tree stays as it is, or one of these things happens to it.
Nobody comes into a seat whose id has been given out. -/
theorem Pace.fate (h : Pace occasion home x y) (hs : x.machine.Known s)
    (hhome : occasion = .request → s.scope = home) :
    y.machine.sitter? s = x.machine.sitter? s ∨
      ∃ t, x.machine.sitter? s = some t ∧ Fate occasion s t x y := by
  obtain ⟨hbeat, hm, hfresh⟩ := h
  cases hbeat with
  | work scope ds hworks => exact .inl (by rw [sitter?, sitter?, threadsAt_of_bare hworks.bare])
  | perform => exact .inl rfl
  | ask m ds scope q =>
    cases q with
    | start i j args info forced =>
      rcases sitter?_startAt hs scope i j args info forced with heq |
        ⟨t, rfl, hheld, hlive, hpaused, hsit⟩
      · exact .inl heq
      · refine .inr ⟨t, hheld.sitter?, ?_⟩
        cases forced with
        | true => exact .replaced hheld hlive hsit
        | false => exact .resumed hheld (hpaused rfl) hsit
    | halt name pause =>
      rcases sitter?_setScriptState m scope name (haltState pause) s with
        ⟨t, ht, ⟨slot, hslot, rfl, hreach⟩, hsit⟩ | ⟨-, heq⟩
      · exact .inr ⟨t, ht, .halted ⟨slot, hslot, rfl, hreach⟩ hsit⟩
      · exact .inl heq
  | @result m ds u v map place scope i j args info takesName hmap hplace hv hname hu hid =>
    have hne : s ≠ ⟨scope, i, u.id⟩ := by
      rintro rfl
      rw [hid, make?_id hv] at hs
      exact not_known_next hmap i hs
    have hspawned := sitter?_spawn hs scope i j args info takesName
    obtain ⟨-, -, hm₁, -⟩ := hm.started hmap hplace hv hname hu hid hfresh
    have hat := getElem?_started hmap hplace hv takesName hu
    have hout := hm₁.distinct.sitter?_detach (k := fun ts => ts.findIdx (·.id == u.id)) hat s
    rw [if_neg hne, hspawned] at hout
    exact .inl hout
  | back m d ds =>
    rcases sitter?_reattach { m with executing := d.executing } d.scope d.moduleIndex d.thread s with
      heq | ⟨-, p, hp, hplace, hsit⟩
    · exact .inl heq
    · exact .inr ⟨p, hp, .returned hplace hsit⟩
  | rest hoccasion hthreads => exact .inl (by rw [sitter?, sitter?, hhome hoccasion, hthreads])
  | clock => exact .inl rfl
  | @reap m scope i j u hoccasion hactive hu hend =>
    have hsit := hm.distinct.sitter?_reap hu s
    split at hsit
    · rename_i hseat
      subst hseat
      exact .inr ⟨u, hm.distinct.sitter? hu, .reaped hoccasion hactive hu hend hsit⟩
    · exact .inl hsit
  | @wait m scope i j u hoccasion hu hrunnable hdelay =>
    have hsit := hm.distinct.sitter?_modifyThreadAt hu (t := u.awake m.tick) rfl s
    split at hsit
    · rename_i hseat
      subst hseat
      exact .inr ⟨u, hm.distinct.sitter? hu, .lowered hoccasion hrunnable hdelay hsit⟩
    · exact .inl hsit
  | @visit m scope i j u hoccasion hu hrunnable hdelay =>
    have hsit := hm.distinct.sitter?_detach (k := fun _ => j) hu s
    split at hsit
    · rename_i hseat
      subst hseat
      have hold := hm.distinct.sitter? hu
      rw [hold] at hsit
      exact .inr ⟨u, hold, .entered hoccasion hrunnable hdelay hsit⟩
    · exact .inl hsit

/-- Ids that have been given out stay so. -/
theorem Pace.known (h : Pace occasion home x y) (hoccasion : occasion ≠ .request)
    (hs : x.machine.Known s) : y.machine.Known s := by
  obtain ⟨hbeat, hm, hfresh⟩ := h
  cases hbeat with
  | work scope ds hworks => exact known_of_bare hworks.bare hs
  | perform => exact hs
  | ask m ds scope q => exact ((stirs_comply m scope q).orderly hm hfresh).2.known hs
  | result hmap hplace hv hname =>
    have hspawned := ((Stirs.spawn hmap hplace hv hname).orderly hm hfresh).2.known hs
    exact ((rewrites_detach ..).known s).2 hspawned
  | back m d ds =>
    obtain ⟨v, f, -, -, hback⟩ :=
      rewrites_reattach { m with executing := d.executing } d.scope d.moduleIndex d.thread
    exact (hback.known s).2 hs
  | rest hrequest => exact absurd hrequest hoccasion
  | clock => exact hs
  | reap _ _ hu => exact ((rewrites_reap hu).known s).2 hs
  | wait => exact ((rewrites_modifyThreadAt ..).known s).2 hs
  | visit => exact ((rewrites_detach ..).known s).2 hs

/-- What has been said stays said, and the services of the host stay. -/
theorem Beat.trace (h : Beat occasion home x y) (hoccasion : occasion ≠ .request) :
    x.machine.trace <:+ y.machine.trace ∧ y.machine.hooks = x.machine.hooks := by
  have hstirs : ∀ {m m' : Machine}, m.Stirs m' → m.trace <:+ m'.trace ∧ m'.hooks = m.hooks :=
    fun h => ⟨h.evolves.trace, congrArg (fun x => x.2.1) h.tools⟩
  cases h with
  | work scope ds hworks => exact hstirs hworks.stirs
  | perform => exact ⟨List.suffix_refl _, rfl⟩
  | ask m ds scope q => exact hstirs (stirs_comply ..)
  | result hmap hplace hv hname =>
    have hspawned := hstirs (.spawn hmap hplace hv hname)
    exact hspawned
  | back m d ds =>
    exact ⟨trace_reattach { m with executing := d.executing } .., congrArg (fun x => x.2.1)
      (reattach_tools { m with executing := d.executing } d.scope d.moduleIndex d.thread)⟩
  | rest hrequest => exact absurd hrequest hoccasion
  | clock => exact ⟨List.suffix_refl _, rfl⟩
  | reap _ _ hu hend =>
    rw [getElem?_threadsAt] at hu
    exact ⟨(evolves_reap ..).trace, congrArg (fun x => x.2.1) (Ticks.tools (.reap hu hend))⟩
  | wait => exact ⟨List.suffix_refl _, rfl⟩
  | visit => exact ⟨List.suffix_refl _, rfl⟩

/-! ### Threads that have ended -/

/-- The thread that had this seat has ended, and it may be gone. -/
def Ended (m : Machine) (s : Seat) : Prop :=
  m.Known s ∧ ∀ t, m.sitter? s = some t → t.state = .stopped

/-- A thread that is ended stays so, and it may be removed. -/
theorem Fate.stopped (h : Fate occasion s t x y) (hstate : t.state = .stopped) (ht' : y.machine.sitter? s = some t') :
    t'.state = .stopped := by
  have hnot : ∀ {b : Bool}, t.state.isFinished = b → b = true := by
    rintro b rfl
    rw [hstate]
    rfl
  cases h with
  | resumed hheld hpaused hsit =>
    rw [hstate] at hpaused
    cases hpaused
  | replaced hheld hlive hsit => cases hnot hlive
  | halted hreach hsit =>
    obtain ⟨slot, -, -, -, hreaches⟩ := hreach
    simp [reaches, hstate, ThreadState.isFinished] at hreaches
  | returned hplace hsit =>
    rw [hsit, hstate] at ht'
    cases ht'
    rfl
  | reaped _ hactive hat hend hsit =>
    rw [hsit] at ht'
    cases ht'
  | lowered _ hrunnable hdelay hsit =>
    rw [hstate] at hrunnable
    cases hrunnable
  | entered _ hrunnable hdelay hsit =>
    rw [hstate] at hrunnable
    cases hrunnable

/-- What has ended stays so along one pace. -/
theorem Pace.ended (h : Pace occasion home x y) (hoccasion : occasion ≠ .request)
    (hs : Ended x.machine s) : Ended y.machine s := by
  refine ⟨h.known hoccasion hs.1, fun t' ht' => ?_⟩
  rcases h.fate hs.1 (fun hrequest => absurd hrequest hoccasion) with heq | ⟨t, ht, hfate⟩
  · exact hs.2 t' (heq ▸ ht')
  · exact hfate.stopped (hs.2 t ht) ht'

/-- Nobody comes into the seat of a thread that is gone. -/
theorem Pace.gone (h : Pace occasion home x y) (hoccasion : occasion ≠ .request)
    (hs : x.machine.Known s ∧ x.machine.sitter? s = none) :
    y.machine.Known s ∧ y.machine.sitter? s = none := by
  refine ⟨h.known hoccasion hs.1, ?_⟩
  rcases h.fate hs.1 (fun hrequest => absurd hrequest hoccasion) with heq | ⟨t, ht, -⟩
  · exact heq.trans hs.2
  · cases ht.symm.trans hs.2

/-- What each beat keeps is kept along a course. -/
theorem Course.keeps {P : Moment → Prop} (h : Course occasion home x y)
    (hP : ∀ {x y}, Pace occasion home x y → P x → P y) (hx : P x) : P y := by
  induction h with
  | refl => exact hx
  | tail _ hpace ih => exact hP hpace ih

/-- What has ended stays so along a course. -/
theorem Course.ended (h : Course occasion home x y) (hoccasion : occasion ≠ .request)
    (hs : Ended x.machine s) : Ended y.machine s :=
  h.keeps (P := fun x => Ended x.machine s) (fun hpace => hpace.ended hoccasion) hs

/-- A seat that was left is not taken again, as its id is not given away twice. -/
theorem Course.gone (h : Course occasion home x y) (hoccasion : occasion ≠ .request)
    (hs : x.machine.Known s ∧ x.machine.sitter? s = none) :
    y.machine.Known s ∧ y.machine.sitter? s = none :=
  h.keeps (P := fun x => x.machine.Known s ∧ x.machine.sitter? s = none)
    (fun hpace => hpace.gone hoccasion) hs

/-- Along a course the trace grows and the services stay. -/
theorem Course.trace (h : Course occasion home x y) (hoccasion : occasion ≠ .request) :
    x.machine.trace <:+ y.machine.trace ∧ y.machine.hooks = x.machine.hooks := by
  induction h with
  | refl => exact ⟨List.suffix_refl _, rfl⟩
  | tail _ hpace ih =>
    obtain ⟨htrace, hhooks⟩ := hpace.beat.trace hoccasion
    exact ⟨ih.1.trans htrace, hhooks.trans ih.2⟩

/-! ### Threads that wait -/

/-- No thread of the map waits and sleeps at once. -/
def CalmAt (home : ScopeId) (m : Machine) : Prop := ∀ i, ∀ t ∈ m.threadsAt home i, t.Calm

/-- A calm thread stays calm when it is settled. -/
theorem calm_settled (h : t.Calm) (asked : ThreadState) : (settled t asked).Calm := by
  unfold settled
  split
  · exact calm_setState t rfl
  · split
    · exact h
    · exact calm_setState t rfl
  · exact h

/-- One thread of a module changes. -/
theorem CalmAt.modify {scope : ScopeId} {i : Nat} {k : List Thread → Nat} {f : Thread → Thread}
    (hm : CalmAt home m) (h : m.Rewrites scope i (fun ts => ts.modify (k ts) f) m')
    (hf : ∀ t, (f t).Calm) : CalmAt home m' := by
  intro n t ht
  rw [h.threads] at ht
  split at ht
  · rename_i hat
    obtain ⟨rfl, rfl⟩ := hat
    obtain ⟨l, hl⟩ := List.getElem?_of_mem ht
    rw [List.getElem?_modify] at hl
    obtain ⟨t₀, ht₀, rfl⟩ := Option.map_eq_some_iff.1 hl
    split
    · exact hf t₀
    · exact hm n t₀ (List.mem_of_getElem? ht₀)
  · exact hm n t ht

/-- A state that is no wait keeps the threads of a map calm. -/
theorem CalmAt.put (hm : CalmAt home m) {state : ThreadState} (hstate : state.isWait = false)
    (scope : ScopeId) (i : Nat) (k : Word) : CalmAt home (m.put scope i k state) :=
  hm.modify (rewrites_put m scope i k state) fun t => calm_setState t hstate

/-- New threads are calm. -/
theorem CalmAt.spawn (hm : CalmAt home m) (scope : ScopeId) (i j : Nat) (args : List Word)
    (info : ThreadInfo) (takesName : Bool) : CalmAt home (m.spawn scope i j args info takesName).2 := by
  intro n t ht
  rcases threadsAt_spawn m scope i j args info takesName with heq | ⟨map, v, -, -, hrunning, hthreads⟩
  · exact hm n t (heq ▸ ht)
  · rw [hthreads] at ht
    split at ht
    · rcases List.mem_append.1 ht with ht | ht
      · exact hm n t ht
      · rw [List.mem_singleton.1 ht]
        exact calm_of_running hrunning
    · exact hm n t ht

/-- What is asked for keeps the threads of a map calm. -/
theorem CalmAt.comply (hm : CalmAt home m) (scope : ScopeId) (q : Demand) :
    CalmAt home (m.comply scope q) := by
  cases q with
  | start i j args info forced =>
    rw [Machine.comply]
    rcases startAt_cases m scope i j args info forced with heq | ⟨takesName, heq⟩ |
      ⟨t, -, -, ⟨-, takesName, heq⟩ | ⟨-, -, text, heq⟩⟩
    · rw [heq]
      exact hm
    · rw [heq]
      exact hm.spawn scope i j args info takesName
    · rw [heq]
      exact CalmAt.spawn (hm.put rfl scope i t.id) scope i j args info takesName
    · rw [heq]
      have hput : CalmAt home (m.put scope i t.id .running) := hm.put rfl scope i t.id
      exact hput
  | halt name pause =>
    intro n t ht
    rw [Machine.comply] at ht
    cases hslot : m.resolveScript? scope name with
    | none =>
      rw [setScriptState, hslot] at ht
      exact hm n t ht
    | some slot =>
      rw [threadsAt_setScriptState hslot] at ht
      split at ht
      · obtain ⟨t₀, ht₀, rfl⟩ := List.mem_map.1 ht
        split
        · cases pause <;> exact calm_setState t₀ rfl
        · exact hm n t₀ ht₀
      · exact hm n t ht

/-- **One beat** leaves no thread of a map, and none that is out of the tree, that waits and sleeps at
once. -/
theorem Pace.calm (h : Pace occasion home x y)
    (hx : CalmAt home x.machine ∧ ∀ d ∈ x.out, d.thread.Calm) :
    CalmAt home y.machine ∧ ∀ d ∈ y.out, d.thread.Calm := by
  obtain ⟨hm, hout⟩ := hx
  obtain ⟨hbeat, hordered, hfresh⟩ := h
  cases hbeat with
  | work scope ds hworks => exact ⟨fun i t ht => hm i t (threadsAt_of_bare hworks.bare ▸ ht), hout⟩
  | perform hperforms =>
    refine ⟨hm, fun e he => ?_⟩
    rcases List.mem_cons.1 he with rfl | he
    · exact hperforms.calm
    · exact hout e (List.mem_cons_of_mem _ he)
  | ask m ds scope q => exact ⟨hm.comply scope q, hout⟩
  | @result m ds u v map place scope i j args info takesName hmap hplace hv hname hu hid =>
    -- the thread whose turn begins is the new one
    obtain ⟨rfl, -⟩ := hordered.started hmap hplace hv hname hu hid hfresh
    have hrunning : u.state = .running := by
      obtain ⟨script, -, rfl⟩ := Option.map_eq_some_iff.1 hv
      rfl
    have hspawned : CalmAt home (m.spawn scope i j args info takesName).2 :=
      CalmAt.spawn hm scope i j args info takesName
    generalize (m.spawn scope i j args info takesName).2 = m₁ at hspawned ⊢
    have hdetached := hspawned.modify (f := fun _ => placeholder u.id)
      (rewrites_detach m₁ scope i (fun ts => ts.findIdx (·.id == u.id)) u.id) fun _ => calm_of_running rfl
    refine ⟨hdetached, fun e he => ?_⟩
    rcases List.mem_cons.1 he with rfl | he
    · exact calm_of_running hrunning
    · exact hout e he
  | back m d ds =>
    refine ⟨?_, fun e he => hout e (List.mem_cons_of_mem _ he)⟩
    have hm : CalmAt home { m with executing := d.executing } := hm
    rcases rewrites_settled { m with executing := d.executing } d.scope d.moduleIndex d.thread with
      ⟨p, -, -, hback⟩ | hscopes
    · exact hm.modify hback fun _ => calm_settled (hout d List.mem_cons_self) _
    · exact fun i t ht => hm i t (threadsAt_congr hscopes ▸ ht)
  | rest hoccasion hthreads => exact ⟨fun i t ht => hm i t (hthreads i ▸ ht), hout⟩
  | clock => exact ⟨hm, hout⟩
  | reap _ _ hu hend =>
    refine ⟨fun n t ht => ?_, hout⟩
    rw [(rewrites_reap hu).threads] at ht
    split at ht
    · exact hm n t (List.mem_of_mem_eraseIdx ht)
    · exact hm n t ht
  | @wait m scope i j u =>
    exact ⟨hm.modify (rewrites_modifyThreadAt m scope i j fun _ => u.awake m.tick) fun _ =>
      calm_of_running rfl, hout⟩
  | @visit m scope i j u =>
    refine ⟨hm.modify (f := fun _ => placeholder u.id) (rewrites_detach m scope i (fun _ => j) u.id)
      fun _ => calm_of_running rfl, fun e he => ?_⟩
    rw [List.mem_singleton.1 he]
    exact calm_of_running rfl

/-- Along a course threads stay calm. -/
theorem Course.calm (h : Course occasion home x y)
    (hx : CalmAt home x.machine ∧ ∀ d ∈ x.out, d.thread.Calm) : CalmAt home y.machine :=
  (h.keeps (P := fun x => CalmAt home x.machine ∧ ∀ d ∈ x.out, d.thread.Calm)
    (fun hpace => hpace.calm) hx).1

end Moment

end ScriptMachine
