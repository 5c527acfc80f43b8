import Mathlib.Data.List.Forall2
import ScriptMachine.Machine.Step
import ScriptMachine.Proofs.Scope.Evolution
import ScriptMachine.Proofs.StringTable.Keeping

/-!
# The pieces that scripts are made of

Whatever a script does to the machine, and whatever is asked of scripts from outside, is made of few
pieces: a message is left, the generator or the locks of strings move, variables are set, threads in
the tree are put into a state, and a thread is added at the start of a script.  `Machine.Stirs` is
what a sequence of such pieces comes to.  This module goes through the functions of the machine that
carry out instructions and requests about scripts, and takes each of them apart; what holds of the
pieces then holds of all of them.
-/

namespace ScriptMachine

/-- Whether an event tells of the beginning or the end of a thread. -/
def Event.isLife : Event → Bool
  | .threadStart _ => true
  | .threadStop _ => true
  | _ => false

/-- The thread is as it was, but for its state, which is one that threads are put into. -/
def Thread.Restates (t t' : Thread) : Prop :=
  t' = t ∨ ∃ state, state ≠ .inactive ∧ t' = { t with state }

/-- A thread with another state is restated. -/
theorem Thread.Restates.restated {t t' : Thread} (h : t.Restates t') (now : Nat) :
    t.Restated now t' := by
  rcases h with rfl | ⟨state, -, rfl⟩
  · exact .refl t'
  · exact .setState t state

/-- A thread with another state stays where it is. -/
theorem Thread.Restates.stays {t t' : Thread} (h : t.Restates t') : Thread.Stays t t' := by
  rcases h with rfl | ⟨state, -, rfl⟩
  · exact .refl _
  · exact (Thread.Stays.refl t).setState state

/-- Threads that are put into states keep their ids. -/
theorem map_id_of_restates {ts ts' : List Thread} (h : List.Forall₂ Thread.Restates ts ts') :
    ts'.map (·.id) = ts.map (·.id) := by
  induction h with
  | nil => rfl
  | cons h _ ih => rw [List.map_cons, List.map_cons, ih, (h.restated 0).stays.id]

/-- A name leads to the script at these numbers, which is not one to run several times at once. -/
def MapScope.Single (map : MapScope) (i j : Nat) : Prop :=
  ∃ name slot, map.slots.find? name = some slot ∧ slot.moduleIndex = i ∧ slot.scriptIndex = j ∧
    ∀ x, map.script? i j = some x → x.multi = false

/-- The first element with a property is changed in place. -/
theorem updateFirst_eq_modify {α : Type} (p : α → Bool) (f : α → α) (l : List α) :
    updateFirst p f l = l.modify (l.findIdx p) f := by
  induction l with
  | nil => rfl
  | cons x l ih =>
    rw [updateFirst, List.findIdx_cons]
    cases p x with
    | true => rfl
    | false => simp [ih]

/-- A change of one element relates the list to the changed one. -/
theorem forall₂_modify {α : Type} {R : α → α → Prop} {f : α → α} (hrefl : ∀ x, R x x)
    (hf : ∀ x, R x (f x)) (l : List α) (n : Nat) : List.Forall₂ R l (l.modify n f) := by
  induction l generalizing n with
  | nil => simp
  | cons x l ih =>
    cases n with
    | zero => exact .cons (hf x) (List.forall₂_same.2 fun y _ => hrefl y)
    | succ n => exact .cons (hrefl x) (ih n)

namespace Machine

/-- What the pieces of scripts do to a machine, one after another. -/
inductive Stirs : Machine → Machine → Prop
  | refl (m : Machine) : Stirs m m
  | trans {m₁ m₂ m₃ : Machine} (h : Stirs m₁ m₂) (h' : Stirs m₂ m₃) : Stirs m₁ m₃
  /-- A message is left. -/
  | note (m : Machine) {e : Event} (h : e.isLife = false) : Stirs m (m.emit e)
  /-- The generator, the list of running modules and the locks of strings move. -/
  | aside (m : Machine) (rng : Word) (running : List Nat) {strings : StringTable}
      (h : StringTable.SameStrings m.strings strings) : Stirs m { m with rng, running, strings }
  | vars (m : Machine) (level : Level) (id : ScopeId) (i : Nat) (f : Vars → Vars) :
    Stirs m { m with scopes := m.scopes.modifyVars level id i f }
  /-- Threads of a module are put into states. -/
  | restate (m : Machine) (scope : ScopeId) (i : Nat) {f : List Thread → List Thread}
      (hf : ∀ ts, List.Forall₂ Thread.Restates ts (f ts)) :
    Stirs m { m with scopes := m.scopes.modifyModule scope i fun s =>
      { s with threads := f s.threads } }
  /-- A thread is added at the start of a script; it takes the script's name only where the name
  leads there and one thread holds it. -/
  | spawn {m : Machine} {map : MapScope} {place : ModuleScope} {scope : ScopeId} {i j : Nat}
      {args : List Word} {info : ThreadInfo} {takesName : Bool} {t : Thread}
      (hmap : m.scopes.map? scope = some map) (hplace : map.modules[i]? = some place)
      (ht : Thread.make? map.nextThreadId place.module scope i j args info = some t)
      (hname : takesName = true → map.Single i j) :
    Stirs m (m.spawn scope i j args info takesName).2
  /-- An id is used up for a script that is not there. -/
  | stray {m : Machine} {map : MapScope} {scope : ScopeId} {name : ScriptName} {slot : ScriptSlot}
      (hmap : m.scopes.map? scope = some map) (hslot : map.slots.find? name = some slot)
      (hstray : ¬ map.Leads slot) :
    Stirs m { m with scopes := m.scopes.modifyMap scope fun _ => map.takeThreadId.2 }

/-- The pieces among these that leave all threads alone, and of the variables change only those seen
from the map `scope`. -/
inductive Works (scope : ScopeId) : Machine → Machine → Prop
  | refl (m : Machine) : Works scope m m
  | trans {m₁ m₂ m₃ : Machine} (h : Works scope m₁ m₂) (h' : Works scope m₂ m₃) : Works scope m₁ m₃
  | note (m : Machine) {e : Event} (h : e.isLife = false) : Works scope m (m.emit e)
  | aside (m : Machine) (rng : Word) (running : List Nat) {strings : StringTable}
      (h : StringTable.SameStrings m.strings strings) : Works scope m { m with rng, running, strings }
  | vars (m : Machine) (level : Level) (i : Nat) (f : Vars → Vars) :
    Works scope m { m with scopes := m.scopes.modifyVars level scope i f }

/-- Works of a script stir the machine. -/
theorem Works.stirs {scope : ScopeId} {m m' : Machine} (h : Works scope m m') : m.Stirs m' := by
  induction h with
  | refl m => exact .refl m
  | trans _ _ ih ih' => exact ih.trans ih'
  | note m h => exact .note m h
  | aside m rng running h => exact .aside m rng running h
  | vars m level i f => exact .vars m level scope i f

variable {m m' : Machine} {t t' : Thread}

/-- The reports of beginnings and ends of threads, the newest first. -/
def reports (m : Machine) : List Event := m.trace.filter Event.isLife

/-- Events that tell of no life leave the reports alone. -/
theorem reports_append (m : Machine) {events : List Event} (h : ∀ e ∈ events, e.isLife = false) :
    ({ m with trace := events ++ m.trace } : Machine).reports = m.reports := by
  have hnone : events.filter Event.isLife = [] := List.filter_eq_nil_iff.2 fun e he => by simp [h e he]
  rw [reports, List.filter_append, hnone]
  rfl

/-- An event that tells of no life leaves the reports alone. -/
theorem reports_emit (m : Machine) {e : Event} (h : e.isLife = false) :
    (m.emit e).reports = m.reports :=
  reports_append m (List.forall_mem_singleton.2 h)

/-- A report that tells of no life leaves the reports alone. -/
theorem reports_report (m : Machine) (k : Hook) {e : Event} (h : e.isLife = false) :
    (m.report k e).reports = m.reports := by
  unfold report
  split
  · exact reports_emit m h
  · rfl

/-- A message is a work on any path. -/
theorem works_log {scope : ScopeId} (m : Machine) (level : LogLevel) (text : String) :
    Works scope m (m.log level text) :=
  .note m rfl

/-- A report that tells of no life is a work on any path. -/
theorem works_report {scope : ScopeId} (m : Machine) (k : Hook) {e : Event} (h : e.isLife = false) :
    Works scope m (m.report k e) := by
  unfold report
  split
  · exact .note m h
  · exact .refl m

theorem stirs_log (m : Machine) (level : LogLevel) (text : String) : m.Stirs (m.log level text) :=
  .note m rfl

/-! ## New threads -/

/-- The message that a script was started. -/
def startText (shown place : String) (id : Word) : String :=
  s!"started script {shown} in {place} as thread {id}"

/-- The map with a new thread, which may take the name of its script. -/
def withThread (map : MapScope) (i : Nat) (t : Thread) (takesName : Bool) : MapScope :=
  let map := map.takeThreadId.2.modifyModule i fun s => { s with threads := s.threads ++ [t] }
  match takesName, t.scriptName? with
  | true, some n => { map with slots := map.slots.modify n fun s => { s with thread := some t.id } }
  | _, _ => map

/-- The new thread is last in its module scope. -/
theorem withThread_modules (map : MapScope) (i : Nat) (t : Thread) (takesName : Bool) :
    (withThread map i t takesName).modules =
      map.modules.modify i fun s => { s with threads := s.threads ++ [t] } := by
  unfold withThread
  split <;> rfl

/-- The new thread takes one id. -/
theorem withThread_nextThreadId (map : MapScope) (i : Nat) (t : Thread) (takesName : Bool) :
    (withThread map i t takesName).nextThreadId = map.takeThreadId.2.nextThreadId := by
  unfold withThread
  split <;> rfl

/-- No name goes to a thread that is not there. -/
theorem slotsWithin_withThread (map : MapScope) (i : Nat) (t : Thread) (takesName : Bool) :
    MapScope.SlotsWithin map.slots (withThread map i t takesName).slots := by
  unfold withThread
  split
  · exact .modify _ _ fun _ => ⟨rfl, rfl⟩
  · exact .refl _

/-- A thread has the id it was made with. -/
theorem make?_id {id : Word} {x : LoadedModule} {scope : ScopeId} {i j : Nat} {args : List Word}
    {info : ThreadInfo} (h : Thread.make? id x scope i j args info = some t) : t.id = id := by
  obtain ⟨s, -, rfl⟩ := Option.map_eq_some_iff.1 h
  rfl

/-- What starting a script comes to, where the script is there. -/
theorem spawn_eq {map : MapScope} {place : ModuleScope} {scope : ScopeId} {i j : Nat}
    {args : List Word} {info : ThreadInfo} (hmap : m.scopes.map? scope = some map)
    (hplace : map.modules[i]? = some place)
    (ht : Thread.make? map.nextThreadId place.module scope i j args info = some t)
    (takesName : Bool) :
    m.spawn scope i j args info takesName =
      (some map.nextThreadId,
        let m := { m with scopes := m.scopes.modifyMap scope fun _ => withThread map i t takesName }
        let m := m.log .debug
          (startText ((t.scriptName?.map (·.display)).getD "?") scope.display map.nextThreadId)
        match ((withThread map i t takesName).modules[i]?).bind (·.thread? map.nextThreadId) with
        | some t => m.report .threadStart (.threadStart t)
        | none => m) := by
  have hid := make?_id ht
  have hid' : map.takeThreadId.1 = map.nextThreadId := rfl
  have hmodules : map.takeThreadId.2.modules = map.modules := rfl
  unfold spawn
  simp only [hmap, hid', hmodules, hplace, ht]
  unfold withThread
  rw [hid]
  rfl

/-- A script that is there can be started. -/
theorem exists_make? {map : MapScope} {place : ModuleScope} {i j : Nat}
    (hplace : map.modules[i]? = some place) (hscript : (map.script? i j).isSome) (id : Word)
    (scope : ScopeId) (args : List Word) (info : ThreadInfo) :
    ∃ t, Thread.make? id place.module scope i j args info = some t := by
  obtain ⟨s, hs⟩ := Option.isSome_iff_exists.1 hscript
  have hs' : place.module.scripts[j]? = some s := by
    simpa [MapScope.script?, hplace] using hs
  exact ⟨_, by rw [Thread.make?, hs']; rfl⟩

/-- Reports leave the tree alone. -/
theorem report_scopes (m : Machine) (k : Hook) (e : Event) : (m.report k e).scopes = m.scopes := by
  unfold report
  split <;> rfl

/-- A new thread changes its map only. -/
theorem spawn_scopes {map : MapScope} {place : ModuleScope} {scope : ScopeId} {i j : Nat}
    {args : List Word} {info : ThreadInfo} (hmap : m.scopes.map? scope = some map)
    (hplace : map.modules[i]? = some place)
    (ht : Thread.make? map.nextThreadId place.module scope i j args info = some t)
    (takesName : Bool) :
    (m.spawn scope i j args info takesName).2.scopes =
      m.scopes.modifyMap scope fun _ => withThread map i t takesName := by
  rw [spawn_eq hmap hplace ht]
  simp only
  split
  · exact report_scopes ..
  · rfl

/-- The new thread is the last one of its module. -/
theorem module?_spawn {map : MapScope} {place : ModuleScope} {scope : ScopeId} {i j : Nat}
    {args : List Word} {info : ThreadInfo} (hmap : m.scopes.map? scope = some map)
    (hplace : map.modules[i]? = some place)
    (ht : Thread.make? map.nextThreadId place.module scope i j args info = some t)
    (takesName : Bool) :
    (m.spawn scope i j args info takesName).2.scopes.module? scope i =
      some { place with threads := place.threads ++ [t] } := by
  rw [spawn_scopes hmap hplace ht, ScopeTree.module?_eq, ScopeTree.map?_modifyMap, if_pos rfl, hmap]
  simp [withThread_modules, hplace]

/-- Where a thread was added, the map and the script were there. -/
theorem exists_of_spawn {scope : ScopeId} {i j : Nat} {args : List Word} {info : ThreadInfo}
    {takesName : Bool} {id : Word} (h : m.spawn scope i j args info takesName = (some id, m')) :
    ∃ map place t, m.scopes.map? scope = some map ∧ map.modules[i]? = some place ∧
      Thread.make? map.nextThreadId place.module scope i j args info = some t ∧
      map.nextThreadId = id := by
  cases hmap : m.scopes.map? scope with
  | none =>
    rw [spawn, hmap] at h
    cases h
  | some map =>
    have hmodules : map.takeThreadId.2.modules = map.modules := rfl
    unfold spawn at h
    simp only [hmap, hmodules] at h
    cases hplace : map.modules[i]? with
    | none =>
      simp only [hplace] at h
      cases h
    | some place =>
      simp only [hplace] at h
      cases ht : Thread.make? map.takeThreadId.1 place.module scope i j args info with
      | none =>
        simp only [ht] at h
        cases h
      | some t =>
        simp only [ht] at h
        exact ⟨map, place, t, rfl, hplace, ht, Option.some.inj (congrArg Prod.fst h)⟩

/-- A new thread.  The script has to be there, unless a script name leads nowhere. -/
theorem stirs_spawn (scope : ScopeId) (i j : Nat) (args : List Word) (info : ThreadInfo)
    (takesName : Bool)
    (h : ∀ map, m.scopes.map? scope = some map → (map.script? i j).isSome ∨
      ∃ name slot, map.slots.find? name = some slot ∧ ¬ map.Leads slot)
    (hname : ∀ map, m.scopes.map? scope = some map → takesName = true → map.Single i j) :
    m.Stirs (m.spawn scope i j args info takesName).2 := by
  cases hmap : m.scopes.map? scope with
  | none =>
    rw [spawn, hmap]
    exact .refl m
  | some map =>
    by_cases hscript : (map.script? i j).isSome
    · obtain ⟨place, hplace⟩ : ∃ place, map.modules[i]? = some place := by
        cases hplace : map.modules[i]? with
        | none => simp [MapScope.script?, hplace] at hscript
        | some place => exact ⟨place, rfl⟩
      obtain ⟨t, ht⟩ := exists_make? hplace hscript map.nextThreadId scope args info
      exact .spawn hmap hplace ht (hname map hmap)
    · obtain ⟨name, slot, hslot, hstray⟩ := (h map hmap).resolve_left hscript
      have hmodules : map.takeThreadId.2.modules = map.modules := rfl
      unfold spawn
      simp only [hmap, hmodules]
      cases hplace : map.modules[i]? with
      | none => exact .stray hmap hslot hstray
      | some place =>
        have hnone : Thread.make? map.takeThreadId.1 place.module scope i j args info = none := by
          have : place.module.scripts[j]? = none := by
            simpa [MapScope.script?, hplace] using hscript
          rw [Thread.make?, this]
          rfl
        simp only [hnone]
        exact .stray hmap hslot hstray

/-! ## Starting and stopping scripts -/

/-- Which script stands where does not depend on the threads. -/
theorem script?_modifyModule (map : MapScope) (i : Nat) {f : ModuleScope → ModuleScope}
    (hf : ∀ s, (f s).module = s.module) (k j : Nat) :
    (map.modifyModule i f).script? k j = map.script? k j := by
  simp only [MapScope.script?, MapScope.modifyModule, List.getElem?_modify]
  cases map.modules[k]? with
  | none => rfl
  | some s =>
    simp only [Option.map_eq_map, Option.map_some, Option.bind_eq_bind, Option.bind_some]
    split
    · rw [hf]
    · rfl

/-- The first thread with an id is put into a state. -/
theorem stirs_modifyState (scope : ScopeId) (i : Nat) (id : Word) (state : ThreadState)
    (hstate : state ≠ .inactive) :
    m.Stirs { m with
      scopes := m.scopes.modifyModule scope i fun s => s.modifyThread id fun t => { t with state } } := by
  have hstir := Stirs.restate m scope i (f := updateFirst (·.id == id) fun t => { t with state })
    fun ts => by
      rw [updateFirst_eq_modify]
      exact forall₂_modify (fun t => .inl rfl) (fun t => .inr ⟨state, hstate, rfl⟩) ts _
  exact hstir

/-- A name that leads to the script at these numbers, and whose script is not one to run several
times, is the name of the script. -/
theorem single_of_ownsName {map : MapScope} {i j : Nat} {script : Script}
    (hscript : map.script? i j = some script)
    (howns : (ownsName map script.name i j && !script.multi) = true) : map.Single i j := by
  rw [Bool.and_eq_true, ownsName] at howns
  obtain ⟨hname, hmulti⟩ := howns
  split at hname
  · rename_i slot hslot
    rw [Bool.and_eq_true, beq_iff_eq, beq_iff_eq] at hname
    refine ⟨script.name, slot, hslot, hname.1, hname.2, fun x hx => ?_⟩
    cases hscript.symm.trans hx
    simpa using hmulti
  · cases hname

theorem stirs_startAt (scope : ScopeId) (i j : Nat) (args : List Word) (info : ThreadInfo)
    (forced : Bool) : m.Stirs (m.startAt scope i j args info forced).2 := by
  unfold startAt
  cases hmap : m.scopes.map? scope with
  | none => exact .refl m
  | some map =>
    simp only
    cases hscript : map.script? i j with
    | none => exact .refl m
    | some script =>
      simp only
      have hsingle := single_of_ownsName hscript
      generalize (ownsName map script.name i j && !script.multi) = owns at hsingle
      have hstart : ∀ (m₁ : Machine) (map₁ : MapScope), m₁.scopes.map? scope = some map₁ →
          map₁.script? i j = map.script? i j → map₁.slots = map.slots →
          m₁.Stirs (m₁.spawn scope i j args info owns).2 := by
        intro m₁ map₁ hmap₁ hscript₁ hslots
        refine stirs_spawn scope i j args info owns (fun map' hmap' => .inl ?_)
          fun map' hmap' howns => ?_
        · cases hmap₁.symm.trans hmap'
          simp [hscript₁, hscript]
        · cases hmap₁.symm.trans hmap'
          obtain ⟨name, slot, hslot, hi, hj, hmulti⟩ := hsingle howns
          exact ⟨name, slot, hslots ▸ hslot, hi, hj, hscript₁ ▸ hmulti⟩
      split
      · exact hstart m map hmap rfl rfl
      · rename_i t _
        split
        · exact hstart m map hmap rfl rfl
        · split
          · refine (stirs_modifyState scope i t.id .stopped (by decide)).trans ?_
            refine hstart _ (map.modifyModule i fun s => s.modifyThread t.id fun t =>
              { t with state := .stopped }) ?_ ?_ rfl
            · simp only [ScopeTree.modifyModule, ScopeTree.map?_modifyMap, hmap, if_true]
              rfl
            · rw [script?_modifyModule]
              exact fun _ => rfl
          · split
            · exact (stirs_modifyState scope i t.id .running (by decide)).trans (stirs_log ..)
            · exact .refl m

theorem stirs_startScript (scope : ScopeId) (name : ScriptName) (args : List Word)
    (info : ThreadInfo) : m.Stirs (m.startScript scope name args info).2 := by
  unfold startScript
  split
  · exact .refl m
  · exact stirs_startAt ..

theorem stirs_startForced (scope : ScopeId) (name : ScriptName) (args : List Word)
    (info : ThreadInfo) : m.Stirs (m.startForced scope name args info).2 := by
  unfold startForced
  split
  · exact .refl m
  · exact stirs_startAt ..

theorem stirs_startAll (m : Machine) (scope : ScopeId) (args : List Word) (info : ThreadInfo)
    (targets : List (Nat × Nat)) : m.Stirs (m.startAll scope args info targets).2 := by
  induction targets generalizing m with
  | nil => exact .refl m
  | cons p rest ih => exact (stirs_startAt scope p.1 p.2 args info false).trans (ih _)

theorem stirs_startType (scope : ScopeId) (type : Word) (args : List Word) (info : ThreadInfo) :
    m.Stirs (m.startType scope type args info).2 := by
  unfold startType
  split
  · exact .refl m
  · exact stirs_startAll ..

/-- Setting the state of a script stirs the machine. -/
theorem stirs_setScriptState (scope : ScopeId) (name : ScriptName) {state : ThreadState}
    (hstate : state ≠ .inactive) : m.Stirs (m.setScriptState scope name state).2 := by
  unfold setScriptState
  split
  · exact .refl m
  · rename_i slot _
    split
    · exact .refl m
    · simp only
      split
      · refine Stirs.trans (.restate m scope slot.moduleIndex (f := fun ts => ts.map fun t =>
          if reaches slot.scriptIndex slot.thread t then { t with state } else t) fun ts => ?_)
          (stirs_log ..)
        rw [List.forall₂_map_right_iff]
        refine List.forall₂_same.2 fun t _ => ?_
        split
        · exact .inr ⟨state, hstate, rfl⟩
        · exact .inl rfl
      · exact .refl m

/-- Looking whether a thread may run is a work on its path. -/
theorem works_isRunnable (scope : ScopeId) (state : ThreadState) :
    Works scope m (m.isRunnable scope state).2 := by
  unfold isRunnable
  split
  · exact .refl m
  · exact .refl m
  · exact .refl m
  · split
    · exact .note m rfl
    · exact .refl m
  · exact .refl m

theorem stirs_isRunnable (scope : ScopeId) (state : ThreadState) :
    m.Stirs (m.isRunnable scope state).2 :=
  (works_isRunnable scope state).stirs

/-! ## Instructions -/

/-- A kill is a work on the path of its thread. -/
theorem works_kill (t : Thread) (reason : KillReason) (data : Word) :
    Works t.scope m (m.kill t reason data).1 :=
  (works_log ..).trans (works_report _ _ rfl)

theorem stirs_kill (t : Thread) (reason : KillReason) (data : Word) :
    m.Stirs (m.kill t reason data).1 :=
  (works_kill t reason data).stirs

/-- A drawn number is a work on any path. -/
theorem works_random {scope : ScopeId} (m : Machine) (a b : Int32) : Works scope m (m.random a b).2 :=
  .aside m _ m.running (.refl _)

theorem stirs_random (m : Machine) (a b : Int32) : m.Stirs (m.random a b).2 :=
  Works.stirs (works_random m a b : Works {} m _)

/-- A store into an array of strings moves locks. -/
theorem sameStrings_store (v : Vars) (i k w : Word) (t : StringTable) :
    StringTable.SameStrings t (v.store i k w t).2 := by
  unfold Vars.store
  split
  · exact .refl t
  · split
    · simp only [Sparse.setString]
      split
      · exact (StringTable.sameStrings_lock ..).trans (StringTable.sameStrings_unlock ..)
      · exact StringTable.sameStrings_lock ..
    · exact .refl t

/-- Access to a variable is a work on the path of the thread. -/
theorem works_accessVar (t : Thread) (level : Level) (action : VarAction) (i : Word) :
    Works t.scope m (m.accessVar t level action i).1 := by
  have hpop : ∀ u : Thread, u.pop.2.scope = u.scope := fun u => by
    unfold Thread.pop
    split <;> rfl
  cases action with
  | pushReg => exact .refl m
  | dropReg =>
    cases level with
    | thread => exact .refl m
    | _ =>
      simp only [accessVar, hpop]
      exact .vars ..
  | incReg =>
    cases level with
    | thread => exact .refl m
    | _ => exact .vars ..
  | decReg =>
    cases level with
    | thread => exact .refl m
    | _ => exact .vars ..
  | pushArr => cases level <;> exact .refl m
  | dropArr =>
    have hstore : ∀ (level : Level) (n : Nat) (v : Vars) (k w : Word), Works t.scope m { m with
          strings := (v.store i k w m.strings).2
          scopes := m.scopes.modifyVars level t.scope n fun _ => (v.store i k w m.strings).1 } :=
      fun level n v k w => Works.trans (.vars m level n fun _ => _)
        (.aside _ m.rng m.running (sameStrings_store v i k w m.strings))
    cases level with
    | thread => exact .refl m
    | _ =>
      simp only [accessVar, hpop]
      split
      · exact .refl m
      · exact hstore ..

theorem stirs_accessVar (t : Thread) (level : Level) (action : VarAction) (i : Word) :
    m.Stirs (m.accessVar t level action i).1 :=
  (works_accessVar t level action i).stirs

/-- The end of a message is a work on the path of the thread. -/
theorem works_endMessage (t : Thread) : Works t.scope m (m.endMessage t).1 := by
  simp only [endMessage]
  split
  · exact .note m rfl
  · exact works_log ..

theorem stirs_endMessage (t : Thread) : m.Stirs (m.endMessage t).1 := (works_endMessage t).stirs

/-- Printing an array is a work on the path of the thread. -/
theorem works_printArray (t : Thread) (i : Word) : Works t.scope m (m.printArray t i).1 := by
  unfold printArray
  split
  · exact .refl m
  · split
    · exact .note m rfl
    · exact .refl m

theorem stirs_printArray (t : Thread) (i : Word) : m.Stirs (m.printArray t i).1 :=
  (works_printArray t i).stirs

/-- Halting scripts of the own map stirs the machine. -/
theorem stirs_haltFrom (t : Thread) (pause : Bool) (name : Option ScriptName) :
    m.Stirs (m.haltFrom t pause name).1 := by
  unfold haltFrom
  split
  · exact .refl m
  · have hstate : (if pause = true then ThreadState.paused else ThreadState.stopped) ≠ .inactive := by
      split <;> decide
    simp only
    generalize (if pause = true then ThreadState.paused else ThreadState.stopped) = state at hstate
    split <;> exact stirs_setScriptState _ _ hstate

end Machine

end ScriptMachine
