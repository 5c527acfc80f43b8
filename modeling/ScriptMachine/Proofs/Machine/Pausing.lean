import ScriptMachine.Proofs.Machine.Beats

/-!
# Pausing a script and starting it again

A pause puts every thread of the script into the state `paused`, whatever it was doing.  A start looks
for the thread that holds the name of the script, and if it finds it paused, it makes it run.  So of a
thread that waited it is forgotten what it waited for, and a thread that does not hold the name stays
paused: another one is started beside it.  Everything else about the threads is as it was
(`pauseScript_startScript`).
-/

namespace ScriptMachine.Machine

variable {m : Machine} {scope : ScopeId} {i j k : Nat} {t : Thread}

/-- The id that holds the name of a script.  There is none for a script that may run several times at
once, nor for one to which its own name does not lead. -/
def holderId? (m : Machine) (scope : ScopeId) (i k : Nat) : Option Word := do
  let map ← m.scopes.map? scope
  let script ← map.script? i k
  let slot ← map.slots.find? script.name
  if slot.moduleIndex = i ∧ slot.scriptIndex = k ∧ script.multi = false then slot.thread else none

/-- The place of the thread that holds the name of a script, among the threads of the module. -/
def holderPlace? (m : Machine) (scope : ScopeId) (i k : Nat) : Option Nat :=
  (m.holderId? scope i k).map fun id => (m.threadsAt scope i).findIdx (·.id == id)

/-! ## What a start does to a thread that is there -/

/-- A start looks for the first thread with the id that holds the name. -/
theorem scriptThread?_of_owns {map : MapScope} {x : Script} (hmap : m.scopes.map? scope = some map)
    (hx : map.script? i k = some x) :
    (if ownsName map x.name i k && !x.multi then map.scriptThread? x.name else none) =
      (m.holderId? scope i k).bind fun id => (m.threadsAt scope i).find? (·.id == id) := by
  cases hslot : map.slots.find? x.name with
  | none => simp [holderId?, hmap, hx, hslot, ownsName]
  | some slot =>
    simp only [holderId?, hmap, hx, hslot, ownsName, MapScope.scriptThread?, Option.bind_eq_bind,
      Option.bind_some]
    by_cases hat : slot.moduleIndex = i ∧ slot.scriptIndex = k ∧ x.multi = false
    · obtain ⟨rfl, rfl, hsingle⟩ := hat
      simp only [hsingle, beq_self_eq_true, Bool.and_self, Bool.not_false, if_true, and_self]
      cases slot.thread with
      | none => rfl
      | some id =>
        simp only [Option.bind_some, threadsAt, ScopeTree.module?_eq, hmap]
        cases map.modules[slot.moduleIndex]? <;> rfl
    · rw [if_neg hat, if_neg]
      · rfl
      · simpa [and_assoc] using hat

/-- New threads come behind those that are there. -/
theorem getElem?_threadsAt_spawn (ht : (m.threadsAt scope i)[j]? = some t) (args : List Word)
    (info : ThreadInfo) (takesName : Bool) :
    ((m.spawn scope i k args info takesName).2.threadsAt scope i)[j]? = some t := by
  rcases threadsAt_spawn m scope i k args info takesName with heq | ⟨map, v, -, -, -, hthreads⟩
  · rw [heq, ht]
  · rw [hthreads, if_pos ⟨rfl, rfl⟩, List.getElem?_append_left (List.getElem?_eq_some_iff.1 ht).1, ht]

/-- A state is put into the first thread with the id. -/
theorem getElem?_threadsAt_put (ht : (m.threadsAt scope i)[j]? = some t) (id : Word)
    (state : ThreadState) :
    ((m.put scope i id state).threadsAt scope i)[j]? =
      some (if (m.threadsAt scope i).findIdx (·.id == id) = j then { t with state } else t) := by
  rw [(rewrites_put m scope i id state).threads, if_pos ⟨rfl, rfl⟩, List.getElem?_modify, ht]
  split <;> rfl

/-- **A start** makes the thread that holds the name run if it is paused, and leaves the others alone. -/
theorem getElem?_threadsAt_startAt (ht : (m.threadsAt scope i)[j]? = some t) (args : List Word)
    (info : ThreadInfo) :
    ((m.startAt scope i k args info false).2.threadsAt scope i)[j]? =
      some (if m.holderPlace? scope i k = some j ∧ t.state = .paused then { t with state := .running }
        else t) := by
  have hlt : j < (m.threadsAt scope i).length := (List.getElem?_eq_some_iff.1 ht).1
  cases hmap : m.scopes.map? scope with
  | none => simp [startAt, holderPlace?, holderId?, hmap, ht]
  | some map =>
    cases hx : map.script? i k with
    | none => simp [startAt, holderPlace?, holderId?, hmap, hx, ht]
    | some x =>
      cases hid : m.holderId? scope i k with
      | none =>
        simp only [startAt, hmap, hx, scriptThread?_of_owns hmap hx, holderPlace?, hid]
        exact getElem?_threadsAt_spawn ht ..
      | some id =>
        have hplace : m.holderPlace? scope i k = some ((m.threadsAt scope i).findIdx (·.id == id)) := by
          rw [holderPlace?, hid]
          rfl
        simp only [hplace, Option.some.injEq]
        cases hfind : (m.threadsAt scope i).find? (·.id == id) with
        | none =>
          -- nobody has the id, so its place is behind the last thread
          have hend : (m.threadsAt scope i).findIdx (·.id == id) = (m.threadsAt scope i).length := by
            refine List.findIdx_eq_length.2 fun u hu => ?_
            simpa using List.find?_eq_none.1 hfind u hu
          rw [hend, if_neg fun h => absurd h.1 (Nat.ne_of_gt hlt)]
          simp only [startAt, hmap, hx, scriptThread?_of_owns hmap hx, hid, Option.bind_some, hfind]
          exact getElem?_threadsAt_spawn ht ..
        | some u =>
          have huid : u.id = id := by simpa using List.find?_some hfind
          have hu : (m.threadsAt scope i).findIdx (·.id == id) = j → u = t := by
            intro heq
            rw [List.find?_eq_getElem?_findIdx, heq, ht] at hfind
            exact (Option.some.inj hfind).symm
          simp only [startAt, hmap, hx, scriptThread?_of_owns hmap hx, hid, Option.bind_some, hfind,
            Bool.false_eq_true, if_false]
          by_cases hend : u.state.isFinished = true
          · rw [if_pos hend, if_neg]
            · exact getElem?_threadsAt_spawn ht ..
            · rintro ⟨heq, hpaused⟩
              rw [hu heq, hpaused] at hend
              cases hend
          · rw [if_neg hend]
            by_cases hpaused : u.state = .paused
            · rw [if_pos hpaused]
              refine (getElem?_threadsAt_put ht u.id .running).trans ?_
              rw [huid]
              by_cases heq : (m.threadsAt scope i).findIdx (·.id == id) = j
              · rw [if_pos heq, if_pos ⟨heq, hu heq ▸ hpaused⟩]
              · rw [if_neg heq, if_neg fun h => heq h.1]
            · rw [if_neg hpaused, if_neg, ht]
              rintro ⟨heq, h⟩
              exact hpaused (hu heq ▸ h)

/-! ## What a pause leaves as it is -/

variable {name : ScriptName} {state : ThreadState} {slot : ScriptSlot}

/-- A state is set in one module scope, or nowhere. -/
theorem scopes_setScriptState (m : Machine) (scope : ScopeId) (name : ScriptName)
    (state : ThreadState) :
    (m.setScriptState scope name state).2.scopes = m.scopes ∨
      ∃ n f, (∀ x : ModuleScope, (f x).module = x.module) ∧
        (m.setScriptState scope name state).2.scopes = m.scopes.modifyModule scope n f := by
  unfold setScriptState
  split
  · exact .inl rfl
  · split
    · exact .inl rfl
    · simp only
      split
      · refine .inr ⟨_, _, ?_, rfl⟩
        exact fun _ => rfl
      · exact .inl rfl

/-- Scripts and names are where they were. -/
theorem map?_setScriptState (m : Machine) (scope : ScopeId) (name : ScriptName)
    (state : ThreadState) : ∀ map, m.scopes.map? scope = some map →
      ∃ map', (m.setScriptState scope name state).2.scopes.map? scope = some map' ∧
        map'.slots = map.slots ∧ ∀ i k, map'.script? i k = map.script? i k := by
  intro map hmap
  rcases scopes_setScriptState m scope name state with heq | ⟨n, f, hf, heq⟩
  · exact ⟨map, by rw [heq, hmap], rfl, fun _ _ => rfl⟩
  · refine ⟨map.modifyModule n f, ?_, rfl, fun i k => script?_modifyModule map n hf i k⟩
    rw [heq, ScopeTree.modifyModule, ScopeTree.map?_modifyMap, if_pos rfl, hmap, Option.map_some]

/-- The name leads to the same script afterwards. -/
theorem resolveScript?_setScriptState (hslot : m.resolveScript? scope name = some slot) :
    (m.setScriptState scope name state).2.resolveScript? scope name = some slot := by
  obtain ⟨map, hmap, hfind⟩ := Option.bind_eq_some_iff.1 hslot
  obtain ⟨map', hmap', hslots, -⟩ := map?_setScriptState m scope name state map hmap
  rw [resolveScript?, hmap', Option.bind_eq_bind, Option.bind_some, hslots, hfind]

/-- The name is held in the same place. -/
theorem holderPlace?_setScriptState (hslot : m.resolveScript? scope name = some slot) (i k : Nat) :
    (m.setScriptState scope name state).2.holderPlace? scope i k = m.holderPlace? scope i k := by
  have hids : ∀ id, ((m.setScriptState scope name state).2.threadsAt scope i).findIdx (·.id == id) =
      (m.threadsAt scope i).findIdx (·.id == id) := by
    intro id
    rw [threadsAt_setScriptState hslot]
    split
    · rw [List.findIdx_map]
      congr 1
      funext t
      simp only [Function.comp_apply]
      split <;> rfl
    · rfl
  obtain ⟨map, hmap, -⟩ := Option.bind_eq_some_iff.1 hslot
  obtain ⟨map', hmap', hslots, hscripts⟩ := map?_setScriptState m scope name state map hmap
  simp only [holderPlace?, hids, holderId?, hmap, hmap', Option.bind_eq_bind, Option.bind_some, hslots,
    hscripts]

/-- **Pausing a script and starting it again** leaves of each of its threads everything but the state.
The thread that holds the name runs, whatever it did before, and the others are paused.  So a thread is
as it was if and only if it holds the name and was running. -/
theorem pauseScript_startScript (hslot : m.resolveScript? scope name = some slot)
    (ht : (m.threadsAt scope slot.moduleIndex)[j]? = some t) (hreal : t.isPlaceholder = false)
    (hscript : t.scriptIndex = slot.scriptIndex) (hlive : t.state.isFinished = false)
    (hgoing : t.state ≠ .paused) (args : List Word) (info : ThreadInfo) :
    let m' := ((m.pauseScript scope name).2.startScript scope name args info).2
    let held := m.holderPlace? scope slot.moduleIndex slot.scriptIndex = some j
    (m'.threadsAt scope slot.moduleIndex)[j]? =
        some { t with state := if held then .running else .paused } ∧
      ((m'.threadsAt scope slot.moduleIndex)[j]? = some t ↔ held ∧ t.state = .running) := by
  intro m' held
  have hreach : reaches slot.scriptIndex slot.thread t = true := by
    simp [reaches, hreal, hscript, hlive]
  have hpaused : ((m.pauseScript scope name).2.threadsAt scope slot.moduleIndex)[j]? =
      some { t with state := .paused } := by
    rw [pauseScript, threadsAt_setScriptState hslot, if_pos ⟨rfl, rfl⟩, List.getElem?_map, ht,
      Option.map_some, if_pos hreach]
  have hafter : (m'.threadsAt scope slot.moduleIndex)[j]? =
      some { t with state := if held then .running else .paused } := by
    have hslot' : (m.pauseScript scope name).2.resolveScript? scope name = some slot :=
      resolveScript?_setScriptState hslot
    have hplace : (m.pauseScript scope name).2.holderPlace? scope slot.moduleIndex slot.scriptIndex =
        m.holderPlace? scope slot.moduleIndex slot.scriptIndex := holderPlace?_setScriptState hslot _ _
    simp only [m', startScript, hslot']
    rw [getElem?_threadsAt_startAt hpaused, hplace]
    by_cases hheld : held
    · rw [if_pos ⟨hheld, rfl⟩, if_pos hheld]
    · rw [if_neg fun h => hheld h.1, if_neg hheld]
  refine ⟨hafter, ?_⟩
  rw [hafter, Option.some.injEq]
  constructor
  · intro hsame
    have hstate := congrArg Thread.state hsame
    by_cases hheld : held
    · rw [if_pos hheld] at hstate
      exact ⟨hheld, hstate.symm⟩
    · rw [if_neg hheld] at hstate
      exact absurd hstate.symm hgoing
  · rintro ⟨hheld, hrunning⟩
    rw [if_pos hheld, ← hrunning]

/-- The thread of the small program, which sleeps, goes on sleeping; were it waiting for a tag, it would
not wait any more. -/
theorem pauseScript_startScript_sleeping :
    let after (m : Machine) :=
      (((m.pauseScript {} (.number 1)).2.startScript {} (.number 1) [] {}).2.threadsAt {} 0)[0]?
    let waiting := sleepingMachine.put {} 0 1 (.waitTag 3 5)
    (∃ t, (sleepingMachine.threadsAt {} 0)[0]? = some t ∧ t.state = .running ∧ t.delay ≠ 0 ∧
      after sleepingMachine = some t) ∧
    ∃ t, (waiting.threadsAt {} 0)[0]? = some t ∧ t.state = .waitTag 3 5 ∧
      after waiting = some { t with state := .running } ∧ after waiting ≠ some t := by
  intro after waiting
  have hslots : sleepingMachine.resolveScript? {} (.number 1) = some ⟨0, 0, some 1⟩ ∧
      waiting.resolveScript? {} (.number 1) = some ⟨0, 0, some 1⟩ ∧
      sleepingMachine.holderPlace? {} 0 0 = some 0 ∧ waiting.holderPlace? {} 0 0 = some 0 := by
    decide +kernel
  obtain ⟨hslot, hslot', hheld, hheld'⟩ := hslots
  have hthreads : ((sleepingMachine.threadsAt {} 0)[0]?.any fun t => t.isPlaceholder = false ∧
        t.scriptIndex = 0 ∧ t.state = .running ∧ t.delay ≠ 0) = true ∧
      ((waiting.threadsAt {} 0)[0]?.any fun t => t.isPlaceholder = false ∧
        t.scriptIndex = 0 ∧ t.state = .waitTag 3 5) = true := by
    decide +kernel
  simp only [Option.any_eq_true, decide_eq_true_eq] at hthreads
  obtain ⟨⟨t, ht, hreal, hscript, hstate, hdelay⟩, ⟨u, hu, hreal', hscript', hstate'⟩⟩ := hthreads
  constructor
  · have hsame := pauseScript_startScript hslot ht hreal hscript (by rw [hstate]; rfl)
      (by rw [hstate]; decide) [] {}
    exact ⟨t, ht, hstate, hdelay, hsame.2.2 ⟨hheld, hstate⟩⟩
  · obtain ⟨hafter, hsame⟩ := pauseScript_startScript hslot' hu hreal' hscript'
      (by rw [hstate']; rfl) (by rw [hstate']; decide) [] {}
    rw [if_pos hheld'] at hafter
    refine ⟨u, hu, hstate', hafter, fun h => ?_⟩
    exact absurd ((hsame.1 h).2.symm.trans hstate') (by decide)

end ScriptMachine.Machine
