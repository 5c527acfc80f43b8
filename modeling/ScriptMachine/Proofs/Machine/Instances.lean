import ScriptMachine.Proofs.Machine.Rounds
import ScriptMachine.Proofs.Scope.Holders

/-!
# One live instance of a script

Requests and scripts ask for scripts to be started, stopped and paused.  `Machine.Asks` is what a
sequence of such requests comes to; it keeps every map tidy (`Asks.tidy`), because a name is taken only
from a holder that has ended, and a script with a name of its own is never started without taking it.
A turn in which no script is started for its result is such a sequence (`asks_turn`), and so a tick in
which no thread is entered within the turn of another keeps the maps tidy as well (`Tidy.exec`).

A start for a result is different: it adds a thread even if the name is held.  So does a start by
position of a script whose name leads to another one, which is why the results are about scripts that
their names lead to.
-/

namespace ScriptMachine

namespace MapScope

/-- Modules, threads and slots of a map. -/
def roster (m : MapScope) : List (LoadedModule × List Thread) × OrdMap ScriptName ScriptSlot :=
  (m.modules.map fun s => (s.module, s.threads), m.slots)

/-- What leaves modules and threads alone leaves the roster alone. -/
theorem roster_modifyModule {f : ModuleScope → ModuleScope}
    (hf : ∀ s, (f s).module = s.module ∧ (f s).threads = s.threads) (m : MapScope) (i : Nat) :
    (m.modifyModule i f).roster = m.roster := by
  refine Prod.ext (List.ext_getElem? fun n => ?_) rfl
  simp only [roster, modifyModule, List.getElem?_map, List.getElem?_modify]
  cases m.modules[n]? with
  | none => rfl
  | some s =>
    simp only [Option.map_eq_map, Option.map_some]
    split
    · rw [(hf s).1, (hf s).2]
    · rfl

/-- The thread that holds the name of a script is the one with the id in its slot. -/
theorem Ordered.scriptThread?_eq {id : ScopeId} {m : MapScope} (h : m.Ordered id) {name : ScriptName}
    {slot : ScriptSlot} {s : ModuleScope} {t : Thread} (hslot : m.slots.find? name = some slot)
    (hs : m.modules[slot.moduleIndex]? = some s) (ht : t ∈ s.threads) (hid : slot.thread = some t.id) :
    m.scriptThread? name = some t := by
  obtain ⟨k, hk⟩ := List.getElem?_of_mem ht
  have hfind : s.thread? t.id = some t := by
    rw [ModuleScope.thread?, List.find?_eq_getElem?_findIdx,
      findIdx_id_eq (h.staffed.nodup_ids hs) hk, hk]
  simp [scriptThread?, hslot, hid, hs, hfind]

/-- Whoever runs the script has ended, if the holder of its name has. -/
theorem Tidy.vacant {absent : Absence} {id : ScopeId} {m : MapScope} (h : m.Tidy absent)
    (hm : m.Ordered id) {i j : Nat} {s : ModuleScope} {x : Script} (hs : m.modules[i]? = some s)
    (hx : s.module.scripts[j]? = some x) (howns : Machine.ownsName m x.name i j = true)
    (hmulti : x.multi = false)
    (hended : ∀ t, m.scriptThread? x.name = some t → t.state.isFinished = true) :
    ∀ t ∈ s.threads, Runs absent i t j → t.state.isFinished = true := by
  intro t ht hruns
  rw [Machine.ownsName] at howns
  split at howns
  · rename_i slot hslot
    rw [Bool.and_eq_true, beq_iff_eq, beq_iff_eq] at howns
    obtain ⟨rfl, rfl⟩ := howns
    cases hend : t.state.isFinished with
    | true => rfl
    | false =>
      have hheld := h.holds hslot hs hx hmulti ht hruns hend
      exact hend.symm.trans (hended t (hm.scriptThread?_eq hslot hs ht hheld))
  · cases howns

end MapScope

namespace Machine

open MapScope Thread

variable {absent : ScopeId → Absence} {m m' m'' : Machine} {t t' u : Thread} {scope : ScopeId}
  {i j : Nat}

/-- Every map is tidy. -/
def Tidy (absent : ScopeId → Absence) (m : Machine) : Prop :=
  m.Throughout fun id map => map.Tidy (absent id)

/-- Modules, threads and slots of all maps are the same. -/
def SameRosters (m m' : Machine) : Prop :=
  ∀ id, (m'.scopes.map? id).map roster = (m.scopes.map? id).map roster

/-- The tree alone makes the rosters. -/
theorem SameRosters.of_scopes (h : m'.scopes = m.scopes) : m.SameRosters m' := fun _ => by rw [h]

/-- Whether maps are tidy is seen from their rosters. -/
theorem Tidy.of_rosters (h : m.Tidy absent) (hsame : m.SameRosters m') : m'.Tidy absent := by
  intro id map' hmap'
  have hid := hsame id
  rw [hmap'] at hid
  obtain ⟨map, hmap, heq⟩ := Option.map_eq_some_iff.1 hid.symm
  exact (h id map hmap).of_modules (congrArg Prod.snd heq).symm (congrArg Prod.fst heq).symm

/-- Variables leave the rosters alone. -/
theorem sameRosters_modifyVars (m : Machine) (level : Level) (id : ScopeId) (i : Nat) (f : Vars → Vars)
    (strings : StringTable) :
    m.SameRosters { m with scopes := m.scopes.modifyVars level id i f, strings } := by
  intro id'
  simp only [ScopeTree.map?_modifyVars]
  split
  · rename_i hid
    rw [hid.2, Option.map_map]
    congr 1
    funext map
    exact roster_modifyModule (f := fun x => { x with vars := f x.vars }) (fun _ => ⟨rfl, rfl⟩) map i
  · rfl

/-! ## Starting and stopping scripts -/

/-- Threads of a module scope go on in another way. -/
theorem Tidy.redirect (h : m.Tidy absent) {f : List Thread → List Thread} (scope : ScopeId) (i : Nat)
    (hf : ∀ s, m.scopes.module? scope i = some s → List.Forall₂ Redirects s.threads (f s.threads)) :
    Tidy absent { m with scopes := m.scopes.modifyModule scope i fun s =>
      { s with threads := f s.threads } } := by
  refine Throughout.modifyMap h rfl fun map hmap => ?_
  cases hs : map.modules[i]? with
  | none =>
    have hsame : (map.modifyModule i fun s => { s with threads := f s.threads }) = map := by
      rw [modifyModule, List.modify_eq_self]
      rw [List.getElem?_eq_none_iff] at hs
      exact hs
    rw [hsame]
    exact h scope map hmap
  | some s => exact (h scope map hmap).redirect hs (hf s (Option.bind_eq_some_iff.2 ⟨map, hmap, hs⟩))

/-- A script is started, with its name if that leads to the script and the holder has ended. -/
theorem Tidy.spawn (h : m.Tidy absent) (hm : m.Ordered) {map : MapScope} {s : ModuleScope} {x : Script}
    (hmap : m.scopes.map? scope = some map) (hs : map.modules[i]? = some s)
    (hx : s.module.scripts[j]? = some x) (args : List Word) (info : ThreadInfo) {takesName : Bool}
    (htakes : takesName = (ownsName map x.name i j && !x.multi))
    (hended : takesName = true → ∀ t, map.scriptThread? x.name = some t → t.state.isFinished = true) :
    (m.spawn scope i j args info takesName).2.Tidy absent := by
  have hscript : (map.script? i j).isSome = true := by
    rw [MapScope.script?, hs]
    exact Option.isSome_iff_exists.2 ⟨x, hx⟩
  obtain ⟨t, ht⟩ := exists_make? hs hscript map.nextThreadId scope args info
  refine Throughout.modifyMap h (spawn_scopes hmap hs ht takesName) fun map' hmap' => ?_
  cases hmap.symm.trans hmap'
  have hiff : takesName = true ↔ ownsName map x.name i j = true ∧ x.multi = false := by
    rw [htakes, Bool.and_eq_true, Bool.not_eq_true']
  exact (h scope map hmap).withThread (hm scope map hmap) hs ht hx hiff fun htrue =>
    (h scope map hmap).vacant (hm scope map hmap) hs hx (hiff.1 htrue).1 (hiff.1 htrue).2 (hended htrue)

/-- One thread of a list is changed. -/
theorem forall₂_modifyAt {R : Thread → Thread → Prop} {f : Thread → Thread} {ts : List Thread} {k : Nat}
    (hrefl : ∀ t, R t t) (hf : ∀ t, ts[k]? = some t → R t (f t)) :
    List.Forall₂ R ts (ts.modify k f) := by
  induction ts generalizing k with
  | nil => simp
  | cons t ts ih =>
    cases k with
    | zero => exact .cons (hf t rfl) (List.forall₂_same.2 fun u _ => hrefl u)
    | succ k => exact .cons (hrefl t) (ih hf)

/-- The first thread with a property is changed. -/
theorem forall₂_updateFirst {R : Thread → Thread → Prop} {p : Thread → Bool} {f : Thread → Thread}
    {ts : List Thread} (hrefl : ∀ t, R t t) (hf : ∀ t, ts.find? p = some t → R t (f t)) :
    List.Forall₂ R ts (updateFirst p f ts) := by
  rw [updateFirst_eq_modify]
  exact forall₂_modifyAt hrefl fun t ht => hf t (List.find?_eq_getElem?_findIdx.trans ht)

/-- A thread that has not ended is put into a state. -/
theorem Tidy.setState (h : m.Tidy absent) {s : ModuleScope} (hs : m.scopes.module? scope i = some s)
    (ht : s.thread? t.id = some t) (hlive : t.state.isFinished = false) {state : ThreadState}
    (hstate : state ≠ .inactive) :
    Tidy absent { m with
      scopes := m.scopes.modifyModule scope i fun s => s.modifyThread t.id fun t => { t with state } } := by
  refine h.redirect (f := updateFirst (·.id == t.id) fun t => { t with state }) scope i fun s' hs' => ?_
  cases hs.symm.trans hs'
  refine forall₂_updateFirst (fun t => .inl rfl) fun u hu => ?_
  cases ht.symm.trans hu
  exact .setState hlive hstate

/-- The holder of a name is a thread of the module that the name leads to. -/
theorem thread?_of_scriptThread? {map : MapScope} {s : ModuleScope} {name : ScriptName}
    (howns : ownsName map name i j = true) (hs : map.modules[i]? = some s) :
    map.scriptThread? name = some t ↔ ∃ slot, map.slots.find? name = some slot ∧
      slot.thread = some t.id ∧ s.thread? t.id = some t := by
  unfold ownsName at howns
  split at howns
  · rename_i slot hslot
    rw [Bool.and_eq_true, beq_iff_eq] at howns
    rw [scriptThread?, hslot]
    simp only [Option.bind_eq_bind, Option.bind_some, howns.1, hs, Option.some.injEq,
      exists_eq_left']
    constructor
    · intro h
      obtain ⟨k, hk, hfind⟩ := Option.bind_eq_some_iff.1 h
      have hid : t.id = k := by simpa using List.find?_some hfind
      exact ⟨hid ▸ hk, hid ▸ hfind⟩
    · rintro ⟨hthread, hfind⟩
      rw [hthread]
      exact hfind
  · cases howns

/-- Finding a thread after one was changed. -/
theorem thread?_modifyThread (s : ModuleScope) (id : Word) {f : Thread → Thread}
    (hf : ∀ t, (f t).id = t.id) : (s.modifyThread id f).thread? id = (s.thread? id).map f := by
  rw [ModuleScope.modifyThread, updateFirst_eq_modify]
  exact (find?_modify_findIdx (fun t ht => (hf t).trans ht) id).trans (if_pos rfl)

/-- The holder of a name is ended, and the script is started anew. -/
theorem Tidy.restart (h : m.Tidy absent) (hm : m.Ordered) {map : MapScope} {s : ModuleScope} {x : Script}
    (hmap : m.scopes.map? scope = some map) (hs : map.modules[i]? = some s)
    (hx : s.module.scripts[j]? = some x) (args : List Word) (info : ThreadInfo)
    (howns : (ownsName map x.name i j && !x.multi) = true) (ht : map.scriptThread? x.name = some t)
    (hlive : t.state.isFinished = false) :
    (({ m with scopes := m.scopes.modifyModule scope i fun s => s.modifyThread t.id fun t =>
        { t with state := .stopped } } : Machine).spawn scope i j args info
          (ownsName map x.name i j && !x.multi)).2.Tidy absent := by
  have howner : ownsName map x.name i j = true := (Bool.and_eq_true .. ▸ howns).1
  obtain ⟨slot, hslot, hthread, hfound⟩ := (thread?_of_scriptThread? howner hs).1 ht
  have htidy := h.setState (Option.bind_eq_some_iff.2 ⟨map, hmap, hs⟩) hfound hlive
    (by decide : ThreadState.stopped ≠ .inactive)
  have hordered : Ordered { m with
      scopes := m.scopes.modifyModule scope i fun s => s.modifyThread t.id fun t =>
        { t with state := .stopped } } := by
    refine hm.modifyMap rfl fun map' hmap' => ((hm scope map' hmap').restate i
      (f := updateFirst (·.id == t.id) fun t => { t with state := .stopped }) fun ts => ?_).1
    exact forall₂_updateFirst (fun t => .inl rfl) fun t _ => .inr ⟨.stopped, by decide, rfl⟩
  have hmap₁ : ScopeTree.map? (m.scopes.modifyModule scope i fun s => s.modifyThread t.id fun t =>
      { t with state := .stopped }) scope = some (map.modifyModule i fun s => s.modifyThread t.id fun t =>
        { t with state := .stopped }) := by
    simp only [ScopeTree.modifyModule, ScopeTree.map?_modifyMap, hmap, if_true, Option.map_some]
  have hs₁ : (map.modifyModule i fun s => s.modifyThread t.id fun t =>
      { t with state := .stopped }).modules[i]? =
        some (s.modifyThread t.id fun t => { t with state := .stopped }) := by
    simp [modifyModule, hs]
  have howner₁ : ownsName (map.modifyModule i fun s => s.modifyThread t.id fun t =>
      { t with state := .stopped }) x.name i j = true := howner
  refine htidy.spawn hordered hmap₁ hs₁ hx args info rfl fun _ u hu => ?_
  obtain ⟨slot', hslot', hthread', hfound'⟩ := (thread?_of_scriptThread? howner₁ hs₁).1 hu
  cases hslot.symm.trans hslot'
  rw [hthread] at hthread'
  rw [← Option.some.inj hthread', thread?_modifyThread s t.id (f := fun t => { t with state := .stopped })
    fun _ => rfl, hfound] at hfound'
  cases hfound'
  rfl

/-- **A start of a script** keeps the maps tidy.  The holder of the name goes on, has ended, or is
ended first. -/
theorem Tidy.startAt (h : m.Tidy absent) (hm : m.Ordered) (scope : ScopeId) (i j : Nat)
    (args : List Word) (info : ThreadInfo) (forced : Bool) :
    (m.startAt scope i j args info forced).2.Tidy absent := by
  unfold Machine.startAt
  cases hmap : m.scopes.map? scope with
  | none => exact h
  | some map =>
    simp only
    cases hscript : map.script? i j with
    | none => exact h
    | some x =>
      simp only
      obtain ⟨s, hs, hx⟩ := Option.bind_eq_some_iff.1 hscript
      split
      · rename_i hholder
        refine h.spawn hm hmap hs hx args info rfl fun htrue t ht => ?_
        rw [if_pos htrue, ht] at hholder
        cases hholder
      · rename_i t hholder
        have howns : (ownsName map x.name i j && !x.multi) = true := by
          by_contra hnot
          rw [if_neg hnot] at hholder
          cases hholder
        rw [if_pos howns] at hholder
        split
        · rename_i hend
          refine h.spawn hm hmap hs hx args info rfl fun _ u hu => ?_
          cases hholder.symm.trans hu
          exact hend
        · rename_i hend
          have hlive : t.state.isFinished = false := Bool.eq_false_iff.2 hend
          split
          · exact h.restart hm hmap hs hx args info howns hholder hlive
          · split
            · have hfound := (thread?_of_scriptThread? (Bool.and_eq_true .. ▸ howns).1 hs).1 hholder
              obtain ⟨-, -, -, hfound⟩ := hfound
              exact (h.setState (Option.bind_eq_some_iff.2 ⟨map, hmap, hs⟩) hfound hlive
                (by decide)).of_rosters (.of_scopes rfl)
            · exact h

/-- Setting the state of a script keeps the maps tidy. -/
theorem Tidy.setScriptState (h : m.Tidy absent) (scope : ScopeId) (name : ScriptName)
    {state : ThreadState} (hstate : state ≠ .inactive) :
    (m.setScriptState scope name state).2.Tidy absent := by
  unfold Machine.setScriptState
  split
  · exact h
  · rename_i slot _
    split
    · exact h
    · simp only
      split
      · refine Tidy.of_rosters (h.redirect (f := fun ts => ts.map fun t =>
          if reaches slot.scriptIndex slot.thread t then { t with state } else t) scope slot.moduleIndex
            fun s _ => ?_) (.of_scopes rfl)
        rw [List.forall₂_map_right_iff]
        refine List.forall₂_same.2 fun t _ => ?_
        split
        · rename_i hreaches
          refine .setState ?_ hstate
          rw [reaches, Bool.and_eq_true, Bool.not_eq_true'] at hreaches
          exact hreaches.2
        · exact .inl rfl
      · exact h

/-! ## Requests about scripts -/

/-- What requests about scripts do to a machine, one after another; the rest leaves modules, threads and
slots alone. -/
inductive Asks : Machine → Machine → Prop
  | quiet {m m' : Machine} (h : m.Stirs m') (hsame : m.SameRosters m') : Asks m m'
  | trans {m₁ m₂ m₃ : Machine} (h : Asks m₁ m₂) (h' : Asks m₂ m₃) : Asks m₁ m₃
  | start (m : Machine) (scope : ScopeId) (i j : Nat) (args : List Word) (info : ThreadInfo)
      (forced : Bool) : Asks m (m.startAt scope i j args info forced).2
  | halt (m : Machine) (scope : ScopeId) (name : ScriptName) {state : ThreadState}
      (hstate : state ≠ .inactive) : Asks m (m.setScriptState scope name state).2

theorem Asks.refl (m : Machine) : m.Asks m := .quiet (.refl m) fun _ => rfl

/-- What is asked stirs the machine. -/
theorem Asks.stirs (h : m.Asks m') : m.Stirs m' := by
  induction h with
  | quiet h => exact h
  | trans _ _ ih ih' => exact ih.trans ih'
  | start => exact stirs_startAt ..
  | halt m scope name hstate => exact stirs_setScriptState scope name hstate

/-- **Requests about scripts** keep the maps tidy. -/
theorem Asks.tidy (h : m.Asks m') (hm : m.Ordered) (hfresh : ¬ m'.Exhausted) (htidy : m.Tidy absent) :
    m'.Tidy absent := by
  induction h with
  | quiet _ hsame => exact htidy.of_rosters hsame
  | trans h h' ih ih' =>
    have hfresh₂ := fun he => hfresh (Exhausted.mono h'.stirs.evolves.trace he)
    exact ih' (h.stirs.orderly hm hfresh₂).1 hfresh (ih hm hfresh₂ htidy)
  | start m scope i j args info forced => exact htidy.startAt hm scope i j args info forced
  | halt m scope name hstate => exact htidy.setScriptState scope name hstate

theorem asks_startScript (scope : ScopeId) (name : ScriptName) (args : List Word) (info : ThreadInfo) :
    m.Asks (m.startScript scope name args info).2 := by
  unfold startScript
  split
  · exact .refl m
  · exact .start ..

theorem asks_startForced (scope : ScopeId) (name : ScriptName) (args : List Word) (info : ThreadInfo) :
    m.Asks (m.startForced scope name args info).2 := by
  unfold startForced
  split
  · exact .refl m
  · exact .start ..

theorem asks_startAll (m : Machine) (scope : ScopeId) (args : List Word) (info : ThreadInfo)
    (targets : List (Nat × Nat)) : m.Asks (m.startAll scope args info targets).2 := by
  induction targets generalizing m with
  | nil => exact .refl m
  | cons p rest ih => exact (Asks.start m scope p.1 p.2 args info false).trans (ih _)

/-! ## Instructions -/

theorem asks_of_scopes (h : m.Stirs m') (hscopes : m'.scopes = m.scopes) : m.Asks m' :=
  .quiet h (.of_scopes hscopes)

/-- A script that is not there is not started. -/
theorem sameRosters_of_spawn {args : List Word} {info : ThreadInfo} {takesName : Bool}
    (h : m.spawn scope i j args info takesName = (none, m')) : m.SameRosters m' := by
  have hused : ∀ map, m.scopes.map? scope = some map →
      m.SameRosters { m with scopes := m.scopes.modifyMap scope fun _ => map.takeThreadId.2 } := by
    intro map hmap id
    simp only [ScopeTree.map?_modifyMap]
    split
    · rename_i hid
      rw [hid, hmap]
      rfl
    · rfl
  unfold Machine.spawn at h
  split at h
  · cases h
    exact fun _ => rfl
  · rename_i map hmap
    simp only at h
    split at h
    · cases h
      exact hused map hmap
    · split at h
      · cases h
        exact hused map hmap
      · cases h

/-- A start for a result that gives no turn leaves the threads alone. -/
theorem asks_startResult {turn : Turn} {name : ScriptName} {args : List Word} {info : ThreadInfo}
    {r : Option Word} (h : m.startedTurn? scope name args info = none)
    (hstart : m.startResult turn scope name args info = some (r, m')) : m.Asks m' := by
  refine .quiet (stirs_of_startedTurn? h hstart) ?_
  obtain ⟨-, hresult⟩ | ⟨slot, m₁, -, hspawn, hresult⟩ := not_started_cases h
  · cases (hresult turn).symm.trans hstart
    exact fun _ => rfl
  · cases (hresult turn).symm.trans hstart
    exact sameRosters_of_spawn hspawn

theorem asks_accessVar (t : Thread) (level : Level) (action : VarAction) (i : Word) :
    m.Asks (m.accessVar t level action i).1 := by
  refine .quiet (stirs_accessVar t level action i) ?_
  have hvars : ∀ (u : Thread) (f : Vars → Vars) (strings : StringTable), m.SameRosters
      { m with scopes := m.scopes.modifyVars level u.scope u.moduleIndex f, strings } :=
    fun u f strings => sameRosters_modifyVars m level u.scope u.moduleIndex f strings
  cases action with
  | pushReg => exact fun _ => rfl
  | dropReg =>
    cases level with
    | thread => exact fun _ => rfl
    | _ => exact hvars t.pop.2 _ m.strings
  | incReg =>
    cases level with
    | thread => exact fun _ => rfl
    | _ => exact hvars t _ m.strings
  | decReg =>
    cases level with
    | thread => exact fun _ => rfl
    | _ => exact hvars t _ m.strings
  | pushArr => cases level <;> exact fun _ => rfl
  | dropArr =>
    cases level with
    | thread => exact fun _ => rfl
    | _ =>
      simp only [accessVar]
      split
      · exact fun _ => rfl
      · exact hvars t.pop.2.pop.2 _ _

theorem asks_haltFrom (t : Thread) (pause : Bool) (name : Option ScriptName) :
    m.Asks (m.haltFrom t pause name).1 := by
  unfold haltFrom
  split
  · exact .refl m
  · have hstate : (if pause = true then ThreadState.paused else ThreadState.stopped) ≠ .inactive := by
      split <;> decide
    simp only
    generalize (if pause = true then ThreadState.paused else ThreadState.stopped) = state at hstate
    split <;> exact .halt m _ _ hstate

/-- A built-in function that starts no script for its result. -/
theorem asks_callBuiltin {turn : Turn} {f : Builtin} {args : List Word} (hf : f ≠ .startResultNumber)
    (hf' : f ≠ .startResultName) (h : m.callBuiltin turn t f args = some (m', t')) : m.Asks m' := by
  have hstart : ∀ {mode : StartMode} {name : Option ScriptName} {args : List Word},
      m.startFrom turn t mode name args = some (m', t') → mode ≠ .result → m.Asks m' := by
    intro mode name args h hmode
    unfold startFrom at h
    cases name with
    | none =>
      cases h
      exact .refl m
    | some name =>
      cases mode with
      | normal =>
        simp only at h
        split at h <;> cases h
        · exact .refl m
        · exact asks_startScript ..
      | forced =>
        cases h
        exact asks_startForced ..
      | result => exact absurd rfl hmode
  have hsame : ∀ {p : Machine × Thread}, m.Asks p.1 → some p = some (m', t') → m.Asks m' := by
    intro p hp heq
    cases heq
    exact hp
  cases f <;> simp only [callBuiltin] at h
  case startNumber => exact hstart h (by rintro ⟨⟩)
  case startName => exact hstart h (by rintro ⟨⟩)
  case startForcedNumber => exact hstart h (by rintro ⟨⟩)
  case startForcedName => exact hstart h (by rintro ⟨⟩)
  case startResultNumber => exact absurd rfl hf
  case startResultName => exact absurd rfl hf'
  case stopNumber => exact hsame (asks_haltFrom t _ _) h
  case stopName => exact hsame (asks_haltFrom t _ _) h
  case pauseNumber => exact hsame (asks_haltFrom t _ _) h
  case pauseName => exact hsame (asks_haltFrom t _ _) h
  case printEnd =>
    refine hsame (asks_of_scopes (stirs_endMessage t) ?_) h
    simp only [endMessage]
    split <;> rfl
  case printArray =>
    refine hsame (asks_of_scopes (stirs_printArray t _) ?_) h
    unfold printArray
    split
    · rfl
    · split <;> rfl
  case random =>
    cases h
    exact asks_of_scopes (stirs_random m _ _) rfl
  case checkLock =>
    split at h
    · exact hsame (asks_of_scopes (.note m rfl) rfl) h
    · exact hsame (.refl m) h
  all_goals exact hsame (.refl m) h

theorem asks_kill (t : Thread) (reason : KillReason) (data : Word) : m.Asks (m.kill t reason data).1 :=
  asks_of_scopes (stirs_kill t reason data) (report_scopes ..)

/-- **An instruction** in which no thread is entered. -/
theorem asks_step {turn : Turn} {exec : Machine → Option Machine} {module : LoadedModule} {op : Opcode}
    {operands : List Word} {waits : Bool} {inner : Machine → Thread → List Seat}
    (hentries : stepEntries inner op operands m t = [])
    (h : step quietHost turn exec module op operands m t = some (m', t', waits)) : m.Asks m' := by
  have hsame : ∀ {p : Machine × Thread × Bool}, m.Asks p.1 → some p = some (m', t', waits) →
      m.Asks m' := by
    intro p hp heq
    cases heq
    exact hp
  cases hcall : resultCall? op operands m t with
  | some p =>
    rw [step_of_some hcall] at h
    obtain ⟨⟨r, m₁⟩, hstart, heq⟩ := Option.map_eq_some_iff.1 h
    cases heq
    refine asks_startResult ?_ hstart
    simp only [stepEntries, hcall, startEntries] at hentries
    split at hentries
    · assumption
    · cases hentries
  | none =>
    cases op with
    | callFunc =>
      cases hhost : hostCall? .callFunc operands m with
      | some key =>
        rw [step_of_host hhost] at h
        cases h
        exact .refl m
      | none =>
        rcases callFunc_cases hcall hhost h with ⟨f, hnumber, hnone, hbuiltin⟩ | hkill
        · by_cases hname : f = .startResultName
          · -- no string stands for the name
            subst hname
            simp only [callBuiltin, startFrom, hnone rfl] at hbuiltin
            cases hbuiltin
            exact .refl m
          · exact asks_callBuiltin hnumber hname hbuiltin
        · exact hsame (asks_kill ..) hkill
    | kill => exact hsame (asks_kill t _ _) h
    | var level action => exact hsame (asks_accessVar t level action _) h
    | restart =>
      simp only [step] at h
      split at h <;> exact hsame (.refl m) h
    | jumpEqual =>
      simp only [step] at h
      split at h <;> exact hsame (.refl m) h
    | call =>
      simp only [step] at h
      split at h
      · exact hsame (.refl m) h
      · exact hsame (asks_kill t _ _) h
    | callDiscard =>
      simp only [step] at h
      split at h
      · exact hsame (.refl m) h
      · exact hsame (asks_kill t _ _) h
    | _ => exact hsame (.refl m) h

/-! ## Turns -/

/-- Instructions of a turn that enters no other thread ask for things only. -/
theorem asks_loop {fuel : Nat} {limit count : Word} {module : LoadedModule}
    (hentries : loopEntries quietHost fuel limit count module m t = [])
    (h : loop quietHost fuel limit count module m t = some (m', t')) : m.Asks m' := by
  induction fuel generalizing limit count m t with
  | zero => cases h
  | succ fuel ih =>
    have hkill : ∀ {reason data}, some (m.kill t reason data) = some (m', t') → m.Asks m' := by
      intro reason data heq
      cases heq
      exact asks_kill t reason data
    unfold loop at h
    unfold loopEntries at hentries
    split at h
    · cases h
      exact .refl _
    · rename_i hstate
      rw [if_neg hstate] at hentries
      split at h
      · exact hkill h
      · rename_i hlimit
        rw [if_neg hlimit] at hentries
        split at h
        · exact hkill h
        · rename_i op operands hfetch
          simp only [hfetch] at h hentries
          obtain ⟨hfirst, hrest⟩ := List.append_eq_nil_iff.1 hentries
          split at h
          · cases h
          · rename_i m₁ t₁ hstep
            cases h
            exact asks_step hfirst hstep
          · rename_i m₁ t₁ hstep
            rw [hstep] at hrest
            exact (asks_step hfirst hstep).trans (ih hrest h)

/-- **A turn** in which no other thread is entered. -/
theorem asks_turn {fuel : Nat} (hentries : turnEntries quietHost fuel
      { m with running := (t.module.map (·.serial)).toList ++ m.running } t = [])
    (h : runDetached (turn quietHost fuel) m t = some (m', t')) : m.Asks m' := by
  unfold runDetached at h
  obtain ⟨⟨m₁, t₁⟩, hturn, heq⟩ := Option.map_eq_some_iff.1 h
  cases heq
  have hnoted : m.Asks { m with running := (t.module.map (·.serial)).toList ++ m.running } :=
    asks_of_scopes (.aside m m.rng _ (.refl _)) rfl
  have hdropped : m₁.Asks { m₁ with
      running := m₁.running.drop (t.module.map (·.serial)).toList.length } :=
    asks_of_scopes (.aside m₁ m₁.rng _ (.refl _)) rfl
  refine (hnoted.trans ?_).trans hdropped
  unfold turn turnWith at hturn
  unfold turnEntries turnEntriesWith at hentries
  cases hmodule : t.module with
  | none =>
    simp only [hmodule] at hturn
    cases hturn
    exact .refl _
  | some module =>
    simp only [hmodule] at hturn hentries
    exact asks_loop hentries hturn

/-- One more thread is out of the tree. -/
def away (absent : ScopeId → Absence) (scope : ScopeId) (i : Nat) (u : Thread) (id : ScopeId) : Absence :=
  if id = scope then Absence.with (absent id) i u else absent id

/-- Taking out a live thread leaves the maps tidy but for it. -/
theorem Tidy.detach (h : m.Tidy absent) (hm : m.Ordered) {s : ModuleScope}
    (hs : m.scopes.module? scope i = some s) (hu : s.threads[j]? = some u)
    (hreal : u.isPlaceholder = false) (hlive : u.state.isFinished = false) :
    (m.detach scope i (fun _ => j) u.id).Tidy (away absent scope i u) := by
  intro id map' hmap'
  obtain ⟨map, hmap, hat⟩ := Option.bind_eq_some_iff.1 hs
  simp only [Machine.detach, ScopeTree.modifyModule, ScopeTree.map?_modifyMap] at hmap'
  unfold away
  split at hmap'
  · rename_i hid
    subst hid
    rw [hmap] at hmap'
    cases hmap'
    rw [if_pos rfl]
    exact (h id map hmap).detach (hm id map hmap) hat hu hreal hlive
  · rename_i hid
    rw [if_neg hid]
    exact h id map' hmap'

/-- A thread that ran, after what was asked of its placeholder. -/
def settled (t : Thread) : ThreadState → Thread
  | .stopped => { t with state := .stopped }
  | .paused => if t.state.isFinished then t else { t with state := .paused }
  | _ => t

/-- Settling changes the state only. -/
theorem same_settled (t : Thread) (asked : ThreadState) : t.Same (settled t asked) := by
  unfold settled
  split
  · exact ⟨rfl, rfl, rfl, rfl, rfl⟩
  · split <;> exact ⟨rfl, rfl, rfl, rfl, rfl⟩
  · exact .refl t

/-- A thread whose placeholder was ended has ended. -/
theorem isFinished_settled (t : Thread) {asked : ThreadState} (hasked : asked ≠ .inactive)
    (hend : asked.isFinished = true) : (settled t asked).state.isFinished = true := by
  cases asked with
  | stopped => rfl
  | inactive => exact absurd rfl hasked
  | _ => cases hend

/-- What is put back stands where the placeholder was. -/
theorem reattach_eq {s : ModuleScope} {p : Thread} (hs : m.scopes.module? scope i = some s)
    (hp : s.thread? t.id = some p) (hplace : p.isPlaceholder = true) :
    m.reattach scope i t = { m with scopes := m.scopes.modifyModule scope i fun s =>
      { s with threads := updateFirst (·.id == t.id) (fun _ => settled t p.state) s.threads } } := by
  have hfound : ((m.scopes.module? scope i).bind (·.thread? t.id)).filter isPlaceholder = some p := by
    rw [hs, Option.bind_some, hp, Option.filter_some, if_pos hplace]
  unfold Machine.reattach
  simp only [hfound, ModuleScope.modifyThread]
  cases p.state with
  | paused =>
    simp only [settled]
    split <;> rfl
  | _ => rfl

/-- A thread that ran is put back.  What was asked of its placeholder is done to it, so that the thread
has ended if the placeholder has. -/
theorem Tidy.reattach (h : m'.Tidy (away absent scope i u)) (hm' : m'.Ordered)
    {s : ModuleScope} (hs : m.scopes.module? scope i = some s) (hu : s.threads[j]? = some u)
    (hreal : u.isPlaceholder = false) (hwidens : (m.detach scope i (fun _ => j) u.id).Widens m')
    (hsame : u.Same t) : (m'.reattach scope i t).Tidy absent := by
  obtain ⟨map, hmap, hat, hout⟩ := map?_detach (u := u) (j := fun _ => j) hs
  obtain ⟨map', hmap', hgrows⟩ := hwidens.maps scope _ hout
  obtain ⟨s', hs', -, p, hp, hid, hplace⟩ := MapScope.Grows.placeholder hat hu hgrows
  have htidy' : map'.Tidy (away absent scope i u scope) := h scope map' hmap'
  rw [away, if_pos rfl] at htidy'
  have hs'' : m'.scopes.module? scope i = some s' := Option.bind_eq_some_iff.2 ⟨map', hmap', hs'⟩
  have hk : s'.threads.findIdx (·.id == t.id) = j := by
    rw [hsame.id, ← hid]
    exact findIdx_id_eq ((hm' scope map' hmap').staffed.nodup_ids hs') hp
  have hfind : s'.thread? t.id = some p := by
    rw [ModuleScope.thread?, List.find?_eq_getElem?_findIdx, hk, hp]
  have hasked := htidy'.asked s' (List.mem_of_getElem? hs') p (List.mem_of_getElem? hp) hplace
  rw [reattach_eq hs'' hfind hplace]
  intro id map₁ hmap₁
  simp only [ScopeTree.modifyModule, ScopeTree.map?_modifyMap] at hmap₁
  split at hmap₁
  · rename_i hscope
    subst hscope
    rw [hmap'] at hmap₁
    cases hmap₁
    have hplaced : (map'.modifyModule i fun s =>
        { s with threads := updateFirst (·.id == t.id) (fun _ => settled t p.state) s.threads }) =
        map'.modifyModule i fun s => { s with threads := s.threads.modify j fun _ => settled t p.state } :=
      modifyModule_congr hs' (by rw [updateFirst_eq_modify, hk])
    have hsame' := hsame.trans (same_settled t p.state)
    show MapScope.Tidy (absent id) (map'.modifyModule i fun s =>
      { s with threads := updateFirst (·.id == t.id) (fun _ => settled t p.state) s.threads })
    rw [hplaced]
    exact htidy'.resume (hm' id map' hmap') hs' hp hplace hid hsame'.id hsame'.scriptIndex
      (hsame'.isPlaceholder_eq.trans hreal) (isFinished_settled t hasked)
  · rename_i hscope
    have hother : map₁.Tidy (away absent scope i u id) := h id map₁ hmap₁
    rwa [away, if_neg hscope] at hother

/-! ## Ticks -/

/-- No thread is entered within the turn of another: two entries never follow each other. -/
def Flat (ms : List Mark) : Prop := ∀ s s', ¬ [Mark.enter s, .enter s'] <:+: ms

/-- A stretch of a flat run is flat. -/
theorem Flat.segment {ms ms' : List Mark} (h : Flat ms) (hin : ms' <:+: ms) : Flat ms' :=
  fun s s' hboth => h s s' (hboth.trans hin)

/-- Nobody is out of the tree. -/
def nobody : ScopeId → Absence := fun _ _ _ _ => False

/-- **A visit** in which no other thread is entered. -/
theorem Tidy.visit {fuel : Nat} {v : Visit} (h : m.Tidy nobody) (hm : m.Ordered) (hfilled : m.Filled)
    (hbusy : m.executing = true) (hvisit : m.visit (turn quietHost fuel) scope i j = some (v, m'))
    (hflat : Flat (m.visitMarks quietHost fuel scope i j)) (hfresh : ¬ m'.Exhausted) :
    m'.Tidy nobody := by
  obtain ⟨-, rfl, -⟩ | ⟨u, hu, hactive, ⟨hend, -, rfl, -⟩ | ⟨hend, -, m₀, hworks, hscopes, hrest⟩⟩ :=
    visit_cases hvisit
  · exact h
  · obtain ⟨map, s, hmap, -, hs, hat⟩ := exists_place hu
    have hscopes : (m.reap scope i j).scopes = m.scopes.modifyMap scope fun map =>
        (map.modifyModule i fun s => { s with threads := s.threads.eraseIdx j }).releaseSlot u := by
      rw [Machine.reap, hu]
      exact report_scopes ..
    refine Throughout.modifyMap h hscopes fun map' hmap' => ?_
    cases hmap.symm.trans hmap'
    exact (h scope map hmap).reap (hm scope map hmap) hs hat
  · have hreal := hfilled.real hu
    have h₀ : m₀.Tidy nobody := h.of_rosters (.of_scopes hscopes)
    have hm₀ : m₀.Ordered := hm.of_scopes hscopes
    obtain ⟨s, hs, hat⟩ := Option.bind_eq_some_iff.1 hu
    rw [← hscopes] at hs
    rcases hrest with ⟨rfl, -⟩ | ⟨-, -, -, rfl, -⟩ | ⟨-, -, -, hvisited, m₂, u', hrun, rfl⟩
    · exact h₀
    · refine h₀.redirect (f := (·.modify j fun _ => u.awake m₀.tick)) scope i fun s' hs' => ?_
      cases hs.symm.trans hs'
      refine forall₂_modifyAt (fun _ => .inl rfl) fun t ht => ?_
      cases hat.symm.trans ht
      exact .inr ⟨hend, (restated_awake u m₀.tick).same, by rintro ⟨⟩⟩
    · have hacts : Acts Never (m₀.detach scope i (fun _ => j) u.id) (u.awake m₀.tick) m₂ u' :=
        acts_runDetached (acts_turn (obeys_quietHost Never) tame_never)
          (hworks.stirs.executing.trans hbusy) hrun
      have hfresh₂ : ¬ m₂.Exhausted := fun he => hfresh (he.mono (trace_reattach ..))
      have hdetached := hm₀.detach (j := fun _ => j) hs hat
      obtain ⟨hm₂, hwidens, hproceeds⟩ := hacts.orderly hdetached hfresh₂
      have hsame := (restated_awake u m₀.tick).same.trans hproceeds.same
      -- nobody else is entered
      have hentries : turnEntries quietHost fuel { m₀.detach scope i (fun _ => j) u.id with
          running := ((u.awake m₀.tick).module.map (·.serial)).toList ++
            (m₀.detach scope i (fun _ => j) u.id).running } (u.awake m₀.tick) = [] := by
        have hseat : (m.threadsAt scope i)[j]? = some u := by
          rw [threadsAt, ← hscopes, hs]
          exact hat
        rw [visitMarks, if_neg (by simp [hactive])] at hflat
        simp only [hseat, hvisited, entered] at hflat
        generalize turnEntries quietHost fuel _ _ = es at hflat
        cases es with
        | nil => rfl
        | cons e es =>
          exact absurd ⟨[Mark.visit ⟨scope, i, u.id⟩], es.map .enter, rfl⟩ (hflat (u.awake m₀.tick).seat e)
      have htidy := (asks_turn hentries hrun).tidy hdetached hfresh₂ (h₀.detach hm₀ hs hat hreal hend)
      exact htidy.reattach hm₂ hs hat hreal hwidens hsame

/-- What is kept from visit to visit. -/
structure Kept (m : Machine) : Prop where
  executing : m.executing = true
  ordered : m.Ordered
  filled : m.Filled
  tidy : m.Tidy nobody

/-- A visit without nesting keeps machines as they were kept. -/
theorem Kept.visit {fuel : Nat} {v : Visit} (h : m.Kept)
    (hvisit : m.visit (turn quietHost fuel) scope i j = some (v, m'))
    (hflat : Flat (m.visitMarks quietHost fuel scope i j)) (hfresh : ¬ m'.Exhausted) : m'.Kept := by
  have hticks : Ticks Never m m' :=
    ticks_visit (acts_turn (obeys_quietHost Never) tame_never) h.executing hvisit
  obtain ⟨hordered, hfilled⟩ := hticks.orderly h.ordered h.filled hfresh
  exact ⟨(hticks.executing tame_never).trans h.executing, hordered, hfilled,
    h.tidy.visit h.ordered h.filled h.executing hvisit hflat hfresh⟩

/-- The visits to the threads of a module scope keep machines as they were kept. -/
theorem Kept.visitThreads {fuel n : Nat} (h : m.Kept)
    (hvisits : Machine.visitThreads (turn quietHost fuel) scope i n j m = some m')
    (hflat : Flat (threadMarks quietHost fuel scope i n j m)) (hfresh : ¬ m'.Exhausted) : m'.Kept := by
  induction n generalizing j m with
  | zero => cases hvisits
  | succ n ih =>
    have hrest : ∀ {m₁ : Machine} {k : Nat}, m₁.executing = true →
        Machine.visitThreads (turn quietHost fuel) scope i n k m₁ = some m' → ¬ m₁.Exhausted := by
      intro m₁ k hbusy hvisits he
      have hticks : Ticks Never m₁ m' :=
        ticks_visitThreads tame_never (acts_turn (obeys_quietHost Never) tame_never) hbusy hvisits
      exact hfresh (he.mono hticks.trace)
    have hbusy : ∀ {m₁ : Machine} {v : Visit}, m.visit (turn quietHost fuel) scope i j = some (v, m₁) →
        m₁.executing = true := by
      intro m₁ v hvisit
      have hticks : Ticks Never m m₁ :=
        ticks_visit (acts_turn (obeys_quietHost Never) tame_never) h.executing hvisit
      exact (hticks.executing tame_never).trans h.executing
    unfold Machine.visitThreads at hvisits
    unfold threadMarks at hflat
    have hfirst := hflat.segment (List.prefix_append ..).isInfix
    split at hvisits
    · cases hvisits
    · rename_i m₁ hvisit
      cases hvisits
      exact h.visit hvisit hfirst hfresh
    · rename_i m₁ hvisit
      rw [hvisit] at hflat
      exact ih (h.visit hvisit hfirst (hrest (hbusy hvisit) hvisits)) hvisits
        (hflat.segment (List.suffix_append ..).isInfix)
    · rename_i m₁ hvisit
      rw [hvisit] at hflat
      exact ih (h.visit hvisit hfirst (hrest (hbusy hvisit) hvisits)) hvisits
        (hflat.segment (List.suffix_append ..).isInfix)

/-- The visits to the module scopes of a map keep machines as they were kept. -/
theorem Kept.visitModules {fuel n : Nat} (h : m.Kept)
    (hvisits : Machine.visitModules (turn quietHost fuel) scope n i m = some m')
    (hflat : Flat (moduleMarks quietHost fuel scope n i m)) (hfresh : ¬ m'.Exhausted) : m'.Kept := by
  induction n generalizing i m with
  | zero => cases hvisits
  | succ n ih =>
    unfold Machine.visitModules at hvisits
    unfold moduleMarks at hflat
    cases hmap : m.scopes.map? scope with
    | none =>
      simp only [hmap] at hvisits
      cases hvisits
      exact h
    | some map =>
      simp only [hmap] at hvisits hflat
      split at hvisits
      · rename_i hlt
        rw [if_pos hlt] at hflat
        split at hvisits
        · cases hvisits
        · rename_i m₁ hthreads
          rw [hthreads] at hflat
          have hbusy : m₁.executing = true := by
            have hticks : Ticks Never m m₁ := ticks_visitThreads tame_never
              (acts_turn (obeys_quietHost Never) tame_never) h.executing hthreads
            exact (hticks.executing tame_never).trans h.executing
          have hticks : Ticks Never m₁ m' :=
            ticks_visitModules tame_never (acts_turn (obeys_quietHost Never) tame_never) hbusy hvisits
          refine ih (h.visitThreads hthreads (hflat.segment (List.prefix_append ..).isInfix) ?_) hvisits
            (hflat.segment (List.suffix_append ..).isInfix)
          exact fun he => hfresh (he.mono hticks.trace)
      · cases hvisits
        exact h

/-- The visits to all maps keep machines as they were kept. -/
theorem Kept.visitMaps {fuel : Nat} {scopes : List ScopeId} (h : m.Kept)
    (hvisits : Machine.visitMaps (turn quietHost fuel) fuel scopes m = some m')
    (hflat : Flat (mapMarks quietHost fuel scopes m)) (hfresh : ¬ m'.Exhausted) : m'.Kept := by
  induction scopes generalizing m with
  | nil =>
    cases hvisits
    exact h
  | cons scope rest ih =>
    unfold Machine.visitMaps at hvisits
    unfold mapMarks at hflat
    split at hvisits
    · rename_i hactive
      rw [if_pos hactive] at hflat
      split at hvisits
      · cases hvisits
      · rename_i m₁ hmodules
        rw [hmodules] at hflat
        have hbusy : m₁.executing = true := by
          have hticks : Ticks Never m m₁ := ticks_visitModules tame_never
            (acts_turn (obeys_quietHost Never) tame_never) h.executing hmodules
          exact (hticks.executing tame_never).trans h.executing
        have hticks : Ticks Never m₁ m' :=
          ticks_visitMaps tame_never (acts_turn (obeys_quietHost Never) tame_never) hbusy hvisits
        refine ih (h.visitModules hmodules (hflat.segment (List.prefix_append ..).isInfix) ?_) hvisits
          (hflat.segment (List.suffix_append ..).isInfix)
        exact fun he => hfresh (he.mono hticks.trace)
    · rename_i hactive
      rw [if_neg hactive] at hflat
      exact ih h hvisits hflat

/-- **A tick** in which no thread is entered within the turn of another keeps the maps tidy. -/
theorem Tidy.exec {fuel : Nat} (h : m.Tidy nobody) (hm : m.Ordered) (hfilled : m.Filled)
    (hexec : m.exec quietHost fuel = some m') (hflat : Flat (m.tickMarks quietHost fuel))
    (hfresh : ¬ m'.Exhausted) : m'.Tidy nobody := by
  unfold Machine.exec execWith at hexec
  split at hexec
  · cases hexec
    exact h.of_rosters (.of_scopes rfl)
  · obtain ⟨m₁, hvisits, rfl⟩ := Option.map_eq_some_iff.1 hexec
    have hkept : Kept { m with executing := true, tick := m.tick + 1 } :=
      ⟨rfl, hm.of_scopes rfl, hfilled, h.of_rosters (.of_scopes rfl)⟩
    exact (hkept.visitMaps hvisits hflat hfresh).tidy.of_rosters (.of_scopes rfl)

/-! ## Runs -/

/-- **What the host does** keeps the maps tidy. -/
theorem Tidy.deed {c : Terms} (h : m.Tidy nobody) (hm : m.Ordered) (hdeed : Deed c m m')
    (hfresh : ¬ m'.Exhausted) : m'.Tidy nobody := by
  have hsame : m'.scopes = m.scopes → m'.Tidy nobody := fun heq => h.of_rosters (.of_scopes heq)
  have hasks : m.Asks m' → m'.Tidy nobody := fun hasks => hasks.tidy hm hfresh h
  have hempty : ∀ id, MapScope.Tidy (nobody id) {} := fun id => tidy_empty _
  obtain ⟨r, rfl⟩ | ⟨scope, modules, -, rfl⟩ | ⟨level, id, i, f, rfl⟩ | hscopes := hdeed.on_tree
  · cases r with
    | start scope name args info => exact hasks (asks_startScript ..)
    | startForced scope name args info => exact hasks (asks_startForced ..)
    | startType scope type args info =>
      refine hasks ?_
      simp only [serve, startType]
      split
      · exact .refl m
      · exact asks_startAll ..
    | stop scope name => exact hasks (.halt m scope name (by decide))
    | pause scope name => exact hasks (.halt m scope name (by decide))
    | ensure level id => exact Throughout.ensure h hempty level id
    | setActive level id active =>
      exact Throughout.setActive h hempty (fun hmap _ => hmap.of_modules rfl rfl) level id active
    | free level id => exact Throughout.free h level id
    | intern bytes => exact hsame rfl
    | collect => exact hsame (collectStrings_scopes m)
    | save => exact hsame (save_scopes m)
  · have hmade := Throughout.ensureMap h hempty scope
    have hadded : Tidy nobody ((m.ensureMap scope).registerAll scope modules).2 :=
      hmade.registerAll (fun hmap x => hmap.addModule x) scope modules
    have hmade' := Throughout.ensureMap hm MapScope.ordered_empty scope
    have hordered : Ordered ((m.ensureMap scope).registerAll scope modules).2 :=
      hmade'.registerAll (fun hmap x => hmap.addModule x) scope modules
    refine Asks.tidy ?_ hordered hfresh hadded
    simp only [addModules]
    split
    · exact asks_startAll ..
    · exact .refl _
  · exact h.of_rosters (sameRosters_modifyVars m level id i f m.strings)
  · exact hsame hscopes

/-- Scripts call built-in functions only and start none for its result, and no states are loaded. -/
def Regime.unnested : Regime :=
  { Regime.unaided {} with
    ticks := fun m fuel => Flat (m.tickMarks quietHost fuel)
    starts := False }

/-- The machines that come about by what a host does between ticks, and by ticks in which scripts call
built-in functions only and start none for its result. -/
def Unnested : Machine → Prop := Regime.unnested.Run

/-- Where no turn nests in another, the machine is managed. -/
theorem Unnested.managed (h : Unnested m) : Managed m := by
  induction h with
  | make settings => exact .make settings
  | handle _ hdo ih =>
    cases hdo with
    | deed hdeed => exact ih.operate hdeed
    | exec _ hexec => exact ih.exec hexec
    | startResult hstarts _ => exact hstarts.elim
  | load _ _ htakes _ => exact htakes.elim
  | reload _ _ _ _ hreturns _ _ => exact hreturns.elim

/-- Whoever runs a script that is not one to run several times at once holds its name. -/
theorem Unnested.tidy (h : Unnested m) (hfresh : ¬ m.Exhausted) : m.Tidy nobody := by
  induction h with
  | make settings => exact fun id map hmap => by cases hmap
  | @handle occasion m m' h hdo ih =>
    have hbefore : ¬ m.Exhausted := fun he => hfresh (he.mono hdo.trace)
    have hordered := (Unnested.managed h).ordered hbefore
    cases hdo with
    | deed hdeed => exact (ih hbefore).deed hordered hdeed hfresh
    | exec hflat hexec =>
      exact (ih hbefore).exec hordered ((Unnested.managed h).filled hbefore) (hexec quietHost) hflat hfresh
    | startResult hstarts _ => exact hstarts.elim
  | load _ _ htakes _ => exact htakes.elim
  | reload _ _ _ _ hreturns _ _ => exact hreturns.elim

/-- **One live instance.**  In every machine that comes about where scripts call built-in functions only
and start none for its result, and in which no map has given away its last thread id, a script that is
not one to run several times at once, and that is the first of its name, has at most one thread in its
module scope that has not ended. -/
theorem Unnested.one_instance (h : Unnested m) (hfresh : ¬ m.Exhausted) {id : ScopeId}
    {map : MapScope} (hmap : m.scopes.map? id = some map) {i j : Nat} {s : ModuleScope} {x : Script}
    (hs : map.modules[i]? = some s) (hx : s.module.scripts[j]? = some x) (hmulti : x.multi = false)
    (hfirst : map.declaration? x.name = some (i, j)) :
    (s.threads.filter fun t => t.scriptIndex == j && !t.state.isFinished).length ≤ 1 := by
  have hordered := h.managed.ordered hfresh id map hmap
  rw [← hordered.declared.find?_eq] at hfirst
  obtain ⟨slot, hslot, hplace⟩ := Option.map_eq_some_iff.1 hfirst
  cases hplace
  exact (h.tidy hfresh id map hmap).length_le_one hordered
    (h.managed.filled hfresh id map hmap s (List.mem_of_getElem? hs)) hs hx hmulti hslot rfl rfl

/-- The machine with the thread asleep comes about without nesting. -/
theorem unnested_sleepingMachine : Unnested sleepingMachine := by
  have hmarks : (entries (startedMachine.tickMarks quietHost 9)).length = 1 := by decide +kernel
  have hflat : Flat (startedMachine.tickMarks quietHost 9) := by
    intro s s' hboth
    have hle : (entries [.enter s, .enter s']).length ≤
        (entries (startedMachine.tickMarks quietHost 9)).length := (hboth.sublist.filterMap _).length_le
    rw [hmarks] at hle
    exact absurd hle (by decide : ¬ 2 ≤ 1)
  have hsupplied : Unnested suppliedMachine :=
    .handle (.make _) (.deed (.loading rfl trivial fun _ _ _ => trivial))
  have hadded : Unnested addedMachine := .handle hsupplied (.deed (.adding rfl fun _ _ => trivial))
  have hstarted : Unnested startedMachine := .handle hadded (.deed (.asking rfl trivial))
  exact .handle hstarted (.exec hflat exec_startedMachine)

/-- The machine with the thread asleep, after its script was asked for again with all of its type. -/
def retriedMachine : Machine := (sleepingMachine.serve (.startType {} 0 [] {})).2

/-- The sleeping thread stays the only one. -/
theorem Unnested.one_instance_retried : Unnested retriedMachine ∧
    ∃ map s x, retriedMachine.scopes.map? {} = some map ∧ map.modules[0]? = some s ∧
      s.module.scripts[0]? = some x ∧ map.declaration? x.name = some (0, 0) ∧ s.threads.length = 1 ∧
      (s.threads.filter fun t => t.scriptIndex == 0 && !t.state.isFinished).length ≤ 1 := by
  obtain ⟨hlast, hfound⟩ :
      (∀ e ∈ retriedMachine.trace, logEnd? e ≠ some '5') ∧
      ((retriedMachine.scopes.map? {}).bind fun map => map.modules[0]?.bind fun s =>
        s.module.scripts[0]?.map fun x =>
          (x.multi, map.declaration? x.name, s.threads.length)) = some (false, some (0, 0), 1) := by
    decide +kernel
  have hfresh : ¬ retriedMachine.Exhausted := not_exhausted_of_logEnd? hlast
  have hunnested : Unnested retriedMachine :=
    .handle unnested_sleepingMachine (.deed (.request _ trivial))
  obtain ⟨map, hmap, hfound⟩ := Option.bind_eq_some_iff.1 hfound
  obtain ⟨s, hs, hfound⟩ := Option.bind_eq_some_iff.1 hfound
  obtain ⟨x, hx, hfound⟩ := Option.map_eq_some_iff.1 hfound
  obtain ⟨hmulti, hfirst, hone⟩ : x.multi = false ∧ map.declaration? x.name = some (0, 0) ∧
      s.threads.length = 1 := by simpa using hfound
  have hle := Unnested.one_instance hunnested hfresh hmap hs hx hmulti hfirst
  exact ⟨hunnested, map, s, x, hmap, hs, hx, hfirst, hone, hle⟩

end Machine

end ScriptMachine
