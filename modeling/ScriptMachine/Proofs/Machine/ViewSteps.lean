import ScriptMachine.Proofs.Machine.Calls
import ScriptMachine.Proofs.Machine.View
import ScriptMachine.Proofs.Thread.Moves

/-!
# Instructions and views

What an instruction does can be told from the view of its machine, where the map of the running thread
is in sight: its operands, the variables it reads and the scripts it finds are the same there.  Two
instructions go beyond the view.  A store into an array of strings moves locks, of which the view may
forget something; and a random number depends on the generator.  For these, machines that show the same
are compared instead (`dropArr_congr`, `step_congr`).
-/

namespace ScriptMachine

/-! ## Threads -/

namespace Thread

variable (σ : ModuleName → Nat) (g : Nat → Nat) (t : Thread)

theorem pop_recast : (t.recast σ g).pop = (t.pop.1, t.pop.2.recast σ g) := by
  have hstack : (t.recast σ g).stack = t.stack := rfl
  unfold pop
  rw [hstack]
  cases t.stack <;> rfl

theorem ret_recast (value : Option Word) : (t.recast σ g).ret value = (t.ret value).recast σ g := by
  have hframes : (t.recast σ g).frames = t.frames := rfl
  unfold ret
  rw [hframes]
  cases t.frames with
  | nil => rfl
  | cons f rest =>
    dsimp only
    split <;> rfl

end Thread

/-- A store into arrays, for tables of which the same is kept. -/
theorem Lens.store_congr (L : Lens) {t u : StringTable} (h : L.table t = L.table u) (v : Vars)
    (i k w : Word) :
    (v.store i k w t).1 = (v.store i k w u).1 ∧
      L.table (v.store i k w t).2 = L.table (v.store i k w u).2 := by
  have hlocked := L.lock_congr w h
  unfold Vars.store
  cases v.arr? i with
  | none => exact ⟨rfl, h⟩
  | some a =>
    dsimp only
    split
    · refine ⟨rfl, ?_⟩
      unfold Sparse.setString
      dsimp only
      split
      · exact L.unlock_congr _ hlocked
      · exact hlocked
    · exact ⟨rfl, h⟩

namespace Vantage

/-- A machine and its running thread as they show. -/
def shown (L : Lens) (V : Vantage) (p : Machine × Thread) : Machine × Thread :=
  (p.1.view L V, V.face p.2)

/-- What an instruction comes to, as it shows. -/
def shownStep (L : Lens) (V : Vantage) (p : Machine × Thread × Bool) : Machine × Thread × Bool :=
  (p.1.view L V, V.face p.2.1, p.2.2)

end Vantage

namespace Machine

variable {L : Lens} {V : Vantage} (m : Machine) {t : Thread}

/-! ## What scripts look at -/

/-- The contents of strings show. -/
theorem bytes?_view (i : Word) : (m.view L V).strings.bytes? i = m.strings.bytes? i :=
  L.bytes?_table ..

/-- The names that strings stand for show. -/
theorem nameOf?_view (i : Word) : (m.view L V).nameOf? i = m.nameOf? i := by
  rw [nameOf?, nameOf?, bytes?_view]

theorem kill_view (t : Thread) (reason : KillReason) (data : Word) :
    (m.view L V).kill (V.face t) reason data = V.shown L (m.kill t reason data) := by
  have hmodule : ((V.face t).module.map (·.name)).getD { name := "" } =
      (t.module.map (·.name)).getD { name := "" } := by
    cases ht : t.module <;> simp [Vantage.face, Thread.recast, ht, LoadedModule.recast]
  have hscript : (V.face t).scriptName? = t.scriptName? := Thread.scriptName?_recast ..
  simp only [kill, hmodule, hscript, Vantage.shown, log_view]
  exact congrArg (·, _) (report_view (m.log .warn _) (k := .kill) (by decide) (.kill _))

theorem endMessage_view (t : Thread) :
    (m.view L V).endMessage (V.face t) = V.shown L (m.endMessage t) := by
  have hhas : (m.view L V).hooks.has .print = m.hooks.has .print := m.hooks.has_bare (by decide)
  simp only [endMessage, hhas]
  split <;> rfl

section

variable {m} (hs : V.sees t.scope.global)
include hs

/-- Whether a thread holds a name shows. -/
theorem holdsName_view (name : ScriptName) :
    (m.view L V).holdsName (V.face t) name = m.holdsName t name := by
  have hresolve : (m.view L V).resolveScript? (V.face t).scope name = m.resolveScript? t.scope name :=
    resolveScript?_view m hs name
  rw [holdsName, holdsName, hresolve]
  rfl

/-- The variables on the path of a thread in sight show. -/
theorem vars?_view (level : Level) (i : Nat) :
    (m.view L V).scopes.vars? level t.scope i = m.scopes.vars? level t.scope i := by
  rw [← Vantage.vars?_tree hs m.scopes]
  exact ScopeTree.vars?_recast ..

/-- A change to variables on the path of a thread in sight is one to what shows. -/
theorem view_modifyVars (level : Level) (i : Nat) (f : Vars → Vars) :
    { m.view L V with scopes := (m.view L V).scopes.modifyVars level t.scope i f } =
      { m with scopes := m.scopes.modifyVars level t.scope i f }.view L V := by
  simp only [view, Vantage.tree_modifyVars hs, ScopeTree.recast_modifyVars]

theorem printArray_view (i : Word) :
    (m.view L V).printArray (V.face t) i = V.shown L (m.printArray t i) := by
  have hhas : (m.view L V).hooks.has .printArray = m.hooks.has .printArray :=
    m.hooks.has_bare (by decide)
  have harray : ((m.view L V).scopes.module? (V.face t).scope (V.face t).moduleIndex).bind
      (·.vars.arr? i) = (m.scopes.module? t.scope t.moduleIndex).bind (·.vars.arr? i) := by
    have hmodule : (m.view L V).scopes.module? (V.face t).scope (V.face t).moduleIndex = _ :=
      module?_view m hs t.moduleIndex
    rw [hmodule]
    cases m.scopes.module? t.scope t.moduleIndex <;> rfl
  simp only [printArray, harray, hhas]
  split
  · rfl
  · split <;> rfl

theorem haltFrom_view (pause : Bool) (name : Option ScriptName) :
    (m.view L V).haltFrom (V.face t) pause name = V.shown L (m.haltFrom t pause name) := by
  cases name with
  | none => rfl
  | some name =>
    have hset : ∀ state, (m.view L V).setScriptState (V.face t).scope name state = _ :=
      fun state => setScriptState_view m hs name state
    have hstate : (V.face t).state = t.state := rfl
    simp only [haltFrom]
    generalize (if pause = true then ThreadState.paused else ThreadState.stopped) = state
    simp only [hset, holdsName_view hs, hstate]
    split <;> rfl

/-- A start that gives no turn. -/
theorem startFrom_view {mode : StartMode} (hmode : mode ≠ .result) (turn : Turn)
    (name : Option ScriptName) (args : List Word) :
    (m.view L V).startFrom turn (V.face t) mode name args =
      (m.startFrom turn t mode name args).map (V.shown L) := by
  cases name with
  | none => rfl
  | some name =>
    have hstate : (V.face t).state = t.state := rfl
    have hstart : (m.view L V).startScript (V.face t).scope name args (V.face t).info = _ :=
      startScript_view m hs name args t.info
    have hforced : (m.view L V).startForced (V.face t).scope name args (V.face t).info = _ :=
      startForced_view m hs name args t.info
    cases mode with
    | normal =>
      simp only [startFrom, holdsName_view hs, hstate, hstart]
      split <;> rfl
    | forced =>
      simp only [startFrom, holdsName_view hs]
      cases m.holdsName t name with
      | true => exact congrArg (fun p : Bool × Machine =>
          some (p.2, { V.face t with state := .stopped }.push (.ofBool p.1))) hforced
      | false => exact congrArg (fun p : Bool × Machine =>
          some (p.2, (V.face t).push (.ofBool p.1))) hforced
    | result => exact absurd rfl hmode

/-- A built-in function that neither gives a turn nor asks the generator. -/
theorem callBuiltin_view (turn : Turn) {f : Builtin} (hrandom : f ≠ .random)
    (hresult : f ≠ .startResultNumber ∧ f ≠ .startResultName) (args : List Word) :
    (m.view L V).callBuiltin turn (V.face t) f args =
      (m.callBuiltin turn t f args).map (V.shown L) := by
  have hactive : ∀ name, (m.view L V).scriptActive (V.face t).scope name =
      m.scriptActive t.scope name := fun name => scriptActive_view m hs name
  have hhas : (m.view L V).hooks.has .checkLock = m.hooks.has .checkLock :=
    m.hooks.has_bare (by decide)
  cases f with
  | random => exact absurd rfl hrandom
  | startResultNumber => exact absurd rfl hresult.1
  | startResultName => exact absurd rfl hresult.2
  | startNumber =>
    simp only [callBuiltin]
    exact startFrom_view hs (by decide) ..
  | startForcedNumber =>
    simp only [callBuiltin]
    exact startFrom_view hs (by decide) ..
  | startName =>
    simp only [callBuiltin, nameOf?_view]
    exact startFrom_view hs (by decide) ..
  | startForcedName =>
    simp only [callBuiltin, nameOf?_view]
    exact startFrom_view hs (by decide) ..
  | stopNumber => exact congrArg some (haltFrom_view hs ..)
  | pauseNumber => exact congrArg some (haltFrom_view hs ..)
  | stopName =>
    simp only [callBuiltin, nameOf?_view]
    exact congrArg some (haltFrom_view hs ..)
  | pauseName =>
    simp only [callBuiltin, nameOf?_view]
    exact congrArg some (haltFrom_view hs ..)
  | printEnd => exact congrArg some (endMessage_view m t)
  | printArray => exact congrArg some (printArray_view hs _)
  | printString =>
    simp only [callBuiltin, bytes?_view]
    rfl
  | stringLength =>
    simp only [callBuiltin, bytes?_view]
    rfl
  | activeNumber =>
    simp only [callBuiltin, hactive]
    rfl
  | checkLock =>
    simp only [callBuiltin, hhas]
    split <;> rfl
  | nop => rfl
  | printBegin => rfl
  | printNumber => rfl
  | printChar => rfl
  | printFixed => rfl
  | setResult => rfl

/-- Access to a variable that stores nothing into an array. -/
theorem accessVar_view (level : Level) {action : VarAction} (haction : action ≠ .dropArr) (i : Word) :
    (m.view L V).accessVar (V.face t) level action i = V.shown L (m.accessVar t level action i) := by
  have hvars : ∀ u : Thread, u.scope = t.scope →
      (m.view L V).scopes.vars? level (V.face u).scope (V.face u).moduleIndex =
        m.scopes.vars? level u.scope u.moduleIndex :=
    fun u hu => vars?_view (hu ▸ hs) level u.moduleIndex
  have hset : ∀ (u : Thread) f, u.scope = t.scope → { m.view L V with
      scopes := (m.view L V).scopes.modifyVars level (V.face u).scope (V.face u).moduleIndex f } =
      { m with scopes := m.scopes.modifyVars level u.scope u.moduleIndex f }.view L V :=
    fun u f hu => view_modifyVars (hu ▸ hs) level u.moduleIndex f
  have hpop : (V.face t).pop = (t.pop.1, V.face t.pop.2) := Thread.pop_recast ..
  have hscope : t.pop.2.scope = t.scope := (Thread.Stays.refl t).pop.scope
  cases action with
  | dropArr => exact absurd rfl haction
  | pushReg => cases level <;> simp only [accessVar, hvars t rfl] <;> rfl
  | incReg => cases level <;> simp only [accessVar, hset t _ rfl] <;> rfl
  | decReg => cases level <;> simp only [accessVar, hset t _ rfl] <;> rfl
  | pushArr => cases level <;> simp only [accessVar, hpop, hvars _ hscope] <;> rfl
  | dropReg => cases level <;> simp only [accessVar, hpop, hset _ _ hscope] <;> rfl

/-- An instruction that neither calls a function nor stores into an array. -/
theorem step_view (host : Host) (turn : Turn) (exec : Machine → Option Machine) (module : LoadedModule)
    {op : Opcode} (hvar : ∀ level, op ≠ .var level .dropArr) (hcall : op ≠ .callFunc)
    (operands : List Word) :
    step host turn exec module op operands (m.view L V) (V.face t) =
      (step host turn exec module op operands m t).map (V.shownStep L) := by
  have hpop : ∀ u : Thread, (V.face u).pop = (u.pop.1, V.face u.pop.2) := fun u => u.pop_recast ..
  have hret : ∀ (u : Thread) value, (V.face u).ret value = V.face (u.ret value) :=
    fun u value => u.ret_recast ..
  have hkill : ∀ reason data, (m.view L V).killStep (V.face t) reason data =
      (m.killStep t reason data).map (V.shownStep L) := by
    intro reason data
    simp only [killStep, kill_view]
    rfl
  have hscript : (V.face t).scriptIndex = t.scriptIndex := rfl
  have hstack : (V.face t).stack = t.stack := rfl
  cases op with
  | callFunc => exact absurd rfl hcall
  | var level action =>
    have haction : action ≠ .dropArr := fun h => hvar level (h ▸ rfl)
    simp only [step, accessVar_view hs level haction]
    rfl
  | kill => exact hkill ..
  | restart =>
    simp only [step, hscript]
    split <;> rfl
  | waitName =>
    simp only [step, hpop, bytes?_view]
    rfl
  | jumpTrue =>
    simp only [step, hpop]
    split <;> rfl
  | jumpZero =>
    simp only [step, hpop]
    split <;> rfl
  | jumpEqual =>
    simp only [step, hpop, hstack]
    split <;> rfl
  | call =>
    simp only [step, hkill]
    split <;> rfl
  | callDiscard =>
    simp only [step, hkill]
    split <;> rfl
  | _ =>
    simp only [step, hpop, hret]
    rfl

end

/-! ## Machines that show the same -/

section

variable {m} {V' : Vantage} {m' : Machine} {t' : Thread} (h : m.view L V = m'.view L V')
  (ht : V.face t = V'.face t')
include h ht

omit h in
/-- Threads that show the same pop the same word, and show the same then. -/
theorem pop_of_face : t.pop.1 = t'.pop.1 ∧ V.face t.pop.2 = V'.face t'.pop.2 := by
  have hpop : (V.face t).pop = (V'.face t').pop := by rw [ht]
  rw [Vantage.face, Vantage.face, Thread.pop_recast, Thread.pop_recast] at hpop
  exact Prod.mk.inj hpop

omit h in
/-- Threads that show the same belong to one map. -/
theorem scope_of_face : t.scope = t'.scope := by
  have hscope : (V.face t).scope = (V'.face t').scope := by rw [ht]
  exact hscope

omit h in
/-- Threads that show the same are in one module scope. -/
theorem moduleIndex_of_face : t.moduleIndex = t'.moduleIndex := by
  have hindex : (V.face t).moduleIndex = (V'.face t').moduleIndex := by rw [ht]
  exact hindex

omit h in
/-- Threads that show the same take the same arguments. -/
theorem takeArgs_of_face (count : Word) : (t.takeArgs count).1 = (t'.takeArgs count).1 := by
  have hargs : ((V.face t).takeArgs count).1 = ((V'.face t').takeArgs count).1 := by rw [ht]
  exact hargs

variable (hs : V.sees t.scope.global) (hs' : V'.sees t.scope.global)
include hs hs'

/-- A store into an array.  The locks it moves are not told by the view, but go the same way. -/
theorem dropArr_congr (level : Level) (i : Word) :
    V.shown L (m.accessVar t level .dropArr i) = V'.shown L (m'.accessVar t' level .dropArr i) := by
  obtain ⟨hw, hrest⟩ := pop_of_face ht
  obtain ⟨hk, hlast⟩ := pop_of_face hrest
  have hstays := (Thread.Stays.refl t).pop.pop
  simp only [accessVar, hw, hk]
  generalize t.pop.2.pop.2 = u at hlast hstays ⊢
  generalize t'.pop.2.pop.2 = u' at hlast ⊢
  generalize t'.pop.2.pop.1 = k
  generalize t'.pop.1 = w
  rw [← hstays.scope] at hs hs'
  have hindex := moduleIndex_of_face hlast
  have hscope := scope_of_face hlast
  have hvars : m.scopes.vars? level u.scope u.moduleIndex =
      m'.scopes.vars? level u'.scope u'.moduleIndex := by
    rw [← vars?_view (L := L) hs, h, vars?_view hs', hscope, hindex]
  have hset : ∀ v : Vars,
      { m with
        strings := (v.store i k w m.strings).2
        scopes := m.scopes.modifyVars level u.scope u.moduleIndex fun _ =>
          (v.store i k w m.strings).1 }.view L V =
      { m' with
        strings := (v.store i k w m'.strings).2
        scopes := m'.scopes.modifyVars level u'.scope u'.moduleIndex fun _ =>
          (v.store i k w m'.strings).1 }.view L V' := by
    intro v
    obtain ⟨hstored, htable⟩ := L.store_congr (table_of_view h) v i k w
    rw [← hscope, ← hindex, hstored,
      ← view_modifyVars (m := { m with strings := (v.store i k w m.strings).2 }) hs,
      ← view_modifyVars (m := { m' with strings := (v.store i k w m'.strings).2 }) hs']
    have hkept : { m with strings := (v.store i k w m.strings).2 }.view L V =
        { m' with strings := (v.store i k w m'.strings).2 }.view L V' := by
      have hview := congrArg (fun x : Machine => { x with strings := L.table (v.store i k w m.strings).2 }) h
      exact hview.trans (congrArg (fun x => { m'.view L V' with strings := x }) htable)
    rw [hkept]
  cases level with
  | thread =>
    exact Prod.ext h (congrArg (fun x : Thread =>
      { x with arrs := x.arrs.modify (x.arrBase + i.toNat) fun a => a.set k w }) hlast)
  | _ =>
    simp only [hvars]
    split
    · exact Prod.ext h hlast
    · exact Prod.ext (hset ..) hlast

/-- A built-in function that gives no turn. -/
theorem callBuiltin_congr (turn : Turn) {f : Builtin} (args : List Word)
    (hrandom : f = .random → m.rng = m'.rng) (hnumber : f ≠ .startResultNumber)
    (hname : f = .startResultName → m.nameOf? (args.headD 0) = none) :
    (m.callBuiltin turn t f args).map (V.shown L) =
      (m'.callBuiltin turn t' f args).map (V'.shown L) := by
  have hscope := scope_of_face ht
  by_cases hf : f = .random
  · subst hf
    have hrng := hrandom rfl
    have hm : { m with rng := nextRandom m'.rng }.view L V =
        { m' with rng := nextRandom m'.rng }.view L V' :=
      congrArg (fun x : Machine => { x with rng := L.seed (nextRandom m'.rng) }) h
    simp only [callBuiltin, random, hrng]
    exact congrArg some (Prod.ext hm (congrArg (Thread.push · _) ht))
  · by_cases hf' : f = .startResultName
    · subst hf'
      have hnone := hname rfl
      have hnone' : m'.nameOf? (args.headD 0) = none := by
        rw [← nameOf?_view (L := L) (V := V'), ← h, nameOf?_view, hnone]
      simp only [callBuiltin, hnone, hnone', startFrom]
      exact congrArg some (Prod.ext h (congrArg (Thread.push · 0) ht))
    · rw [← callBuiltin_view hs turn hf ⟨hnumber, hf'⟩, h, ht,
        callBuiltin_view (hscope ▸ hs') turn hf ⟨hnumber, hf'⟩]

/-- A call of a function that gives no turn and is not the host's. -/
theorem callFunc_congr (host : Host) (turn : Turn) (exec : Machine → Option Machine)
    {operands : List Word} (hcall : resultCall? .callFunc operands m t = none)
    (hhost : hostCall? .callFunc operands m = none)
    (hrandom : callee? .callFunc operands m = some (.builtin .random) → m.rng = m'.rng) :
    (callFunc host turn exec m t (operands.headD 0) (operands.tail.headD 0)).map (V.shownStep L) =
      (callFunc host turn exec m' t' (operands.headD 0) (operands.tail.headD 0)).map
        (V'.shownStep L) := by
  have hargs := takeArgs_of_face ht (operands.headD 0)
  have hrest : V.face (t.takeArgs (operands.headD 0)).2 = V'.face (t'.takeArgs (operands.headD 0)).2 :=
    congrArg (fun x : Thread => (x.takeArgs (operands.headD 0)).2) ht
  have hkill : ∀ {u u' : Thread} data, V.face u = V'.face u' →
      (m.killStep u .unknownFunc data).map (V.shownStep L) =
        (m'.killStep u' .unknownFunc data).map (V'.shownStep L) := by
    intro u u' data hu
    have hkilled : V.shown L (m.kill u .unknownFunc data) = V'.shown L (m'.kill u' .unknownFunc data) := by
      rw [← kill_view, ← kill_view, h, hu]
    exact congrArg (fun p : Machine × Thread => some (p.1, p.2, false)) hkilled
  simp only [callFunc, ← settings_of_view h, ← builtins_of_view h, ← hostFuncs_of_view h]
  simp only [resultCall?] at hcall
  simp only [hostCall?] at hhost
  simp only [callee?] at hrandom
  split
  · rename_i hfunc
    simp only [if_pos hfunc] at hcall hrandom
    split
    · rename_i f hf
      simp only [hf] at hcall hrandom
      have hbuiltin := callBuiltin_congr h hrest hs hs' turn (f := f)
        (t'.takeArgs (operands.headD 0)).1 (fun hf => hrandom (by rw [hf]; rfl))
        (by rintro rfl; cases hcall) (by rintro rfl; rw [← hargs]; simpa using hcall)
      rw [hargs, Option.map_map, Option.map_map]
      have hshown := congrArg (Option.map fun p : Machine × Thread => (p.1, p.2, false)) hbuiltin
      rw [Option.map_map, Option.map_map] at hshown
      exact hshown
    · exact hkill _ hrest
  · rename_i hfunc
    simp only [if_neg hfunc] at hhost
    rw [hhost]
    exact hkill _ hrest

/-- **An instruction** that neither starts a script for its result nor calls a host function does the
same for machines that show the same. -/
theorem step_congr (host : Host) (turn : Turn) (exec : Machine → Option Machine)
    {module module' : LoadedModule} {op : Opcode} {operands : List Word}
    (hmodule : module.recast (fun _ => 0) = module'.recast fun _ => 0)
    (hcall : resultCall? op operands m t = none) (hhost : hostCall? op operands m = none)
    (hrandom : callee? op operands m = some (.builtin .random) → m.rng = m'.rng) :
    (step host turn exec module op operands m t).map (V.shownStep L) =
      (step host turn exec module' op operands m' t').map (V'.shownStep L) := by
  have hserial : ∀ x : LoadedModule, ∀ m t, step host turn exec x op operands m t =
      step host turn exec (x.recast fun _ => 0) op operands m t := by
    intro x m t
    cases op <;> rfl
  rw [hserial module, hserial module', hmodule]
  generalize (module'.recast fun _ => 0) = x
  have hscope := scope_of_face ht
  by_cases hvar : ∃ level, op = .var level .dropArr
  · obtain ⟨level, rfl⟩ := hvar
    have hstored := dropArr_congr h ht hs hs' level (operands.headD 0)
    simp only [step, Option.map_some]
    exact congrArg (fun p : Machine × Thread => some (p.1, p.2, false)) hstored
  · by_cases hfunc : op = .callFunc
    · subst hfunc
      simp only [step]
      exact callFunc_congr h ht hs hs' host turn exec hcall hhost hrandom
    · rw [← step_view hs host turn exec x (fun level hop => hvar ⟨level, hop⟩) hfunc, h, ht,
        step_view (hscope ▸ hs') host turn exec x (fun level hop => hvar ⟨level, hop⟩) hfunc]

end

end Machine

end ScriptMachine
