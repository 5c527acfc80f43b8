import ScriptMachine.Proofs.Machine.HostPrograms
import ScriptMachine.Proofs.Machine.Nesting

/-!
# Which functions scripts call

`tickCalls` lists the functions that are called in a tick, in order, each with the map of the calling
thread.  Where all of them are built in, no host function has a say in what the tick comes to
(`exec_eq_of_calls`).
-/

namespace ScriptMachine

/-- A function that a script can call. -/
inductive Callee where
  | builtin (f : Builtin)
  /-- A host function, by its key. -/
  | host (key : Nat)
deriving DecidableEq

/-- A call of a function by a thread of a map. -/
structure Call where
  scope : ScopeId
  callee : Callee
deriving DecidableEq

/-- The called function is built in. -/
def Call.IsBuiltin (c : Call) : Prop := ∃ f, c.callee = .builtin f

instance (c : Call) : Decidable c.IsBuiltin :=
  match h : c.callee with
  | .builtin f => isTrue ⟨f, h⟩
  | .host _ => isFalse fun ⟨_, hf⟩ => by cases h.symm.trans hf

namespace Machine

/-! ## Calls in a turn -/

/-- The function that an instruction calls. -/
def callee? (op : Opcode) (operands : List Word) (m : Machine) : Option Callee :=
  match op with
  | .callFunc =>
    let func := operands.tail.headD 0
    if func < m.settings.funcBase then (m.builtins.find? func).map .builtin
    else (m.hostFuncs[(func - m.settings.funcBase).toNat]?).map .host
  | _ => none

/-- The calls of a thread that is given a turn, where `inner` knows those of turns. -/
def detachedCalls (inner : Machine → Thread → List Call) (m : Machine) (t : Thread) : List Call :=
  inner { m with running := (t.module.map (·.serial)).toList ++ m.running } t

/-- The calls in a start for a result. -/
def startCalls (inner : Machine → Thread → List Call) (m : Machine) (scope : ScopeId)
    (name : ScriptName) (args : List Word) (info : ThreadInfo) : List Call :=
  match m.startedTurn? scope name args info with
  | none => []
  | some (m, t) => detachedCalls inner m t

/-- The calls of an instruction: its own, and those of a script that it starts for its result. -/
def stepCalls (inner : Machine → Thread → List Call) (op : Opcode) (operands : List Word) (m : Machine)
    (t : Thread) : List Call :=
  ((callee? op operands m).map (Call.mk t.scope)).toList ++
    match resultCall? op operands m t with
    | none => []
    | some (name, args) => m.startCalls inner t.scope name args t.info

/-- The calls within a turn, with a way to know those of the instructions. -/
def turnCallsWith (loop : Word → Word → LoadedModule → Machine → Thread → List Call) (m : Machine)
    (t : Thread) : List Call :=
  match t.module with
  | none => []
  | some module => loop m.settings.branchLimit 0 module m t

/-- The calls within a turn, in the order of the instructions.  Host functions are not looked into. -/
def loopCalls (host : Host) :
    (fuel : Nat) → (limit count : Word) → LoadedModule → Machine → Thread → List Call
  | 0, _, _, _, _, _ => []
  | fuel + 1, limit, count, module, m, t =>
    if t.state != .running || t.delay != 0 then []
    else if limit != 0 && limit ≤ count then []
    else
      match fetchAt module.code t.codePtr with
      | .error _ => []
      | .ok (op, operands) =>
        let turn := turnWith (loop host fuel)
        let t := { t with codePtr := t.codePtr + 1 + op.arity }
        stepCalls (turnCallsWith (loopCalls host fuel)) op operands m t ++
          match step host turn (execWith turn fuel) module op operands m t with
          | some (m, t, false) =>
            loopCalls host fuel limit (if limit = 0 then count else count + 1) module m t
          | _ => []

/-- The calls within a turn. -/
def turnCalls (host : Host) (fuel : Nat) : Machine → Thread → List Call :=
  turnCallsWith (loopCalls host fuel)

/-! ## Calls in a tick -/

/-- The calls in a visit. -/
def visitCalls (host : Host) (fuel : Nat) (m : Machine) (scope : ScopeId) (i j : Nat) : List Call :=
  match m.visitedTurn? scope i j with
  | none => []
  | some (m, t) => detachedCalls (turnCalls host fuel) m t

/-- The calls in the visits to the threads of a module scope from a place on. -/
def threadCalls (host : Host) (fuel : Nat) (scope : ScopeId) (i : Nat) :
    (n j : Nat) → Machine → List Call
  | 0, _, _ => []
  | n + 1, j, m =>
    m.visitCalls host fuel scope i j ++
      match m.visit (turn host fuel) scope i j with
      | some (.removed, m) => threadCalls host fuel scope i n j m
      | some (.next, m) => threadCalls host fuel scope i n (j + 1) m
      | _ => []

/-- The calls in the visits to the module scopes of a map from a number on. -/
def moduleCalls (host : Host) (fuel : Nat) (scope : ScopeId) : (n i : Nat) → Machine → List Call
  | 0, _, _ => []
  | n + 1, i, m =>
    match m.scopes.map? scope with
    | none => []
    | some map =>
      if i < map.modules.length then
        threadCalls host fuel scope i n 0 m ++
          match visitThreads (turn host fuel) scope i n 0 m with
          | none => []
          | some m => moduleCalls host fuel scope n (i + 1) m
      else []

/-- The calls in the visits to maps. -/
def mapCalls (host : Host) (fuel : Nat) : List ScopeId → Machine → List Call
  | [], _ => []
  | scope :: rest, m =>
    if m.scopes.isActive scope then
      moduleCalls host fuel scope fuel 0 m ++
        match visitModules (turn host fuel) scope fuel 0 m with
        | none => []
        | some m => mapCalls host fuel rest m
    else mapCalls host fuel rest m

/-- The calls in a tick that begins at rest. -/
def tickCalls (host : Host) (fuel : Nat) (m : Machine) : List Call :=
  mapCalls host fuel m.scopes.mapIds { m with executing := true, tick := m.tick + 1 }

/-! ## Without calls of host functions -/

variable {host : Host} {m : Machine} {t : Thread} {op : Opcode} {operands : List Word}

/-- The call of a host function is a call. -/
theorem callee?_of_hostCall? {key : Nat} (h : hostCall? op operands m = some key) :
    callee? op operands m = some (.host key) := by
  cases op with
  | callFunc =>
    simp only [hostCall?] at h
    split at h
    · cases h
    · rename_i hfunc
      simp only [callee?, if_neg hfunc, h, Option.map_some]
  | _ => cases h

section

variable {turn turn' : Turn} {inner inner' : Machine → Thread → List Call}
  (hinner : ∀ {m t}, (∀ c ∈ inner m t, c.IsBuiltin) → turn m t = turn' m t ∧ inner m t = inner' m t)
include hinner

/-- A turn outside the tree that calls built-in functions only does not depend on the host. -/
theorem runDetached_eq_of_calls (h : ∀ c ∈ detachedCalls inner m t, c.IsBuiltin) :
    runDetached turn m t = runDetached turn' m t ∧ detachedCalls inner m t = detachedCalls inner' m t := by
  obtain ⟨hturn, hcalls⟩ := hinner h
  exact ⟨by rw [runDetached, runDetached, hturn], hcalls⟩

/-- A start for a result in which built-in functions only are called does not depend on the host. -/
theorem startResult_eq_of_calls {scope : ScopeId} {name : ScriptName} {args : List Word}
    {info : ThreadInfo} (h : ∀ c ∈ m.startCalls inner scope name args info, c.IsBuiltin) :
    m.startResult turn scope name args info = m.startResult turn' scope name args info ∧
      m.startCalls inner scope name args info = m.startCalls inner' scope name args info := by
  unfold startCalls at h ⊢
  cases hstarted : m.startedTurn? scope name args info with
  | none => exact ⟨startResult_of_none hstarted .., rfl⟩
  | some p =>
    rw [hstarted] at h
    obtain ⟨slot, -, hk⟩ := startResult_of_some hstarted
    obtain ⟨hrun, hcalls⟩ := runDetached_eq_of_calls hinner h
    exact ⟨by rw [hk, hk, hrun], hcalls⟩

/-- An instruction that calls built-in functions only does not depend on the host. -/
theorem step_eq_of_calls {exec exec' : Machine → Option Machine} {module : LoadedModule}
    (h : ∀ c ∈ stepCalls inner op operands m t, c.IsBuiltin) :
    step host turn exec module op operands m t = step quietHost turn' exec' module op operands m t ∧
      stepCalls inner op operands m t = stepCalls inner' op operands m t := by
  have hbuiltin : ∀ key, hostCall? op operands m ≠ some key := by
    intro key hkey
    obtain ⟨f, hf⟩ := h ⟨t.scope, .host key⟩ (by simp [stepCalls, callee?_of_hostCall? hkey])
    cases hf
  unfold stepCalls at h ⊢
  cases hcall : resultCall? op operands m t with
  | none => exact ⟨step_of_none _ _ _ _ _ _ hcall fun key hkey => absurd hkey (hbuiltin key), rfl⟩
  | some p =>
    rw [hcall] at h
    obtain ⟨hstart, hcalls⟩ := startResult_eq_of_calls hinner fun c hc =>
      h c (List.mem_append_right _ hc)
    exact ⟨by rw [step_of_some hcall, step_of_some hcall, hstart], by simp only [hcalls]⟩

end

/-- Turns are as their loops are. -/
theorem turnWith_eq_of_calls {loop loop' : Word → Word → LoadedModule → Turn}
    {calls calls' : Word → Word → LoadedModule → Machine → Thread → List Call}
    (hloop : ∀ {limit count module m t}, (∀ c ∈ calls limit count module m t, c.IsBuiltin) →
      loop limit count module m t = loop' limit count module m t ∧
        calls limit count module m t = calls' limit count module m t)
    (h : ∀ c ∈ turnCallsWith calls m t, c.IsBuiltin) :
    turnWith loop m t = turnWith loop' m t ∧ turnCallsWith calls m t = turnCallsWith calls' m t := by
  unfold turnCallsWith at h ⊢
  unfold turnWith
  cases hmodule : t.module with
  | none => exact ⟨rfl, rfl⟩
  | some module =>
    rw [hmodule] at h
    exact hloop h

/-- Instructions that call built-in functions only do not depend on the host. -/
theorem loop_eq_of_calls {fuel : Nat} {limit count : Word} {module : LoadedModule}
    (h : ∀ c ∈ loopCalls host fuel limit count module m t, c.IsBuiltin) :
    loop host fuel limit count module m t = loop quietHost fuel limit count module m t ∧
      loopCalls host fuel limit count module m t = loopCalls quietHost fuel limit count module m t := by
  induction fuel generalizing limit count module m t with
  | zero => exact ⟨rfl, rfl⟩
  | succ fuel ih =>
    unfold loopCalls at h ⊢
    unfold loop
    split at h
    · rename_i hstop
      simp only [if_pos hstop, and_self]
    · rename_i hstop
      simp only [if_neg hstop]
      split at h
      · rename_i hlimit
        simp only [if_pos hlimit, and_self]
      · rename_i hlimit
        simp only [if_neg hlimit]
        split at h
        · rename_i hfetch
          simp only [hfetch, and_self]
        · rename_i op operands hfetch
          simp only [hfetch] at h ⊢
          generalize { t with codePtr := t.codePtr + 1 + op.arity } = u at h ⊢
          have hfirst : step host (turnWith (loop host fuel)) (execWith (turnWith (loop host fuel)) fuel)
                module op operands m u =
              step quietHost (turnWith (loop quietHost fuel))
                (execWith (turnWith (loop quietHost fuel)) fuel) module op operands m u ∧
              stepCalls (turnCallsWith (loopCalls host fuel)) op operands m u =
                stepCalls (turnCallsWith (loopCalls quietHost fuel)) op operands m u :=
            step_eq_of_calls (turnWith_eq_of_calls ih) fun c hc => h c (List.mem_append_left _ hc)
          rw [hfirst.2, hfirst.1] at h ⊢
          cases hs : step quietHost (turnWith (loop quietHost fuel))
            (execWith (turnWith (loop quietHost fuel)) fuel) module op operands m u with
          | none => exact ⟨rfl, rfl⟩
          | some p =>
            obtain ⟨m₁, t₁, waits⟩ := p
            cases waits with
            | true => exact ⟨rfl, rfl⟩
            | false =>
              simp only [hs] at h ⊢
              obtain ⟨hrest, hcalls⟩ := ih fun c hc => h c (List.mem_append_right _ hc)
              exact ⟨hrest, congrArg _ hcalls⟩

/-- A turn that calls built-in functions only does not depend on the host. -/
theorem turn_eq_of_calls {fuel : Nat} (h : ∀ c ∈ turnCalls host fuel m t, c.IsBuiltin) :
    turn host fuel m t = turn quietHost fuel m t ∧
      turnCalls host fuel m t = turnCalls quietHost fuel m t :=
  turnWith_eq_of_calls loop_eq_of_calls h

variable {fuel : Nat} {scope : ScopeId} {i : Nat}

/-- A visit in which built-in functions only are called does not depend on the host. -/
theorem visit_eq_of_calls {j : Nat} (h : ∀ c ∈ m.visitCalls host fuel scope i j, c.IsBuiltin) :
    m.visit (turn host fuel) scope i j = m.visit (turn quietHost fuel) scope i j ∧
      m.visitCalls host fuel scope i j = m.visitCalls quietHost fuel scope i j := by
  unfold visitCalls at h ⊢
  cases hvisited : m.visitedTurn? scope i j with
  | none => exact ⟨visit_of_none hvisited .., rfl⟩
  | some p =>
    rw [hvisited] at h
    obtain ⟨hrun, hcalls⟩ := runDetached_eq_of_calls turn_eq_of_calls h
    exact ⟨by rw [visit_of_some hvisited, visit_of_some hvisited, hrun], hcalls⟩

/-- The visits to the threads of a module scope do not depend on the host, where built-in functions only
are called. -/
theorem visitThreads_eq_of_calls {n j : Nat}
    (h : ∀ c ∈ threadCalls host fuel scope i n j m, c.IsBuiltin) :
    visitThreads (turn host fuel) scope i n j m = visitThreads (turn quietHost fuel) scope i n j m ∧
      threadCalls host fuel scope i n j m = threadCalls quietHost fuel scope i n j m := by
  induction n generalizing j m with
  | zero => exact ⟨rfl, rfl⟩
  | succ n ih =>
    unfold threadCalls at h ⊢
    unfold visitThreads
    obtain ⟨hvisit, hcalls⟩ := visit_eq_of_calls fun c hc => h c (List.mem_append_left _ hc)
    rw [hvisit, hcalls] at h ⊢
    cases hv : m.visit (turn quietHost fuel) scope i j with
    | none => exact ⟨rfl, rfl⟩
    | some p =>
      obtain ⟨v, m₁⟩ := p
      simp only [hv] at h ⊢
      cases v with
      | finished => exact ⟨rfl, rfl⟩
      | removed =>
        obtain ⟨hrest, hcalls⟩ := ih fun c hc => h c (List.mem_append_right _ hc)
        exact ⟨hrest, congrArg _ hcalls⟩
      | next =>
        obtain ⟨hrest, hcalls⟩ := ih fun c hc => h c (List.mem_append_right _ hc)
        exact ⟨hrest, congrArg _ hcalls⟩

/-- The visits to the module scopes of a map do not depend on the host, where built-in functions only are
called. -/
theorem visitModules_eq_of_calls {n : Nat} (h : ∀ c ∈ moduleCalls host fuel scope n i m, c.IsBuiltin) :
    visitModules (turn host fuel) scope n i m = visitModules (turn quietHost fuel) scope n i m ∧
      moduleCalls host fuel scope n i m = moduleCalls quietHost fuel scope n i m := by
  induction n generalizing i m with
  | zero => exact ⟨rfl, rfl⟩
  | succ n ih =>
    unfold moduleCalls at h ⊢
    unfold visitModules
    cases hmap : m.scopes.map? scope with
    | none => exact ⟨rfl, rfl⟩
    | some map =>
      simp only [hmap] at h ⊢
      by_cases hlt : i < map.modules.length
      · simp only [if_pos hlt] at h ⊢
        obtain ⟨hthreads, hcalls⟩ := visitThreads_eq_of_calls fun c hc => h c (List.mem_append_left _ hc)
        rw [hthreads, hcalls] at h ⊢
        cases hv : visitThreads (turn quietHost fuel) scope i n 0 m with
        | none => exact ⟨rfl, rfl⟩
        | some m₁ =>
          simp only [hv] at h ⊢
          obtain ⟨hrest, hcalls⟩ := ih fun c hc => h c (List.mem_append_right _ hc)
          exact ⟨hrest, congrArg _ hcalls⟩
      · simp only [if_neg hlt, and_self]

/-- The visits to maps do not depend on the host, where built-in functions only are called. -/
theorem visitMaps_eq_of_calls {scopes : List ScopeId}
    (h : ∀ c ∈ mapCalls host fuel scopes m, c.IsBuiltin) :
    visitMaps (turn host fuel) fuel scopes m = visitMaps (turn quietHost fuel) fuel scopes m ∧
      mapCalls host fuel scopes m = mapCalls quietHost fuel scopes m := by
  induction scopes generalizing m with
  | nil => exact ⟨rfl, rfl⟩
  | cons scope rest ih =>
    unfold mapCalls at h ⊢
    unfold visitMaps
    by_cases hactive : m.scopes.isActive scope = true
    · simp only [if_pos hactive] at h ⊢
      obtain ⟨hmodules, hcalls⟩ := visitModules_eq_of_calls fun c hc => h c (List.mem_append_left _ hc)
      rw [hmodules, hcalls] at h ⊢
      cases hv : visitModules (turn quietHost fuel) scope fuel 0 m with
      | none => exact ⟨rfl, rfl⟩
      | some m₁ =>
        simp only [hv] at h ⊢
        obtain ⟨hrest, hcalls⟩ := ih fun c hc => h c (List.mem_append_right _ hc)
        exact ⟨hrest, congrArg _ hcalls⟩
    · simp only [if_neg hactive] at h ⊢
      exact ih h

/-- **Where all calls are of built-in functions**, a tick is the same whatever the host is. -/
theorem exec_eq_of_calls (hrest : m.executing = false) (h : ∀ c ∈ m.tickCalls host fuel, c.IsBuiltin) :
    m.exec host fuel = m.exec quietHost fuel ∧ m.tickCalls host fuel = m.tickCalls quietHost fuel := by
  obtain ⟨hmaps, hcalls⟩ := visitMaps_eq_of_calls h
  refine ⟨?_, hcalls⟩
  have hbusy : ¬ m.executing = true := by simp [hrest]
  simp only [exec, execWith, if_neg hbusy, hmaps]

end Machine

end ScriptMachine
