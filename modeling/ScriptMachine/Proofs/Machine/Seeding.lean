import ScriptMachine.Proofs.Machine.Generator
import ScriptMachine.Proofs.Machine.RoundTrip

/-!
# The state of the generator through runs

The generator is a part of the machine that few things reach.  Threads, scopes, strings and modules come
and go without it: for every function of the machine that is not about random values, one small lemma
says that it leaves the state of the generator alone.  What remains are draws, seeds and saved states.

`Rolls x y` says that draws and seeds lead from the state `x` to the state `y`.  An instruction draws at
most, or calls a host function, which may draw and seed (`HostRolls`) and may run other scripts
meanwhile; so all that turns and ticks do to the generator is `Rolls` (`rolls_turn`, `rolls_exec`).  Since
neither a draw nor a seed leads to 0, the state of a machine that was made or seeded is never 0
afterwards, and saved states hand this on to the machines that load them (`Seeded.rng_ne_zero`).
-/

namespace ScriptMachine.Machine

variable {m m' : Machine} {t t' : Thread} {scope : ScopeId} {i j : Nat} {args : List Word}
  {info : ThreadInfo}

/-! ## What leaves the generator alone -/

/-- Events leave the generator alone. -/
@[simp, grind =] theorem emit_rng (e : Event) : (m.emit e).rng = m.rng := rfl

@[simp, grind =] theorem log_rng (level : LogLevel) (text : String) :
    (m.log level text).rng = m.rng := rfl

/-- Reports leave the generator alone. -/
@[simp, grind =] theorem report_rng (k : Hook) (e : Event) : (m.report k e).rng = m.rng := by
  grind [report]

@[simp, grind =] theorem spawn_rng (takesName : Bool) :
    (m.spawn scope i j args info takesName).2.rng = m.rng := by
  unfold spawn
  split
  · rfl
  · dsimp only
    split
    · rfl
    · split
      · rfl
      · -- whether the new thread is found again
        split
        · exact report_rng ..
        · rfl

@[simp, grind =] theorem startAt_rng (forced : Bool) :
    (m.startAt scope i j args info forced).2.rng = m.rng := by
  grind [startAt]

@[simp, grind =] theorem startScript_rng (name : ScriptName) :
    (m.startScript scope name args info).2.rng = m.rng := by
  grind [startScript]

@[simp, grind =] theorem startForced_rng (name : ScriptName) :
    (m.startForced scope name args info).2.rng = m.rng := by
  grind [startForced]

@[simp, grind =] theorem startAll_rng (targets : List (Nat × Nat)) :
    (m.startAll scope args info targets).2.rng = m.rng := by
  induction targets generalizing m with
  | nil => rfl
  | cons p rest ih => exact ih.trans (startAt_rng false)

@[simp, grind =] theorem startType_rng (type : Word) :
    (m.startType scope type args info).2.rng = m.rng := by
  grind [startType]

@[simp, grind =] theorem setScriptState_rng (name : ScriptName) (state : ThreadState) :
    (m.setScriptState scope name state).2.rng = m.rng := by
  grind [setScriptState]

@[simp, grind =] theorem isRunnable_rng (state : ThreadState) :
    (m.isRunnable scope state).2.rng = m.rng := by
  cases state <;> grind [isRunnable]

@[simp, grind =] theorem reattach_rng : (m.reattach scope i t).rng = m.rng := by
  grind [reattach]

@[simp, grind =] theorem reap_rng : (m.reap scope i j).rng = m.rng := by
  grind [reap]

@[simp, grind =] theorem kill_rng (reason : KillReason) (data : Word) :
    (m.kill t reason data).1.rng = m.rng := by
  grind [kill]

@[simp, grind =] theorem accessVar_rng (level : Level) (action : VarAction) (k : Word) :
    (m.accessVar t level action k).1.rng = m.rng := by
  cases action <;> cases level <;> grind [accessVar]

@[simp, grind =] theorem haltFrom_rng (pause : Bool) (name : Option ScriptName) :
    (m.haltFrom t pause name).1.rng = m.rng := by
  cases name <;> grind [haltFrom]

@[simp, grind =] theorem endMessage_rng : (m.endMessage t).1.rng = m.rng := by
  grind [endMessage]

@[simp, grind =] theorem printArray_rng (k : Word) : (m.printArray t k).1.rng = m.rng := by
  grind [printArray]

@[simp, grind =] theorem ensureGlobal_rng (g : Word) : (m.ensureGlobal g).rng = m.rng := by
  grind [ensureGlobal]

@[simp, grind =] theorem ensureHub_rng (g h : Word) : (m.ensureHub g h).rng = m.rng := by
  grind [ensureHub]

@[simp, grind =] theorem ensureMap_rng : (m.ensureMap scope).rng = m.rng := by
  grind [ensureMap]

@[simp, grind =] theorem ensure_rng (level : Level) : (m.ensure level scope).rng = m.rng := by
  cases level <;> grind [ensure]

@[simp, grind =] theorem setActive_rng (level : Level) (active : Bool) :
    (m.setActive level scope active).rng = m.rng :=
  ensure_rng level

@[simp, grind =] theorem stopThreads_rng (threads : List Thread) :
    (m.stopThreads threads).rng = m.rng := by
  unfold stopThreads
  induction threads.filter fun t => !t.isPlaceholder generalizing m with
  | nil => rfl
  | cons t rest ih => exact ih.trans (report_rng ..)

@[simp, grind =] theorem free_rng (level : Level) : (m.free level scope).2.rng = m.rng := by
  cases level <;> grind [free, freeGlobal, freeHub, freeMap]

@[simp, grind =] theorem registerAll_rng (modules : List LoadedModule) :
    (m.registerAll scope modules).2.rng = m.rng := by
  induction modules generalizing m with
  | nil => rfl
  | cons x rest ih => grind [registerAll]

@[simp, grind =] theorem addModules_rng (modules : List LoadedModule) :
    (m.addModules scope modules).2.rng = m.rng := by
  grind [addModules]

@[simp, grind =] theorem collectStrings_rng : m.collectStrings.2.rng = m.rng := by
  grind [collectStrings]

@[simp, grind =] theorem save_rng : m.save.2.rng = m.rng := by
  grind [save]

/-- **Requests.** -/
theorem serve_rng (r : Request) : (m.serve r).2.rng = m.rng := by
  cases r <;> grind [serve, stopScript, pauseScript]

theorem getModule_rng (m : Machine) (name : ModuleName) : (m.getModule name).2.rng = m.rng :=
  (grows_getModule (Prod.eta _).symm).rng

theorem loadModule_rng (name : ModuleName) (data : Bytes) :
    (m.loadModule name data).2.rng = m.rng := by
  unfold loadModule
  split
  · rfl
  · rename_i hnew
    split
    · rename_i hregister
      exact (register_cases hnew hregister).1.rng
    · rename_i hregister
      exact (register_cases hnew hregister).1.rng

@[simp] theorem freeModule_rng (name : ModuleName) : (m.freeModule name).2.rng = m.rng := by
  grind [freeModule]

theorem fetchModules_rng {n : Nat} {s : Bytes}
    {r : Except ReadError (List LoadedModule × Bytes)} (h : fetchModules n m s = (r, m')) :
    m'.rng = m.rng := by
  induction n generalizing m s r with
  | zero =>
    cases h
    rfl
  | succ n ih =>
    unfold fetchModules at h
    split at h
    · cases h
      rfl
    · rename_i name _ _
      have hgot := m.getModule_rng name
      split at h
      · rename_i hget
        cases h
        rwa [hget] at hgot
      · rename_i hget
        rw [hget] at hgot
        split at h
        · rename_i hrest
          cases h
          exact (ih hrest).trans hgot
        · rename_i hrest
          cases h
          exact (ih hrest).trans hgot

theorem takeGlobals_rng {modules : List LoadedModule} {n : Nat} {s : Bytes}
    {r : Except ReadError Bytes} (h : takeGlobals modules n m s = (r, m')) : m'.rng = m.rng := by
  induction n generalizing m s with
  | zero =>
    cases h
    rfl
  | succ n ih =>
    unfold takeGlobals at h
    split at h
    · cases h
      rfl
    · have hrest := ih h
      exact hrest

/-- The generator is not among the contents. -/
theorem takeContents_rng {s : Bytes} {r : Except ReadError (Nat × Bytes)}
    (h : m.takeContents s = (r, m')) : m'.rng = m.rng := by
  unfold takeContents at h
  dsimp only at h
  split at h
  · cases h
    rfl
  · split at h
    · cases h
      rfl
    · split at h
      · rename_i hfetch
        cases h
        have hfetched := fetchModules_rng hfetch
        exact hfetched
      · rename_i hfetch
        have hfetched := fetchModules_rng hfetch
        split at h
        · cases h
          exact hfetched
        · split at h
          · rename_i htake
            cases h
            exact (takeGlobals_rng htake).trans hfetched
          · rename_i htake
            cases h
            exact (takeGlobals_rng htake).trans hfetched

/-- The bytes of the host leave the generator alone. -/
theorem takeExtra_rng {s : Bytes} {r : Except ReadError Bytes} (h : m.takeExtra s = (r, m')) :
    m'.rng = m.rng := by
  grind [takeExtra]

/-- A saved state brings its own state of the generator, unless it is refused before. -/
theorem load_rng (m : Machine) (s : Bytes) : (m.load s).2.rng = m.rng ∨
    ∃ limit rest, readHeader s = .ok ((limit, (m.load s).2.rng), rest) := by
  unfold load
  split
  · exact .inl rfl
  · split
    · exact .inl rfl
    · rename_i limit rng rest hheader
      split
      · rename_i htake
        exact .inl (takeContents_rng htake)
      · -- what the host added is read with the new state in place
        dsimp only
        split
        · rename_i hextra
          have hrng := takeExtra_rng hextra
          exact .inr ⟨limit, rest, by rw [hrng, hheader]⟩
        · rename_i hextra
          have hrng := takeExtra_rng hextra
          exact .inr ⟨limit, rest, by rw [log_rng, hrng, hheader]⟩

/-! ## Drawing and seeding -/

/-- The seed that stands for 0 is not 0. -/
theorem defaultSeed_ne_zero : defaultSeed ≠ 0 := by decide

/-- For the seed 0 another word is taken. -/
theorem seed_ne_zero (seed : Word) : (if seed = 0 then defaultSeed else seed) ≠ 0 := by
  split
  · exact defaultSeed_ne_zero
  · assumption

/-- The state of the generator goes on: values are drawn, and it is set to seeds. -/
inductive Rolls : Word → Word → Prop
  | refl (x : Word) : Rolls x x
  | draw {x y : Word} (h : Rolls x y) : Rolls x (nextRandom y)
  | seed {x y : Word} (h : Rolls x y) (seed : Word) :
    Rolls x (if seed = 0 then defaultSeed else seed)

namespace Rolls

variable {x y z : Word}

/-- A generator that is left alone. -/
theorem of_eq (h : y = x) : Rolls x y := by
  subst h
  exact .refl y

theorem trans (h : Rolls x y) (h' : Rolls y z) : Rolls x z := by
  induction h' with
  | refl => exact h
  | draw _ ih => exact .draw ih
  | seed _ s ih => exact .seed ih s

/-- **The state is never 0**, if it was not to begin with: a draw takes only 0 to 0, and for the seed 0
another word is taken. -/
theorem ne_zero (h : Rolls x y) (hx : x ≠ 0) : y ≠ 0 := by
  induction h with
  | refl => exact hx
  | draw _ ih =>
    intro hzero
    exact ih (nextRandom_eq_zero_iff.1 hzero)
  | seed _ s _ => exact seed_ne_zero s

end Rolls

/-- A drawn number rolls the generator. -/
theorem rolls_random (a b : Int32) : Rolls m.rng (m.random a b).2.rng := .draw (.refl _)

/-- A seed sets the generator. -/
theorem rolls_setSeed (seed : Word) : Rolls m.rng (m.setSeed seed).rng := .seed (.refl _) seed

/-- Host functions reach the generator by drawing values and by setting seeds. -/
def HostRolls : ChangeRule := fun m _ m' _ => Rolls m.rng m'.rng

/-- A start on behalf of a script, not for its result, leaves the generator alone. -/
theorem startFrom_rng {turn : Turn} {mode : StartMode} {name : Option ScriptName}
    (h : m.startFrom turn t mode name args = some (m', t')) (hmode : mode = .result → name = none) :
    m'.rng = m.rng := by
  cases name with
  | none =>
    cases h
    rfl
  | some name =>
    cases mode with
    | normal =>
      simp only [startFrom] at h
      split at h
      · cases h
        rfl
      · cases h
        exact startScript_rng name
    | forced =>
      cases h
      exact startForced_rng name
    | result => exact absurd (hmode rfl) (Option.some_ne_none name)

/-- A built-in function that starts no script for its result draws at most. -/
theorem rolls_callBuiltin {turn : Turn} {f : Builtin} (hnumber : f ≠ .startResultNumber)
    (hname : f = .startResultName → m.nameOf? (args.headD 0) = none)
    (h : m.callBuiltin turn t f args = some (m', t')) : Rolls m.rng m'.rng := by
  have hsame : ∀ {p : Machine × Thread}, p.1.rng = m.rng → some p = some (m', t') →
      Rolls m.rng m'.rng := by
    intro p hp heq
    cases heq
    exact .of_eq hp
  cases f <;> simp only [callBuiltin] at h
  case startNumber => exact .of_eq (startFrom_rng h (by rintro ⟨⟩))
  case startName => exact .of_eq (startFrom_rng h (by rintro ⟨⟩))
  case startForcedNumber => exact .of_eq (startFrom_rng h (by rintro ⟨⟩))
  case startForcedName => exact .of_eq (startFrom_rng h (by rintro ⟨⟩))
  case startResultNumber => exact absurd rfl hnumber
  case startResultName => exact .of_eq (startFrom_rng h fun _ => hname rfl)
  case printEnd => exact hsame endMessage_rng h
  case printArray => exact hsame (printArray_rng _) h
  case stopNumber => exact hsame (haltFrom_rng _ _) h
  case stopName => exact hsame (haltFrom_rng _ _) h
  case pauseNumber => exact hsame (haltFrom_rng _ _) h
  case pauseName => exact hsame (haltFrom_rng _ _) h
  case random =>
    cases h
    exact rolls_random ..
  case checkLock => split at h <;> exact hsame rfl h
  all_goals exact hsame rfl h

/-- An instruction that starts no script for its result and calls no host function draws at most. -/
theorem rolls_step_of_none {host : Host} {turn : Turn} {exec : Machine → Option Machine}
    {module : LoadedModule} {op : Opcode} {operands : List Word} {waits : Bool}
    (hresult : resultCall? op operands m t = none) (hcall : hostCall? op operands m = none)
    (h : step host turn exec module op operands m t = some (m', t', waits)) : Rolls m.rng m'.rng := by
  have hsame : ∀ {p : Machine × Thread × Bool}, p.1.rng = m.rng → some p = some (m', t', waits) →
      Rolls m.rng m'.rng := by
    intro p hp heq
    cases heq
    exact .of_eq hp
  cases op with
  | callFunc =>
    rcases callFunc_cases hresult hcall h with ⟨f, hnumber, hname, hbuiltin⟩ | hkill
    · exact rolls_callBuiltin hnumber hname hbuiltin
    · exact hsame (kill_rng _ _) hkill
  | kill => exact hsame (kill_rng _ _) h
  | var level action => exact hsame (accessVar_rng level action _) h
  | restart =>
    simp only [step] at h
    split at h <;> exact hsame rfl h
  | jumpEqual =>
    simp only [step] at h
    split at h <;> exact hsame rfl h
  | call | callDiscard =>
    simp only [step] at h
    split at h
    · exact hsame rfl h
    · exact hsame (kill_rng _ _) h
  | _ => exact hsame rfl h

section

variable {turn : Turn} (hturn : ∀ {m t m' t'}, turn m t = some (m', t') → Rolls m.rng m'.rng)
include hturn

/-- A turn outside the tree rolls the generator. -/
theorem rolls_runDetached (h : runDetached turn m t = some (m', t')) : Rolls m.rng m'.rng := by
  unfold runDetached at h
  obtain ⟨⟨m₁, t₁⟩, hrun, heq⟩ := Option.map_eq_some_iff.1 h
  cases heq
  have hrolls := hturn hrun
  exact hrolls

/-- A start for a result rolls the generator. -/
theorem rolls_startResult {name : ScriptName} {r : Option Word}
    (h : m.startResult turn scope name args info = some (r, m')) : Rolls m.rng m'.rng := by
  unfold startResult at h
  split at h
  · cases h
    exact .refl _
  · rename_i slot _
    have hspawn : ∀ {id m₁}, m.spawn scope slot.moduleIndex slot.scriptIndex args info
        (m.canTakeName scope name slot) = (id, m₁) → m₁.rng = m.rng := by
      intro id m₁ hspawn
      rw [← show (m.spawn scope slot.moduleIndex slot.scriptIndex args info
        (m.canTakeName scope name slot)).2 = m₁ from congrArg Prod.snd hspawn, spawn_rng]
    dsimp only at h
    split at h
    · rename_i hnone
      cases h
      exact .of_eq (hspawn hnone)
    · rename_i hsome
      split at h
      · cases h
        exact .of_eq (hspawn hsome)
      · obtain ⟨⟨m₂, u⟩, hrun, heq⟩ := Option.bind_eq_some_iff.1 h
        cases heq
        rw [reattach_rng, ← hspawn hsome]
        have hrolls := rolls_runDetached hturn hrun
        exact hrolls

/-- A visit rolls the generator. -/
theorem rolls_visit {v : Visit} (h : m.visit turn scope i j = some (v, m')) : Rolls m.rng m'.rng := by
  unfold visit at h
  split at h
  · cases h
    exact .refl _
  · split at h
    · cases h
      exact .refl _
    · rename_i u _
      split at h
      · cases h
        exact .of_eq reap_rng
      · dsimp only at h
        split at h
        · cases h
          exact .of_eq (isRunnable_rng _)
        · -- whether the thread woke is of no concern here
          have hawake : (if u.state = .running then (m.isRunnable scope u.state).2
              else (m.isRunnable scope u.state).2.log .trace
                s!"thread {u.id} resumes after {u.state.display}").rng = m.rng := by
            split
            · exact isRunnable_rng _
            · rw [log_rng, isRunnable_rng]
          rw [← hawake]
          unfold takeTurn at h
          dsimp only at h
          split at h
          · cases h
            exact .refl _
          · obtain ⟨⟨m₁, t₁⟩, hrun, heq⟩ := Option.bind_eq_some_iff.1 h
            cases heq
            rw [reattach_rng]
            have hrolls := rolls_runDetached hturn hrun
            exact hrolls

/-- A tick rolls the generator. -/
theorem rolls_execWith {fuel : Nat} (h : execWith turn fuel m = some m') : Rolls m.rng m'.rng := by
  unfold execWith at h
  split at h
  · cases h
    exact .refl _
  · obtain ⟨m₁, hmaps, heq⟩ := Option.map_eq_some_iff.1 h
    cases heq
    have hrolls := visitMaps_of_visit (R := fun m m' => Rolls m.rng m'.rng) (fun _ => .refl _)
      (fun h h' => h.trans h') (fun h => rolls_visit hturn h) hmaps
    exact hrolls

/-! ## Turns and ticks -/

variable {host : Host} (hhost : host.Obeys HostRolls)
include hhost

/-- **An instruction.** -/
theorem rolls_step {exec : Machine → Option Machine}
    (hexec : ∀ {m m'}, exec m = some m' → Rolls m.rng m'.rng) {module : LoadedModule} {op : Opcode}
    {operands : List Word} {waits : Bool}
    (h : step host turn exec module op operands m t = some (m', t', waits)) : Rolls m.rng m'.rng := by
  cases hcall : hostCall? op operands m with
  | some key =>
    rw [step_of_host hcall] at h
    exact HostProgram.Obeys.run (A := HostRolls) (R := HostRolls) (fun _ _ => .refl _)
      (fun h h' => h.trans h') (fun h => h) (fun h => rolls_startResult hturn h) hexec
      (hhost _ _ _ _) h
  | none =>
    cases hresult : resultCall? op operands m t with
    | some p =>
      rw [step_of_some hresult] at h
      obtain ⟨⟨r, m₁⟩, hstart, heq⟩ := Option.map_eq_some_iff.1 h
      cases heq
      exact rolls_startResult hturn hstart
    | none => exact rolls_step_of_none hresult hcall h

end

section

variable {host : Host} (hhost : host.Obeys HostRolls)
include hhost

/-- Turns, by the loop over their instructions. -/
theorem rolls_loop {fuel : Nat} {limit count : Word} {module : LoadedModule}
    (h : loop host fuel limit count module m t = some (m', t')) : Rolls m.rng m'.rng := by
  induction fuel generalizing limit count module m t m' t' with
  | zero => cases h
  | succ fuel ih =>
    have hkill : ∀ {reason data}, some (m.kill t reason data) = some (m', t') →
        Rolls m.rng m'.rng := by
      intro reason data heq
      have hm : (m.kill t reason data).1 = m' := congrArg Prod.fst (Option.some.inj heq)
      rw [← hm]
      exact .of_eq (kill_rng ..)
    have hturn : ∀ {m t m' t'}, turnWith (loop host fuel) m t = some (m', t') →
        Rolls m.rng m'.rng := by
      intro m t m' t' hturn
      unfold turnWith at hturn
      split at hturn
      · cases hturn
        exact .refl _
      · exact ih hturn
    unfold loop at h
    split at h
    · cases h
      exact .refl _
    · split at h
      · exact hkill h
      · split at h
        · exact hkill h
        · dsimp only at h
          split at h
          · cases h
          · rename_i hstep
            cases h
            exact rolls_step hturn hhost (rolls_execWith hturn) hstep
          · rename_i hstep
            exact (rolls_step hturn hhost (rolls_execWith hturn) hstep).trans (ih h)

/-- A turn rolls the generator. -/
theorem rolls_turn {fuel : Nat} (h : turn host fuel m t = some (m', t')) : Rolls m.rng m'.rng := by
  unfold turn turnWith at h
  split at h
  · cases h
    exact .refl _
  · exact rolls_loop hhost h

/-- **A tick** draws values and sets seeds, for its scripts and the host functions they call. -/
theorem rolls_exec {fuel : Nat} (h : m.exec host fuel = some m') : Rolls m.rng m'.rng :=
  rolls_execWith (rolls_turn hhost) h

end

/-- A saved state begins with the generator of the machine that saved it. -/
theorem rng_of_readHeader_save {X : Machine} {bytes tail rest : Bytes} {limit rng : Word}
    (hsave : X.save.1 = .ok bytes)
    (hheader : readHeader (bytes ++ tail) = .ok ((limit, rng), rest)) : rng = X.rng := by
  obtain ⟨extra, rfl⟩ : ∃ extra, bytes = X.stateBytes ++ extra := by
    unfold save at hsave
    split at hsave
    · cases hsave
    · dsimp only at hsave
      split at hsave
      · split at hsave
        · cases hsave
        · cases hsave
          exact ⟨_, rfl⟩
      · cases hsave
        exact ⟨_, rfl⟩
  simp only [stateBytes, List.append_assoc, readHeader_write] at hheader
  cases hheader
  rfl

/-! ## Runs -/

/-- The machines whose generator was set up when they were made or when they were last given a seed,
through all that is done to them since. -/
inductive Seeded : Machine → Prop
  | make (settings : Settings) : Seeded (make settings)
  | renew (m : Machine) (settings : Settings) : Seeded (m.renew settings)
  | setSeed (m : Machine) (seed : Word) : Seeded (m.setSeed seed)
  | random {m : Machine} (h : Seeded m) (a b : Int32) : Seeded (m.random a b).2
  | request {m : Machine} (h : Seeded m) (r : Request) : Seeded (m.serve r).2
  | addModules {m : Machine} (h : Seeded m) (scope : ScopeId) (modules : List LoadedModule) :
    Seeded (m.addModules scope modules).2
  | getModule {m : Machine} (h : Seeded m) (name : ModuleName) : Seeded (m.getModule name).2
  | loadModule {m : Machine} (h : Seeded m) (name : ModuleName) (data : Bytes) :
    Seeded (m.loadModule name data).2
  | freeModule {m : Machine} (h : Seeded m) (name : ModuleName) : Seeded (m.freeModule name).2
  /-- What the host sets itself. -/
  | adjust {m : Machine} (h : Seeded m) (settings : Settings) (hooks : Hooks) (strings : StringTable)
      (scopes : ScopeTree) (sources : OrdMap ModuleName Bytes) (codeTable : CodeTable)
      (builtins : OrdMap Word Builtin) (hostFuncs : Array Nat) (held : List Nat)
      (snapshots : OrdMap String Bytes) (trace : List Event) :
    Seeded { m with
      settings, hooks, strings, scopes, sources, codeTable, builtins, hostFuncs, held, snapshots, trace }
  | exec {m m' : Machine} {host : Host} {fuel : Nat} (h : Seeded m) (hhost : host.Obeys HostRolls)
      (hexec : m.exec host fuel = some m') : Seeded m'
  | startResult {m m' : Machine} {host : Host} {fuel : Nat} {scope : ScopeId} {name : ScriptName}
      {args : List Word} {info : ThreadInfo} {r : Option Word} (h : Seeded m)
      (hhost : host.Obeys HostRolls)
      (hstart : m.startResult (turn host fuel) scope name args info = some (r, m')) : Seeded m'
  /-- What such a machine saved is loaded, with or without success. -/
  | load {m X : Machine} {bytes : Bytes} (h : Seeded m) (hX : Seeded X) (hsave : X.save.1 = .ok bytes)
      (tail : Bytes) : Seeded (m.load (bytes ++ tail)).2

namespace Seeded

/-- Any number of draws leave a seeded machine seeded. -/
theorem randoms (h : Seeded m) (a b : Int32) (count : Nat) : Seeded (Machine.randoms a b count m).2 := by
  induction count generalizing m with
  | zero => exact h
  | succ count ih => exact ih (h.random a b)

/-- **The generator never gets to 0**, by induction on what was done to the machine. -/
theorem rng_ne_zero (h : Seeded m) : m.rng ≠ 0 := by
  induction h with
  | make settings => exact defaultSeed_ne_zero
  | renew m settings => exact defaultSeed_ne_zero
  | setSeed m seed => exact seed_ne_zero seed
  | random _ a b ih => exact (rolls_random a b).ne_zero ih
  | request _ r ih => rwa [serve_rng]
  | addModules _ scope modules ih => rwa [addModules_rng]
  | getModule _ name ih => rwa [getModule_rng]
  | loadModule _ name data ih => rwa [loadModule_rng]
  | freeModule _ name ih => rwa [freeModule_rng]
  | adjust _ _ _ _ _ _ _ _ _ _ _ _ ih => exact ih
  | exec _ hhost hexec ih => exact (rolls_exec hhost hexec).ne_zero ih
  | startResult _ hhost hstart ih =>
    exact (rolls_startResult (rolls_turn hhost) hstart).ne_zero ih
  | @load m X bytes _ _ hsave tail ih ihX =>
    rcases load_rng m (bytes ++ tail) with hsame | ⟨limit, rest, hheader⟩
    · rwa [hsame]
    · rwa [rng_of_readHeader_save hsave hheader]

end Seeded

/-- **The random generator.**  A value lies between its bounds, which are given in either order, and every
number on the way to it is the exact one; the value a script gets lies between the bounds it gives.  No
state is lost when a value is drawn, none but 0 leads to 0, and a machine that was made or seeded does
not come to 0, however many values are drawn and whatever else is done with it. -/
theorem random_exact :
    (∀ (m : Machine) (a b : Int32),
      (m.random a b).1 = between (nextRandom m.rng) (min a b) (max a b) ∧
        BetweenExact (nextRandom m.rng) (min a b) (max a b) ∧ InRange a b (m.random a b).1 ∧
        (m.random a b).2 = { m with rng := nextRandom m.rng }) ∧
      (∀ (turn : Turn) (m : Machine) (t : Thread) (args : List Word), ∃ v,
        InRange (args.getD 0 0).signed (args.getD 1 0).signed v ∧
          m.callBuiltin turn t .random args =
            some ({ m with rng := nextRandom m.rng }, t.push (.ofSigned v))) ∧
      Function.Injective nextRandom ∧ (∀ x, x ≠ 0 → nextRandom x ≠ 0) ∧
      ∀ m, Seeded m → m.rng ≠ 0 ∧ ∀ (a b : Int32) (count : Nat),
        (randoms a b count m).2.rng ≠ 0 ∧ ∀ v ∈ (randoms a b count m).1, InRange a b v := by
  refine ⟨?_, callBuiltin_random, nextRandom_injective, ?_, ?_⟩
  · intro m a b
    exact ⟨pick_eq .., betweenExact (toInt_min_le_toInt_max a b) _, inRange_random m a b, rfl⟩
  · intro x hx hzero
    exact hx (nextRandom_eq_zero_iff.1 hzero)
  · intro m hm
    refine ⟨hm.rng_ne_zero, fun a b count => ⟨?_, fun v hv => inRange_randoms hv⟩⟩
    exact (hm.randoms a b count).rng_ne_zero

/-- A host whose functions set the generator to what they are given. -/
def seedingHost : Host := fun _ args => .look fun m t => .put (m.setSeed (args.headD 0)) t (.done false)

/-- The host draws and sets seeds only. -/
theorem obeys_seedingHost : seedingHost.Obeys HostRolls := fun _ args _ _ =>
  ⟨rolls_setSeed (args.headD 0), trivial⟩

/-- A unit whose script calls the first host function with 0, rolls a die and sleeps. -/
def dieUnit : Bytecode where
  regCount := 0
  arrCount := 0
  strings := []
  functions := []
  scripts := [{
    name := .number 1, type := 0, flags := 0, argCount := 0, regCount := 0, arrCount := 0
    entry := 0 }]
  code := [10, 0, 69, 1, 128, 2, 138, 1, 1, 6, 11, 2]

/-- A new machine with a host function and the script of the unit started. -/
def dieMachine : Machine :=
  (((((smallMachine.setSeed 7).addHostFunc 0).2.loadModule { name := "die" } dieUnit.write).2.addNamed {}
    [{ name := "die" }]).2.serve (.start {} (.number 1) [] {})).2

/-- The machine that throws the die is seeded. -/
theorem seeded_dieMachine : Seeded dieMachine := by
  have hmade : Seeded ((smallMachine.setSeed 7).addHostFunc 0).2 :=
    (Seeded.setSeed smallMachine 7).adjust _ _ _ _ _ _ _ #[0] _ _ _
  exact ((hmade.loadModule { name := "die" } dieUnit.write).addModules {} _).request
    (.start {} (.number 1) [] {})

/-- The machine after a tick, with the die rolled. -/
def rolledMachine : Machine := (dieMachine.exec seedingHost 9).getD dieMachine

/-- The host gives the seed 0, from which the die is rolled.  The values drawn after that lie between
the farthest bounds. -/
theorem random_exact_die : Seeded rolledMachine ∧ rolledMachine.rng = nextRandom defaultSeed ∧
    rolledMachine.rng ≠ 0 ∧
    ∀ v ∈ (randoms Int32.maxValue Int32.minValue 3 rolledMachine).1,
      InRange Int32.maxValue Int32.minValue v := by
  obtain ⟨hruns, hrng⟩ : (dieMachine.exec seedingHost 9).isSome = true ∧
      rolledMachine.rng = nextRandom defaultSeed := by decide +kernel
  obtain ⟨m, hm⟩ := Option.isSome_iff_exists.1 hruns
  have hexec : dieMachine.exec seedingHost 9 = some rolledMachine := by
    rw [rolledMachine, hm, Option.getD_some]
  have hseeded : Seeded rolledMachine := seeded_dieMachine.exec obeys_seedingHost hexec
  obtain ⟨-, -, -, -, hstate⟩ := random_exact
  exact ⟨hseeded, hrng, (hstate _ hseeded).1, ((hstate _ hseeded).2 _ _ 3).2⟩

end ScriptMachine.Machine
