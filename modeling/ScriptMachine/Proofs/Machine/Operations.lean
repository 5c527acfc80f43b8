import ScriptMachine.Proofs.Machine.Registry
import ScriptMachine.Proofs.Machine.Turns

/-!
# What a host does with a machine

`Machine.Request` lists what a host asks of the scopes, scripts and strings of a machine, and
`Machine.serve` answers it.  `Machine.Deed` is all that a host does between ticks: it has requests
answered, adds modules to maps, loads modules and frees them, and sets what is its own.  What it keeps
to in this are its `Machine.Terms`; a host without terms does whatever it likes.  On any terms, a deed
lets the tree of scopes advance (`Deed.advances`), and all that is proved for deeds in general follows
from this.

Between its deeds the host runs ticks, starts scripts for their result and loads saved states.
`Regime.Run` is every machine that comes about in this way under a `Machine.Regime`, which is what the
relations for runs differ in: the terms, which hosts there are, and which saved states are loaded.
`Machine.Reached` is the one for careful hosts.  `Machine.performAll` carries out what the host does, but
for loading.

Loaded bytes are told apart by the serial numbers of the modules made from them: `sources n` are the
bytes of the module with serial number `n`.  A serial number is given once, so every run has such a
function.
-/

namespace ScriptMachine

/-- What is under way. -/
inductive Occasion where
  /-- The host does something between ticks. -/
  | request
  | tick
  /-- A script is started for its result. -/
  | start
deriving DecidableEq

namespace Machine

/-! ## Requests -/

/-- What the host asks for, where no script runs for the answer. -/
inductive Request where
  | start (scope : ScopeId) (name : ScriptName) (args : List Word) (info : ThreadInfo)
  | startForced (scope : ScopeId) (name : ScriptName) (args : List Word) (info : ThreadInfo)
  | startType (scope : ScopeId) (type : Word) (args : List Word) (info : ThreadInfo)
  | stop (scope : ScopeId) (name : ScriptName)
  | pause (scope : ScopeId) (name : ScriptName)
  | ensure (level : Level) (id : ScopeId)
  | setActive (level : Level) (id : ScopeId) (active : Bool)
  | free (level : Level) (id : ScopeId)
  | intern (bytes : Bytes)
  | collect
  | save

/-- What the machine answers. -/
inductive Answer where
  | done
  | flag (b : Bool)
  | count (n : Nat)
  | index (i : Word)
  | freed (r : Except Error Nat)
  | saved (r : Except Error Bytes)
  | result (r : Option Word)

/-- Answers a request. -/
def serve (m : Machine) : Request → Answer × Machine
  | .start scope name args info =>
    let (b, m) := m.startScript scope name args info
    (.flag b, m)
  | .startForced scope name args info =>
    let (b, m) := m.startForced scope name args info
    (.flag b, m)
  | .startType scope type args info =>
    let (n, m) := m.startType scope type args info
    (.count n, m)
  | .stop scope name =>
    let (b, m) := m.stopScript scope name
    (.flag b, m)
  | .pause scope name =>
    let (b, m) := m.pauseScript scope name
    (.flag b, m)
  | .ensure level id => (.done, m.ensure level id)
  | .setActive level id active => (.done, m.setActive level id active)
  | .free level id =>
    let (b, m) := m.free level id
    (.flag b, m)
  | .intern bytes =>
    let (i, strings) := m.strings.intern bytes
    (.index i, { m with strings })
  | .collect =>
    let (r, m) := m.collectStrings
    (.freed r, m)
  | .save =>
    let (r, m) := m.save
    (.saved r, m)

/-- The registered modules among those with some names. -/
def registered (m : Machine) (names : List ModuleName) : List LoadedModule :=
  names.filterMap m.modules.find?

/-- Adds modules to a map by their names in the registry. -/
def addNamed (m : Machine) (scope : ScopeId) (names : List ModuleName) : Nat × Machine :=
  m.addModules scope (m.registered names)

section

variable {m : Machine} {known : LoadedModule → Prop}

/-- Where modules are registered under their names, those that are added by name are registered. -/
theorem knows_registered {names : List ModuleName}
    (hnames : ∀ name x, m.modules.find? name = some x → x.name = name) :
    ∀ x ∈ m.registered names, m.Knows x := by
  intro x hx
  obtain ⟨name, -, hfind⟩ := List.mem_filterMap.1 hx
  rw [Knows, hnames name x hfind]
  exact hfind

/-- Saving leaves messages at most. -/
theorem evolves_save : m.Evolves m.save.2 := by
  unfold save
  split
  · exact .refl m
  · simp only
    split
    · split
      · exact .emit ..
      · exact (Evolves.emit ..).trans (.log ..)
    · exact .log ..

/-- Saving leaves the tree alone. -/
theorem save_scopes (m : Machine) : m.save.2.scopes = m.scopes := by
  unfold save
  split
  · rfl
  · simp only
    split
    · split <;> rfl
    · rfl

/-- **Requests** let a machine evolve, those for strings as long as there are indices for them. -/
theorem evolves_serve (r : Request)
    (hroom : ∀ bytes, r = .intern bytes → (m.serve r).2.strings.capacity < UInt32.size) :
    m.Evolves (m.serve r).2 := by
  cases r with
  | start scope name args info => exact (stirs_startScript ..).evolves
  | startForced scope name args info => exact (stirs_startForced ..).evolves
  | startType scope type args info => exact (stirs_startType ..).evolves
  | stop scope name => exact (stirs_setScriptState scope name (by decide)).evolves
  | pause scope name => exact (stirs_setScriptState scope name (by decide)).evolves
  | ensure level id => exact evolves_ensure ..
  | setActive level id active => exact evolves_setActive ..
  | free level id => exact evolves_free ..
  | intern bytes => exact .setStrings (StringTable.keeps_intern (hroom bytes rfl))
  | collect => exact evolves_collectStrings
  | save => exact evolves_save

/-- The tree advances at every request, whatever becomes of the strings. -/
theorem advances_serve (r : Request) : m.Advances known (m.serve r).2 := by
  by_cases hintern : ∃ bytes, r = .intern bytes
  · obtain ⟨bytes, rfl⟩ := hintern
    exact .aside rfl rfl rfl (List.suffix_refl _)
  · exact (evolves_serve r fun bytes hr => absurd ⟨bytes, hr⟩ hintern).advances

end

/-! ## Deeds -/

/-- What a host keeps to when it deals with a machine.  Without any terms everything is allowed. -/
structure Terms where
  /-- The modules it adds to maps. -/
  adds : Machine → LoadedModule → Prop := fun _ _ => True
  /-- The bytes that it has the module with a serial number made from. -/
  gives : Nat → Bytes → Prop := fun _ _ => True
  /-- The code tables it sets. -/
  tables : Machine → CodeTable → Prop := fun _ _ => True
  /-- The services it offers. -/
  offers : Hooks → Prop := fun _ => True
  /-- What it does to the strings itself. -/
  strings : StringTable → StringTable → Prop := fun _ _ => True
  /-- The strings that its requests and modules may lead to. -/
  room : StringTable → Prop := fun _ => True
  /-- The remarks it leaves in the trace. -/
  remarks : Event → Prop := fun _ => True

/-- What a host does to a machine on these terms, other than run scripts or load a state. -/
inductive Deed (c : Terms) : Machine → Machine → Prop
  | request {m : Machine} (r : Request) (hroom : c.room (m.serve r).2.strings) :
    Deed c m (m.serve r).2
  /-- Modules are added to a map, whether they are registered or not. -/
  | addModules {m : Machine} (scope : ScopeId) {modules : List LoadedModule}
      (hadds : ∀ x ∈ modules, c.adds m x) : Deed c m (m.addModules scope modules).2
  /-- What belongs to the host: the branch limit, the generator, its services and functions, the code
  table, the modules and saved states it keeps, and the strings. -/
  | adjust (m : Machine) (branchLimit rng : Word) {hooks : Hooks} {codeTable : CodeTable}
      {strings : StringTable} (builtins : OrdMap Word Builtin) (hostFuncs : Array Nat)
      (held : List Nat) (snapshots : OrdMap String Bytes) (hoffers : c.offers hooks)
      (htables : c.tables m codeTable) (hstrings : c.strings m.strings strings) :
    Deed c m { m with
      settings := { m.settings with branchLimit }, rng, hooks, codeTable, builtins, hostFuncs, held
      snapshots, strings }
  /-- The host leaves a remark. -/
  | note (m : Machine) {e : Event} (h : c.remarks e) : Deed c m (m.emit e)
  | getModule {m m' : Machine} {name : ModuleName} {r : Except ReadError LoadedModule}
      (h : m.getModule name = (r, m')) (hroom : c.room m'.strings)
      (hgives : ∀ x data, m.modules.find? name = none → m'.modules.find? name = some x →
        (m.fetch name).1 = .ok data → c.gives x.serial data) :
    Deed c m m'
  | loadModule {m m' : Machine} {name : ModuleName} {data : Bytes}
      {r : Except ReadError LoadedModule} (h : m.loadModule name data = (r, m'))
      (hroom : c.room m'.strings)
      (hgives : ∀ x, m.modules.find? name = none → m'.modules.find? name = some x →
        c.gives x.serial data) :
    Deed c m m'
  | freeModule (m : Machine) (name : ModuleName) : Deed c m (m.freeModule name).2
  | modifyVars (m : Machine) (level : Level) (id : ScopeId) (i : Nat) (f : Vars → Vars) :
    Deed c m { m with scopes := m.scopes.modifyVars level id i f }

/-- What host functions do on these terms: they carry out deeds, and change what they may of the calling
thread. -/
def Terms.rule (c : Terms) : ChangeRule := fun m t m' t' =>
  Thread.Stays t t' ∧ (m' = m ∨ Deed c m m')

namespace Deed

variable {c : Terms} {m m' : Machine}

/-- A request is answered. -/
theorem asking {r : Request} (h : m' = (m.serve r).2) (hroom : c.room m'.strings) : Deed c m m' := by
  subst h
  exact .request r hroom

/-- A module is loaded, whatever comes of it. -/
theorem loading {name : ModuleName} {data : Bytes} (h : m' = (m.loadModule name data).2)
    (hroom : c.room m'.strings)
    (hgives : ∀ x, m.modules.find? name = none → m'.modules.find? name = some x →
      c.gives x.serial data) : Deed c m m' :=
  .loadModule (Prod.ext rfl h.symm) hroom hgives

/-- Modules are added by their names. -/
theorem adding {scope : ScopeId} {names : List ModuleName} (h : m' = (m.addNamed scope names).2)
    (hadds : ∀ x ∈ m.registered names, c.adds m x) : Deed c m m' := by
  subst h
  exact .addModules scope hadds

/-- **What a deed does to the tree:** a request is answered, modules are added, variables change, or the
tree stays as it is. -/
theorem on_tree (h : Deed c m m') : (∃ r, m' = (m.serve r).2) ∨
    (∃ scope modules, (∀ x ∈ modules, c.adds m x) ∧ m' = (m.addModules scope modules).2) ∨
    (∃ level id i f, m' = { m with scopes := m.scopes.modifyVars level id i f }) ∨
    m'.scopes = m.scopes := by
  cases h with
  | request r _ => exact .inl ⟨r, rfl⟩
  | addModules scope hadds => exact .inr (.inl ⟨scope, _, hadds, rfl⟩)
  | modifyVars level id i f => exact .inr (.inr (.inl ⟨level, id, i, f, rfl⟩))
  | getModule h _ _ => exact .inr (.inr (.inr (grows_getModule h).scopes))
  | loadModule h _ _ => exact .inr (.inr (.inr (loadModule_scopes h).2.1))
  | freeModule name => exact .inr (.inr (.inr (freeModule_scopes m name).2.1))
  | _ => exact .inr (.inr (.inr rfl))

/-- **The tree advances** with every deed, by the modules that the terms allow. -/
theorem advances (h : Deed c m m') : m.Advances (c.adds m) m' := by
  cases h with
  | request r _ => exact advances_serve r
  | addModules scope hadds => exact advances_addModules scope hadds
  | adjust => exact .aside rfl rfl rfl (List.suffix_refl _)
  | note _ => exact (Evolves.emit ..).advances
  | getModule h _ _ =>
    have hgrows := grows_getModule h
    exact .aside hgrows.scopes hgrows.tick hgrows.executing hgrows.trace
  | loadModule h _ _ =>
    obtain ⟨htrace, hscopes, htick, hexecuting, -⟩ := loadModule_scopes h
    exact .aside hscopes htick hexecuting htrace
  | freeModule name =>
    obtain ⟨htrace, hscopes, htick, hexecuting, -⟩ := freeModule_scopes m name
    exact .aside hscopes htick hexecuting htrace
  | modifyVars level id i f => exact (evolves_modifyVars ..).advances

end Deed

/-- Host functions are tame on all terms. -/
theorem tame_rule (c : Terms) : Tame c.rule where
  stays h := h.1
  executing h := by
    rcases h.2 with rfl | hdeed
    · rfl
    · exact hdeed.advances.executing

/-! ## Runs -/

/-- How a host runs a machine. -/
structure Regime where
  terms : Terms
  /-- What holds of a host here: of one that keeps to the rule of the terms, or of every one. -/
  hosts : (Host → Prop) → Prop
  obeying : ∀ {P : Host → Prop}, hosts P → ∃ host : Host, host.Obeys terms.rule ∧ P host
  /-- The ticks that are run. -/
  ticks : Machine → Nat → Prop := fun _ _ => True
  /-- Whether scripts are started for their result. -/
  starts : Prop := True
  /-- The states that are loaded from anywhere, into a machine and with what comes of it. -/
  takes : Machine → Machine → Prop := fun _ _ => False
  /-- The states that are loaded from a machine of a run, into another. -/
  returns : Machine → Machine → Prop := fun _ _ => False

namespace Regime

/-- Host functions are there that obey the rule of the terms. -/
def obedient (c : Terms) : Regime where
  terms := c
  hosts P := ∃ host : Host, host.Obeys c.rule ∧ P host
  obeying h := h

/-- Scripts call built-in functions only, so that everything is the same whatever host there is. -/
def unaided (c : Terms) : Regime where
  terms := c
  hosts P := ∀ host, P host
  obeying h := ⟨quietHost, obeys_quietHost _, h quietHost⟩

/-- What a host does with a machine at rest. -/
inductive Handles (R : Regime) : Occasion → Machine → Machine → Prop
  | deed {m m' : Machine} (h : Deed R.terms m m') : Handles R .request m m'
  | exec {m m' : Machine} {fuel : Nat} (hticks : R.ticks m fuel)
      (h : R.hosts fun host => m.exec host fuel = some m') : Handles R .tick m m'
  | startResult {m m' : Machine} {fuel : Nat} {scope : ScopeId} {name : ScriptName} {args : List Word}
      {info : ThreadInfo} {r : Option Word} (hstarts : R.starts)
      (h : R.hosts fun host => m.startResult (turn host fuel) scope name args info = some (r, m')) :
    Handles R .start m m'

/-- The machines that come about from a new one.  States are loaded without failure; after a failure the
host has to give the machine up. -/
inductive Run (R : Regime) : Machine → Prop
  | make (settings : Settings) : Run R (Machine.make settings)
  | handle {occasion : Occasion} {m m' : Machine} (h : Run R m) (hdo : R.Handles occasion m m') :
    Run R m'
  | load {m m' : Machine} {bytes rest : Bytes} (h : Run R m) (hload : m.load bytes = (.ok rest, m'))
      (htakes : R.takes m m') : Run R m'
  /-- What a machine saved, with anything behind it, is loaded into another. -/
  | reload {X Y Y' : Machine} {bytes tail rest : Bytes} (hX : Run R X) (hY : Run R Y)
      (hsave : X.save.1 = .ok bytes) (hload : Y.load (bytes ++ tail) = (.ok rest, Y'))
      (hreturns : R.returns X Y) : Run R Y'

variable {R : Regime} {occasion : Occasion} {m m' : Machine} {t : Thread}

/-- **What a host does** is an instance of how a machine goes on, whatever thread is out of the tree. -/
theorem Handles.goes (h : R.Handles occasion m m') : Goes R.terms.rule m t m' t := by
  cases h with
  | deed h => exact .host ⟨.refl t, .inr h⟩
  | exec _ h =>
    obtain ⟨host, hhost, hexec⟩ := R.obeying h
    exact goes_exec hhost (tame_rule _) hexec
  | startResult _ h =>
    obtain ⟨host, hhost, hstart⟩ := R.obeying h
    exact goes_startResult hhost (tame_rule _) hstart

end Regime

/-! ## Careful hosts -/

/-- A careful host adds registered modules to maps and has each module made from its bytes in `sources`.
It changes the code table while no module is registered and the locks of strings only, and keeps to fewer
strings than there are indices. -/
def Terms.careful (sources : Nat → Bytes) : Terms where
  adds := Knows
  gives n data := data = sources n
  tables m codeTable := codeTable = m.codeTable ∨ m.modules = {}
  strings t t' := t' = t ∨ ∃ i, t' = t.lock i ∨ t' = t.unlock i
  room t := t.capacity < UInt32.size

/-- What careful hosts do. -/
abbrev Operation (sources : Nat → Bytes) : Machine → Machine → Prop := Deed (.careful sources)

/-- What the functions of careful hosts do. -/
abbrev HostRule (sources : Nat → Bytes) : ChangeRule := (Terms.careful sources).rule

/-- The functions of careful hosts are tame. -/
theorem tame_hostRule {sources : Nat → Bytes} : Tame (HostRule sources) := tame_rule _

/-- A careful host sets what is its own, but for the code table and the strings. -/
theorem Operation.equip {sources : Nat → Bytes} (m : Machine) (branchLimit rng : Word) (hooks : Hooks)
    (builtins : OrdMap Word Builtin) (hostFuncs : Array Nat) (held : List Nat)
    (snapshots : OrdMap String Bytes) : Operation sources m { m with
      settings := { m.settings with branchLimit }, rng, hooks, builtins, hostFuncs, held, snapshots } :=
  .adjust m branchLimit rng builtins hostFuncs held snapshots trivial (.inl rfl) (.inl rfl)

/-- The machines that come about from a new one with careful hosts.  The bytes of the modules of loaded
states are in `sources` too, and `L` holds of the machines they were loaded into. -/
def Reached (sources : Nat → Bytes) (L : Machine → Prop) : Machine → Prop :=
  Regime.Run { Regime.obedient (.careful sources) with
    takes := fun m m' => m'.strings.capacity < UInt32.size ∧
      (∀ name x, m'.modules.find? name = some x → (m.fetch name).1 = .ok (sources x.serial)) ∧ L m' }

namespace Reached

variable {sources : Nat → Bytes} {L : Machine → Prop} {m m' : Machine} {host : Host} {fuel : Nat}

/-- A new machine. -/
theorem make (settings : Settings) : Reached sources L (Machine.make settings) := Regime.Run.make settings

/-- A careful deed. -/
theorem operate (h : Reached sources L m) (hop : Operation sources m m') : Reached sources L m' :=
  Regime.Run.handle h (.deed hop)

/-- A tick with a careful host. -/
theorem exec (h : Reached sources L m) (hhost : host.Obeys (HostRule sources))
    (hexec : m.exec host fuel = some m') : Reached sources L m' :=
  Regime.Run.handle h (.exec trivial ⟨host, hhost, hexec⟩)

/-- A start for a result with a careful host. -/
theorem startResult {scope : ScopeId} {name : ScriptName} {args : List Word} {info : ThreadInfo}
    {r : Option Word} (h : Reached sources L m) (hhost : host.Obeys (HostRule sources))
    (hstart : m.startResult (turn host fuel) scope name args info = some (r, m')) :
    Reached sources L m' :=
  Regime.Run.handle h (.startResult trivial ⟨host, hhost, hstart⟩)

end Reached

/-! ## Acts -/

/-- What the host does with a machine at rest. -/
inductive HostAct where
  | ask (r : Request)
  /-- Modules are added by their names in the registry. -/
  | addModules (scope : ScopeId) (names : List ModuleName)
  /-- A tick. -/
  | exec
  | startResult (scope : ScopeId) (name : ScriptName) (args : List Word) (info : ThreadInfo)

/-- Carries an act out; none where a script does not end, or where strings outgrow their indices. -/
def perform (host : Host) (fuel : Nat) (m : Machine) : HostAct → Option (Answer × Machine)
  | .ask r => if (m.serve r).2.strings.capacity < UInt32.size then some (m.serve r) else none
  | .addModules scope names =>
    let (n, m) := m.addNamed scope names
    some (.count n, m)
  | .exec => (m.exec host fuel).map fun m => (.done, m)
  | .startResult scope name args info =>
    (m.startResult (turn host fuel) scope name args info).map fun (r, m) => (.result r, m)

/-- Carries acts out, one after another. -/
def performAll (host : Host) (fuel : Nat) : List HostAct → Machine → Option (List Answer × Machine)
  | [], m => some ([], m)
  | d :: rest, m =>
    match m.perform host fuel d with
    | none => none
    | some (a, m) => (performAll host fuel rest m).map fun (as, m) => (a :: as, m)

end Machine

end ScriptMachine
