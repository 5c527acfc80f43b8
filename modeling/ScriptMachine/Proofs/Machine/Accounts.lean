import Mathlib.Data.List.Induction
import ScriptMachine.Proofs.Machine.Registry
import ScriptMachine.Proofs.StringTable.Locks

/-!
# The locks of modules

A module that is registered locks each of its string constants, and gives the locks back when it is freed.
Registering touches the string table only if it succeeds, and then the locks are those of the constants and
nothing else (`Machine.register_takesIn`).

An `Account` puts a machine beside the locks that the host holds, and its `Deed`s are the calls of the
registry, with whatever the loader answers each time, and what the host does with strings in between.  The
lock count of every string is what the host holds plus the number of times it occurs among the constants of
the registered modules (`Account.Balanced`), after any deeds (`Account.modules_accounted`).
-/

namespace ScriptMachine

open StringTable (TakesIn SameStrings)

/-! ## Registering -/

namespace Module

variable {name : ModuleName} {data : Bytes} {table : CodeTable} {policy : UnknownPolicy}
  {t t' : StringTable} {x : Module}

/-- Locating a unit leaves its constants alone. -/
theorem strings_of_locate {unit : Bytecode} {l : Located} (h : locate unit table policy = .ok l) :
    l.unit.strings = unit.strings := by
  unfold locate at h
  split at h
  · cases h
  · obtain ⟨cells, -, h⟩ := bind_eq_ok h
    obtain ⟨functions, -, h⟩ := bind_eq_ok h
    obtain ⟨scripts, -, h⟩ := bind_eq_ok h
    cases h
    rfl

/-- A module that is loaded takes the constants of its unit in. -/
theorem takesIn_of_load (h : load name data table policy t = .ok (x, t')) (ht : t.Aligned)
    (hroom : t'.capacity < UInt32.size) :
    ∃ unit, Bytecode.parse data = .ok unit ∧ TakesIn t unit.strings x.strings t' := by
  obtain ⟨unit, hparse, h⟩ := bind_eq_ok h
  obtain ⟨l, hlocate, h⟩ := bind_eq_ok h
  rw [link_eq] at h
  cases h
  refine ⟨unit, hparse, ?_⟩
  rw [← strings_of_locate hlocate]
  exact ht.takesIn_internLocked hroom

end Module

namespace Machine

variable {m m' : Machine} {name : ModuleName} {data : Bytes} {x : LoadedModule}

/-- **Registering is all or nothing.**  If a module cannot be registered, the string table stays as it
was.  Otherwise it takes the constants of the module in, and when the module gives its locks back the
strings stay and every lock count is what it was before, which is 0 for a new string. -/
theorem register_takesIn (m : Machine) (h : m.strings.Aligned) (name : ModuleName) (data : Bytes) :
    (∀ e, (m.register name data).1 = .error e → (m.register name data).2.strings = m.strings) ∧
    ∀ x, (m.register name data).1 = .ok x →
      (m.register name data).2.strings.capacity < UInt32.size →
      ∃ unit, Bytecode.parse data = .ok unit ∧
        TakesIn m.strings unit.strings x.strings (m.register name data).2.strings ∧
        SameStrings (m.register name data).2.strings
          (x.releaseStrings (m.register name data).2.strings) ∧
        ∀ i, m.strings.lockCount i + x.strings.count i < UInt32.size →
          (x.releaseStrings (m.register name data).2.strings).lockCount i = m.strings.lockCount i ∧
          (m.strings.contains i = false →
            (x.releaseStrings (m.register name data).2.strings).lockCount i = 0) := by
  obtain ⟨events, -, heq⟩ := register_eq m name data
  rw [heq]
  cases hload : Module.load name data m.codeTable m.settings.unknownCode m.strings with
  | error e => exact ⟨fun _ _ => rfl, nofun⟩
  | ok p =>
    obtain ⟨y, strings⟩ := p
    refine ⟨nofun, fun x hx hroom => ?_⟩
    cases hx
    obtain ⟨unit, hparse, htakes⟩ := Module.takesIn_of_load hload h hroom
    refine ⟨unit, hparse, htakes, StringTable.sameStrings_unlockAll .., fun i hfits => ?_⟩
    have hback := htakes.lockCount_unlockAll hfits
    exact ⟨hback, fun hnew => hback.trans (StringTable.lockCount_of_not_contains hnew)⟩

/-- A unit that has one constant twice. -/
def repeatingUnit : Bytecode where
  regCount := 0
  arrCount := 0
  strings := [[97], [98], [97]]
  functions := []
  scripts := []
  code := []

/-- A machine in whose table one of the constants lives already, locked once. -/
def lockedMachine : Machine :=
  { make {} with strings := (({} : StringTable).intern [97]).2.lock 0 }

/-- The table with the locks of the host is aligned. -/
theorem aligned_lockedMachine : lockedMachine.strings.Aligned :=
  (StringTable.sameStrings_lock ..).aligned (StringTable.aligned_empty.intern (by decide) [97])

/-- The name under which the unit is registered. -/
def repeatingName : ModuleName := { name := "repeating" }

/-- The constants get the indices 0, 1 and 0 again, so string 0 has three locks until they are given
back. -/
theorem register_takesIn_repeating :
    ∃ x m, lockedMachine.register repeatingName repeatingUnit.write = (.ok x, m) ∧
      x.strings = [0, 1, 0] ∧ m.strings.lockCount 0 = 3 ∧
      (x.releaseStrings m.strings).lockCount 0 = 1 ∧ (x.releaseStrings m.strings).lockCount 1 = 0 := by
  have hregister := (register_takesIn lockedMachine aligned_lockedMachine repeatingName
    repeatingUnit.write).2
  obtain ⟨hstrings, hcount, hroom⟩ :
      (lockedMachine.register repeatingName repeatingUnit.write).1.toOption.map (·.strings) =
        some [0, 1, 0] ∧
      lockedMachine.strings.lockCount 0 = 1 ∧
      (lockedMachine.register repeatingName repeatingUnit.write).2.strings.capacity = 2 := by
    decide +kernel
  cases hr : lockedMachine.register repeatingName repeatingUnit.write with
  | mk r m =>
  rw [hr] at hstrings hroom hregister
  cases r with
  | error e => cases hstrings
  | ok x =>
    have hstrings : x.strings = [0, 1, 0] := by simpa [Except.toOption] using hstrings
    obtain ⟨_, -, htakes, -, hback⟩ := hregister x rfl (by rw [hroom]; decide)
    have hzero : lockedMachine.strings.lockCount 0 + x.strings.count 0 < UInt32.size := by
      rw [hcount, hstrings]
      decide
    have hone : lockedMachine.strings.lockCount 1 + x.strings.count 1 < UInt32.size := by
      rw [hstrings]
      decide +kernel
    refine ⟨x, m, rfl, hstrings, ?_, (hback 0 hzero).1.trans hcount, (hback 1 hone).2 (by decide +kernel)⟩
    rw [htakes.locks 0 hzero, hcount, hstrings]
    decide

/-! ## The calls of the registry -/

/-- The modules the loader was asked for, the latest first. -/
def consulted (m : Machine) : List ModuleName :=
  m.trace.filterMap fun e => match e with
    | .loadModule name => some name
    | _ => none

/-- The machine with what the loader answers this time. -/
def answering (m : Machine) (answer : Except ReadError Bytes) : Machine :=
  { m with hooks := { m.hooks with loadModule := fun _ => answer } }

/-- Modules, their bytes and strings are as they were. -/
structure Untouched (m m' : Machine) : Prop where
  modules : m'.modules = m.modules
  sources : m'.sources = m.sources
  strings : m'.strings = m.strings

/-- No map, no thread and no handle of the host refers to the module. -/
structure Unreferenced (m : Machine) (x : LoadedModule) : Prop where
  place : ∀ id map, m.scopes.map? id = some map → ∀ s ∈ map.modules, s.module.serial ≠ x.serial
  thread : ∀ id map, m.scopes.map? id = some map → ∀ s ∈ map.modules, ∀ t ∈ s.threads,
    ∀ y, t.module = some y → y.serial ≠ x.serial
  running : x.serial ∉ m.running
  held : x.serial ∉ m.held

/-- What the calls of the registry about a name do, whatever the loader answers and whatever the bytes
are. -/
structure Serves (m : Machine) (name : ModuleName) : Prop where
  /-- The loader is asked only for a name that is neither registered nor among the sources. -/
  asked : ∀ answer, ((m.answering answer).getModule name).2.consulted =
    if (m.modules.find? name).isNone && (m.sources.find? name).isNone && m.hooks.has .loadModule
    then name :: m.consulted else m.consulted
  unasked : (∀ data, (m.loadModule name data).2.consulted = m.consulted) ∧
    (m.freeModule name).2.consulted = m.consulted
  /-- A registered module answers every request. -/
  known : ∀ x, m.modules.find? name = some x →
    (∀ answer, (m.answering answer).getModule name = (.ok x, m.answering answer)) ∧
    ∀ data, m.loadModule name data = (.ok x, m)
  /-- A module that is answered is registered. -/
  answered : ∀ x, (∀ answer, ((m.answering answer).getModule name).1 = .ok x →
      ((m.answering answer).getModule name).2.modules.find? name = some x) ∧
    ∀ data, (m.loadModule name data).1 = .ok x → (m.loadModule name data).2.modules.find? name = some x
  failed : ∀ e, (∀ answer, ((m.answering answer).getModule name).1 = .error e →
      m.Untouched ((m.answering answer).getModule name).2) ∧
    ∀ data, (m.loadModule name data).1 = .error e → m.Untouched (m.loadModule name data).2
  kept : (m.freeModule name).1 = false → (m.freeModule name).2 = m
  /-- Only a module that nobody refers to is freed. -/
  freed : (m.freeModule name).1 = true → ∃ x, m.modules.find? name = some x ∧ m.Unreferenced x ∧
    (m.freeModule name).2.modules.find? name = none

/-- Translating a module does not ask the host. -/
theorem consulted_register (m : Machine) (name : ModuleName) (data : Bytes) :
    (m.register name data).2.consulted = m.consulted := by
  unfold register
  simp only [foldl_log (f := fun p : Word × Nat =>
    s!"unknown opcode {p.1} at offset {p.2} translated to a kill")]
  have hlogs : ∀ (f : Word × Nat → String) (l : List (Word × Nat)) (events : List Event),
      ((l.map fun p => Event.log .debug (f p)).reverse ++ events).filterMap (fun e => match e with
        | .loadModule name => some name
        | _ => none) = events.filterMap (fun e => match e with
        | .loadModule name => some name
        | _ => none) := by
    intro f l events
    rw [List.filterMap_append, List.filterMap_eq_nil_iff.2, List.nil_append]
    intro e he
    obtain ⟨p, -, rfl⟩ := List.mem_map.1 (List.mem_reverse.1 he)
    rfl
  cases Module.load name data m.codeTable m.settings.unknownCode m.strings with
  | error e => exact hlogs _ _ _
  | ok p => exact hlogs _ _ _

/-- A failed registration changes nothing but the trace. -/
theorem untouched_register {r : Except ReadError LoadedModule} {e : ReadError}
    (h : m.register name data = (r, m')) (hr : r = .error e) : m.Untouched m' := by
  obtain ⟨events, -, heq⟩ := register_eq m name data
  rw [heq] at h
  split at h
  · cases h
    exact ⟨rfl, rfl, rfl⟩
  · cases h
    cases hr

/-- What is not referred to by the machine is unreferenced. -/
theorem unreferenced_of_isReferenced (h : m.isReferenced x.serial = false) : m.Unreferenced x := by
  simp only [isReferenced, Bool.or_eq_false_iff, List.any_eq_false, List.contains_eq_mem,
    decide_eq_false_iff_not] at h
  obtain ⟨⟨hmaps, hrunning⟩, hheld⟩ := h
  have hplace : ∀ id map, m.scopes.map? id = some map → ∀ s ∈ map.modules,
      ¬(s.module.serial == x.serial || s.threads.any (·.module.any (·.serial == x.serial))) = true :=
    fun id map hmap s hs hrefers =>
      hmaps map (ScopeTree.mem_maps hmap) (List.any_eq_true.2 ⟨s, hs, hrefers⟩)
  refine ⟨fun id map hmap s hs heq => hplace id map hmap s hs ?_,
    fun id map hmap s hs t ht y hy heq => hplace id map hmap s hs ?_, hrunning, hheld⟩
  · rw [heq, beq_self_eq_true, Bool.true_or]
  · have hthread : s.threads.any (·.module.any (·.serial == x.serial)) = true :=
      List.any_eq_true.2 ⟨t, ht, by rw [hy, Option.any_some, heq, beq_self_eq_true]⟩
    rw [hthread, Bool.or_true]

/-- Fetching bytes changes nothing but the trace, and asks the loader if there are none. -/
theorem untouched_fetch (m : Machine) (name : ModuleName) : m.Untouched (m.fetch name).2 ∧
    (m.fetch name).2.consulted =
      if (m.sources.find? name).isNone && m.hooks.has .loadModule then name :: m.consulted
      else m.consulted := by
  unfold fetch
  cases hsource : m.sources.find? name with
  | some data => exact ⟨⟨rfl, rfl, rfl⟩, rfl⟩
  | none =>
    cases hhook : m.hooks.has .loadModule with
    | true => exact ⟨⟨rfl, rfl, rfl⟩, rfl⟩
    | false => exact ⟨⟨rfl, rfl, rfl⟩, rfl⟩

/-- What is left alone twice is left alone. -/
theorem Untouched.trans {m'' : Machine} (h : m.Untouched m') (h' : m'.Untouched m'') :
    m.Untouched m'' :=
  ⟨h'.modules.trans h.modules, h'.sources.trans h.sources, h'.strings.trans h.strings⟩

/-- A registered module is answered, and nothing else happens. -/
theorem getModule_known (h : m.modules.find? name = some x) : m.getModule name = (.ok x, m) := by
  rw [getModule, h]

/-- A module that is there is not loaded again. -/
theorem loadModule_known (h : m.modules.find? name = some x) (data : Bytes) :
    m.loadModule name data = (.ok x, m) := by
  rw [loadModule, h]

/-- A failed request changes nothing but the trace. -/
theorem untouched_getModule {e : ReadError} (h : (m.getModule name).1 = .error e) :
    m.Untouched (m.getModule name).2 := by
  cases hfind : m.modules.find? name with
  | some x =>
    rw [getModule_known hfind] at h
    cases h
  | none =>
    have hfetch := (untouched_fetch m name).1
    revert h hfetch
    unfold getModule
    rw [hfind]
    cases m.fetch name with
    | mk r m₁ =>
    cases r with
    | error e' => exact fun _ hfetch => hfetch
    | ok data => exact fun h hfetch => hfetch.trans (untouched_register rfl h)

/-- A failed load leaves modules, scopes and strings alone. -/
theorem untouched_loadModule {e : ReadError} (h : (m.loadModule name data).1 = .error e) :
    m.Untouched (m.loadModule name data).2 := by
  cases hfind : m.modules.find? name with
  | some x =>
    rw [loadModule_known hfind] at h
    cases h
  | none =>
    revert h
    unfold loadModule
    rw [hfind]
    cases hregister : m.register name data with
    | mk r m₁ =>
    cases r with
    | error e' => exact fun _ => untouched_register hregister rfl
    | ok x => exact nofun

/-- The host is asked once for each module that is neither there nor handed over, if it has a loader. -/
theorem consulted_getModule (m : Machine) (name : ModuleName) : (m.getModule name).2.consulted =
    if (m.modules.find? name).isNone && (m.sources.find? name).isNone && m.hooks.has .loadModule
    then name :: m.consulted else m.consulted := by
  cases hfind : m.modules.find? name with
  | some x =>
    rw [getModule_known hfind]
    rfl
  | none =>
    have hfetch := (untouched_fetch m name).2
    revert hfetch
    unfold getModule
    rw [hfind]
    cases m.fetch name with
    | mk r m₁ =>
    cases r with
    | error e => exact fun hfetch => hfetch
    | ok data => exact fun hfetch => (consulted_register m₁ name data).trans hfetch

/-- Bytes that are handed over are not asked for. -/
theorem consulted_loadModule (m : Machine) (name : ModuleName) (data : Bytes) :
    (m.loadModule name data).2.consulted = m.consulted := by
  cases hfind : m.modules.find? name with
  | some x => rw [loadModule_known hfind]
  | none =>
    have hregister := consulted_register m name data
    revert hregister
    unfold loadModule
    rw [hfind]
    cases m.register name data with
    | mk r m₁ => cases r <;> exact fun hregister => hregister

/-- What a request that succeeds leaves: the module is registered. -/
theorem find?_of_loadModule (h : (m.loadModule name data).1 = .ok x) :
    (m.loadModule name data).2.modules.find? name = some x := by
  cases hfind : m.modules.find? name with
  | some y =>
    rw [loadModule_known hfind] at h ⊢
    cases h
    exact hfind
  | none =>
    revert h
    unfold loadModule
    rw [hfind]
    cases hregister : m.register name data with
    | mk r m₁ =>
    intro h
    rcases (register_cases hfind hregister).2 with ⟨e, rfl, -⟩ | ⟨y, rfl, hr⟩
    · cases h
    · cases h
      simp only
      rw [hr.modules, OrdMap.find?_insert, if_pos Std.ReflCmp.compare_self]

/-- **The calls of the registry.** -/
theorem serves (m : Machine) (name : ModuleName) : m.Serves name where
  asked answer := consulted_getModule (m.answering answer) name
  unasked := by
    refine ⟨consulted_loadModule m name, ?_⟩
    unfold freeModule
    split
    · rfl
    · split <;> rfl
  known x hx := ⟨fun _ => getModule_known hx, loadModule_known hx⟩
  answered x := ⟨fun _ h => find?_of_getModule (Prod.ext h rfl), fun _ h => find?_of_loadModule h⟩
  failed e := ⟨fun answer h =>
    have hget : (m.answering answer).Untouched _ := untouched_getModule h
    ⟨hget.modules, hget.sources, hget.strings⟩, fun _ h => untouched_loadModule h⟩
  kept h := by
    revert h
    unfold freeModule
    split
    · exact fun _ => rfl
    · split
      · exact fun _ => rfl
      · exact nofun
  freed h := by
    revert h
    unfold freeModule
    split
    · exact nofun
    · rename_i x hx
      split
      · exact nofun
      · rename_i hfree
        refine fun _ => ⟨x, hx, unreferenced_of_isReferenced (Bool.not_eq_true _ ▸ hfree), ?_⟩
        exact (OrdMap.find?_erase ..).trans (if_pos Std.ReflCmp.compare_self)

/-! ## The constants of the registered modules -/

/-- The string constants of the registered modules, each as often as a module has it. -/
def constants (m : Machine) : List Word := m.modules.values.flatMap (·.strings)

/-- Registering a module adds its constants. -/
theorem count_constants_insert (hnew : m.modules.find? name = none)
    (h : m'.modules = m.modules.insert name x) (i : Word) :
    m'.constants.count i = x.strings.count i + m.constants.count i := by
  have hperm := (m.modules.values_insert_perm name x).flatMap_right (·.strings)
  have hrest := (m.modules.values_perm name).flatMap_right (·.strings)
  rw [hnew] at hrest
  rw [constants, h, hperm.count_eq, List.flatMap_cons, List.count_append, constants, hrest.count_eq]
  rfl

/-- Taking a module away takes its constants away. -/
theorem count_constants_erase (hx : m.modules.find? name = some x)
    (h : m'.modules = m.modules.erase name) (i : Word) :
    m.constants.count i = x.strings.count i + m'.constants.count i := by
  have hperm := (m.modules.values_perm name).flatMap_right (·.strings)
  rw [hx] at hperm
  rw [constants, hperm.count_eq, constants, h]
  exact List.count_append

end Machine

/-! ## Accounts -/

/-- A machine with the locks that the host holds, each with the index of its string. -/
structure Account where
  machine : Machine
  locks : List Word

namespace Account

/-- What may happen to an account. -/
inductive Deed where
  /-- The module with a name is asked for, and the loader answers this if it is asked. -/
  | get (name : ModuleName) (answer : Except ReadError Bytes)
  | load (name : ModuleName) (data : Bytes)
  | free (name : ModuleName)
  /-- The host adds a string. -/
  | intern (b : Bytes)
  /-- The host takes a lock. -/
  | lock (i : Word)
  /-- The host gives a lock back. -/
  | unlock (i : Word)
  | collect
  /-- Something happens that concerns neither modules nor strings. -/
  | elsewhere (m : Machine)

/-- The account after a deed.  The host holds a lock only if a string was there to take it. -/
def act (a : Account) : Deed → Account
  | .get name answer => { a with machine := ((a.machine.answering answer).getModule name).2 }
  | .load name data => { a with machine := (a.machine.loadModule name data).2 }
  | .free name => { a with machine := (a.machine.freeModule name).2 }
  | .intern b =>
    { a with machine := { a.machine with strings := (a.machine.strings.intern b).2 } }
  | .lock i =>
    { machine := { a.machine with strings := a.machine.strings.lock i }
      locks := if a.machine.strings.contains i then i :: a.locks else a.locks }
  | .unlock i =>
    { machine := { a.machine with strings := a.machine.strings.unlock i }
      locks := a.locks.erase i }
  | .collect => { a with machine := a.machine.collectStrings.2 }
  | .elsewhere m => { a with machine := m }

/-- The account after some deeds. -/
def after (a : Account) (ds : List Deed) : Account := ds.foldl act a

/-- A deed by the rules: the host gives back only locks that it took, and afterwards a new string finds an
index and the locks of no string are too many to be counted. -/
structure Permits (a : Account) (d : Deed) : Prop where
  given : ∀ i, d = .unlock i → i ∈ a.locks
  elsewhere : ∀ m, d = .elsewhere m → a.machine.Untouched m
  room : (a.act d).machine.strings.capacity < UInt32.size
  counts : ∀ i, (a.act d).locks.count i + (a.act d).machine.constants.count i < UInt32.size

/-- The lock count of every string is what the host holds and what the registered modules have it
for. -/
def Balanced (a : Account) : Prop :=
  ∀ i, a.machine.strings.lockCount i = a.locks.count i + a.machine.constants.count i

variable {a : Account}

/-- What every deed keeps: the table is in order, and the lock counts are accounted for. -/
structure Kept (a : Account) : Prop where
  aligned : a.machine.strings.Aligned
  balanced : a.Balanced

/-- A new machine has no module, no string and no lock. -/
theorem kept_make (settings : Settings) : Kept ⟨Machine.make settings, []⟩ :=
  ⟨StringTable.aligned_empty, fun _ => rfl⟩

/-- The accounts are about modules and strings only. -/
theorem Kept.of_same {m : Machine} (h : a.Kept) (hmodules : m.modules = a.machine.modules)
    (hstrings : m.strings = a.machine.strings) : Kept { a with machine := m } := by
  refine ⟨hstrings ▸ h.aligned, fun i => ?_⟩
  have hcount := h.balanced i
  simp only [Machine.constants] at hcount
  simp only [Machine.constants, hmodules, hstrings, hcount]

/-- The table changes no lock count. -/
theorem Kept.of_counts {t : StringTable} (h : a.Kept) (ht : t.Aligned)
    (hcount : ∀ i, t.lockCount i = a.machine.strings.lockCount i) :
    Kept { a with machine := { a.machine with strings := t } } :=
  ⟨ht, fun i => (hcount i).trans (h.balanced i)⟩

/-- A module that is registered locks its constants. -/
theorem Kept.registers {m : Machine} {name : ModuleName} {data : Bytes} {x : LoadedModule}
    (h : a.Kept) (hnew : a.machine.modules.find? name = none)
    (hr : a.machine.Registers name data x m) (hroom : m.strings.capacity < UInt32.size)
    (hcounts : ∀ i, a.locks.count i + m.constants.count i < UInt32.size) :
    Kept { a with machine := m } := by
  obtain ⟨unit, -, htakes⟩ := Module.takesIn_of_load hr.load h.aligned hroom
  refine ⟨htakes.aligned, fun i => ?_⟩
  have hconstants := Machine.count_constants_insert hnew hr.modules i
  have hfits := hcounts i
  have hbefore := h.balanced i
  show m.strings.lockCount i = a.locks.count i + m.constants.count i
  rw [htakes.locks i (by omega)]
  omega

theorem Kept.get {name : ModuleName} {answer : Except ReadError Bytes} (h : a.Kept)
    (hd : a.Permits (.get name answer)) : (a.act (.get name answer)).Kept := by
  have hkept : Kept { a with machine := a.machine.answering answer } := h.of_same rfl rfl
  cases hfind : (a.machine.answering answer).modules.find? name with
  | some x =>
    have hsame := Machine.getModule_known hfind
    rw [act, hsame]
    exact hkept
  | none =>
    rcases (Machine.getModule_cases hfind rfl).2 with ⟨e, -, -, hmodules, hstrings⟩ | ⟨data, x, -, -, hr⟩
    · exact hkept.of_same hmodules hstrings
    · exact hkept.registers hfind hr hd.room hd.counts

theorem Kept.load {name : ModuleName} {data : Bytes} (h : a.Kept) (hd : a.Permits (.load name data)) :
    (a.act (.load name data)).Kept := by
  cases hfind : a.machine.modules.find? name with
  | some x =>
    rw [act, Machine.loadModule_known hfind]
    exact h
  | none =>
    have hroom := hd.room
    have hcounts := hd.counts
    simp only [act] at hroom hcounts ⊢
    unfold Machine.loadModule at hroom hcounts ⊢
    rw [hfind] at hroom hcounts ⊢
    cases hregister : a.machine.register name data with
    | mk r m =>
    rw [hregister] at hroom hcounts
    rcases (Machine.register_cases hfind hregister).2 with
      ⟨e, rfl, -, hmodules, hstrings⟩ | ⟨x, rfl, hr⟩
    · exact h.of_same hmodules hstrings
    · exact (h.registers hfind hr hroom hcounts).of_same rfl rfl

/-- A module that is freed gives its locks back. -/
theorem Kept.free (h : a.Kept) (name : ModuleName) : (a.act (.free name)).Kept := by
  simp only [act]
  unfold Machine.freeModule
  split
  · exact h
  · rename_i x hx
    split
    · exact h
    · have hsame := StringTable.sameStrings_unlockAll a.machine.strings x.strings
      refine ⟨hsame.aligned h.aligned, fun i => ?_⟩
      have hconstants : a.machine.constants.count i = x.strings.count i +
          (Machine.constants { a.machine with modules := a.machine.modules.erase name }).count i :=
        Machine.count_constants_erase hx rfl i
      have hbefore := h.balanced i
      show (a.machine.strings.unlockAll x.strings).lockCount i = a.locks.count i +
        (Machine.constants { a.machine with modules := a.machine.modules.erase name }).count i
      rw [StringTable.lockCount_unlockAll]
      omega

theorem Kept.intern {b : Bytes} (h : a.Kept) (hd : a.Permits (.intern b)) :
    (a.act (.intern b)).Kept := by
  have hroom : a.machine.strings.slots.size < UInt32.size :=
    Nat.lt_of_le_of_lt (StringTable.size_le_intern ..) hd.room
  exact h.of_counts (h.aligned.intern hroom b) (h.aligned.lockCount_intern hroom b)

theorem Kept.lock {i : Word} (h : a.Kept) (hd : a.Permits (.lock i)) : (a.act (.lock i)).Kept := by
  refine ⟨(StringTable.sameStrings_lock ..).aligned h.aligned, fun j => ?_⟩
  have hbefore := h.balanced j
  by_cases hj : i = j
  · subst hj
    have hfits := hd.counts i
    simp only [act] at hfits ⊢
    cases hlives : a.machine.strings.contains i with
    | true =>
      rw [hlives, if_pos rfl, List.count_cons_self] at hfits
      rw [if_pos rfl, List.count_cons_self, StringTable.lockCount_lock _ i, hbefore, if_pos ⟨rfl, hlives⟩]
      · exact Nat.add_right_comm ..
      · rw [hbefore]
        exact Nat.add_right_comm .. ▸ hfits
    | false =>
      have hnone := StringTable.lockCount_of_not_contains hlives
      rw [StringTable.lockCount_lock (by rw [hnone]; decide) i, hbefore,
        if_neg fun hlocked => Bool.false_ne_true (hlives.symm.trans hlocked.2), if_neg Bool.false_ne_true]
      rfl
  · have hlocks : (if a.machine.strings.contains i then i :: a.locks else a.locks).count j =
        a.locks.count j := by
      split
      · exact List.count_cons_of_ne hj
      · rfl
    simp only [act, StringTable.lockCount_lock_of_ne _ hj, hlocks, hbefore]
    rfl

theorem Kept.unlock {i : Word} (h : a.Kept) (hi : i ∈ a.locks) : (a.act (.unlock i)).Kept := by
  refine ⟨(StringTable.sameStrings_unlock ..).aligned h.aligned, fun j => ?_⟩
  have hbefore := h.balanced j
  have hpos := List.count_pos_iff.2 hi
  show (a.machine.strings.unlock i).lockCount j = (a.locks.erase i).count j + a.machine.constants.count j
  rw [StringTable.lockCount_unlock, hbefore, List.count_erase]
  by_cases hj : i = j
  · subst hj
    rw [if_pos rfl, beq_self_eq_true, if_pos rfl]
    omega
  · rw [if_neg hj, beq_false_of_ne hj, if_neg Bool.false_ne_true]
    rfl

/-- A collection counts no lock anew and gives none back. -/
theorem Kept.collect (h : a.Kept) : (a.act .collect).Kept := by
  have hmarks : ∀ (t : StringTable) (is : List Word), t.Aligned →
      (∀ i, t.lockCount i = a.machine.strings.lockCount i) →
      (t.markAll is).Aligned ∧ ∀ i, (t.markAll is).lockCount i = a.machine.strings.lockCount i :=
    fun t is ht hcount => ⟨(StringTable.sameStrings_markAll t is).aligned ht,
      fun i => (t.lockCount_markAll is i).trans (hcount i)⟩
  have hends : ∀ t : StringTable, t.Aligned ∧ (∀ i, t.lockCount i = a.machine.strings.lockCount i) →
      Kept { a with machine := { a.machine with strings := t.endCollection.2 } } := fun t ht =>
    h.of_counts ht.1.endCollection.toAligned
      fun i => (t.lockCount_endCollection i).1.trans (ht.2 i)
  obtain ⟨hmodules, hscopes⟩ := hmarks _ (a.machine.modules.values.flatMap (·.strings))
    ((StringTable.sameStrings_beginCollection a.machine.strings).aligned h.aligned)
    a.machine.strings.lockCount_beginCollection
  have hheld := hmarks _ a.machine.scopes.references hmodules hscopes
  have hcollected : Kept { a with machine := { a.machine with
      strings := a.machine.collectStrings.2.strings } } := by
    unfold Machine.collectStrings
    split
    · exact h
    · refine hends _ ?_
      split
      · exact hmarks _ _ hheld.1 hheld.2
      · exact hheld
  exact hcollected.of_same Machine.evolves_collectStrings.modules rfl

/-- **One deed** keeps the lock counts accounted for. -/
theorem Kept.act (h : a.Kept) {d : Deed} (hd : a.Permits d) : (a.act d).Kept := by
  cases d with
  | get name answer => exact h.get hd
  | load name data => exact h.load hd
  | free name => exact h.free name
  | intern b => exact h.intern hd
  | lock i => exact h.lock hd
  | unlock i => exact h.unlock (hd.given i rfl)
  | collect => exact h.collect
  | elsewhere m =>
    have hsame := hd.elsewhere m rfl
    exact h.of_same hsame.modules hsame.strings

theorem after_concat (a : Account) (ds : List Deed) (d : Deed) :
    a.after (ds ++ [d]) = (a.after ds).act d := by
  simp [after]

/-- A run within the rules keeps the accounts. -/
theorem Kept.after (h : a.Kept) {ds : List Deed}
    (hrules : ∀ p d, p ++ [d] <+: ds → (a.after p).Permits d) : (a.after ds).Kept := by
  induction ds using List.reverseRecOn with
  | nil => exact h
  | append_singleton ds d ih =>
    have hkept := ih fun p e hp => hrules p e (hp.trans (List.prefix_append _ _))
    rw [after_concat]
    exact hkept.act (hrules ds d (List.prefix_refl _))

/-- A registered module stays, unless the deed is to free it and succeeds. -/
theorem find?_act {d : Deed} (hd : a.Permits d) {name : ModuleName} {x : LoadedModule}
    (hx : a.machine.modules.find? name = some x)
    (hfree : d = .free name → (a.machine.freeModule name).1 = false) :
    (a.act d).machine.modules.find? name = some x := by
  cases d with
  | get name' answer =>
    have hgrows : (a.machine.answering answer).Grows ((a.machine.answering answer).getModule name').2 :=
      Machine.grows_getModule rfl
    exact hgrows.modules name x hx
  | load name' data =>
    cases hfind : a.machine.modules.find? name' with
    | some y =>
      rw [act, Machine.loadModule_known hfind]
      exact hx
    | none =>
      simp only [act]
      unfold Machine.loadModule
      rw [hfind]
      cases hregister : a.machine.register name' data with
      | mk r m =>
      have hgrows := (Machine.register_cases hfind hregister).1
      cases r <;> exact hgrows.modules name x hx
  | free name' =>
    by_cases hname : name' = name
    · subst hname
      rw [act, (a.machine.serves name').kept (hfree rfl)]
      exact hx
    · have hne : ¬compare name name' = .eq := fun heq =>
        hname (Std.LawfulEqOrd.compare_eq_iff_eq.1 heq).symm
      simp only [act]
      unfold Machine.freeModule
      split
      · exact hx
      · split
        · exact hx
        · exact ((OrdMap.find?_erase ..).trans (if_neg hne)).trans hx
  | intern b => exact hx
  | lock i => exact hx
  | unlock i => exact hx
  | collect => rw [act, Machine.evolves_collectStrings.modules, hx]
  | elsewhere m => rw [act, (hd.elsewhere m rfl).modules, hx]

theorem after_append (a : Account) (ds es : List Deed) : a.after (ds ++ es) = (a.after ds).after es :=
  List.foldl_append ..

/-- A registered module stays until it is freed. -/
theorem find?_after {ds : List Deed} (hrules : ∀ p d, p ++ [d] <+: ds → (a.after p).Permits d)
    {name : ModuleName} {x : LoadedModule} (hx : a.machine.modules.find? name = some x)
    (hfree : ∀ p, p ++ [.free name] <+: ds → ((a.after p).machine.freeModule name).1 = false) :
    (a.after ds).machine.modules.find? name = some x := by
  induction ds using List.reverseRecOn with
  | nil => exact hx
  | append_singleton ds d ih =>
    have hbefore := ih (fun p e hp => hrules p e (hp.trans (List.prefix_append _ _)))
      fun p hp => hfree p (hp.trans (List.prefix_append _ _))
    rw [after_concat]
    exact find?_act (hrules ds d (List.prefix_refl _)) hbefore fun hd => hfree ds (hd ▸ List.prefix_refl _)

/-- **The registry keeps its books.**  Let the locks be accounted for at the beginning, and let deeds
follow by the rules.  Then at every point the lock count of every string is the number of locks that the
host holds plus the number of times it is a constant of a registered module, every call of the registry
does what it should, and a module that is registered answers every request for its name until it is
freed. -/
theorem modules_accounted (h : a.Kept) (ds : List Deed)
    (hrules : ∀ p d, p ++ [d] <+: ds → (a.after p).Permits d) :
    ∀ p, p <+: ds → (a.after p).Balanced ∧ (∀ name, (a.after p).machine.Serves name) ∧
      ∀ name x, (a.after p).machine.modules.find? name = some x → ∀ q, p ++ q <+: ds →
        (∀ r, r ++ [.free name] <+: q → ((a.after (p ++ r)).machine.freeModule name).1 = false) →
        (∀ answer, ((a.after (p ++ q)).machine.answering answer).getModule name =
          (.ok x, (a.after (p ++ q)).machine.answering answer)) ∧
        ∀ data, (a.after (p ++ q)).machine.loadModule name data = (.ok x, (a.after (p ++ q)).machine) := by
  intro p hp
  refine ⟨(h.after fun q d hq => hrules q d (hq.trans hp)).balanced,
    fun name => (a.after p).machine.serves name, fun name x hx q hq hfree => ?_⟩
  have hkept : (a.after (p ++ q)).machine.modules.find? name = some x := by
    rw [after_append]
    refine find?_after (fun r d hr => ?_) hx fun r hr => ?_
    · rw [← after_append]
      refine hrules _ d (List.IsPrefix.trans ?_ hq)
      rw [List.append_assoc]
      exact (List.prefix_append_right_inj p).2 hr
    · rw [← after_append]
      exact hfree r hr
  exact ((a.after (p ++ q)).machine.serves name).known x hkept

/-- A new machine whose host has a loader. -/
def loaderAccount : Account :=
  ⟨{ Machine.make {} with hooks := { installed := [.loadModule] } }, []⟩

/-- The loader fails, then answers a unit; the host locks its first constant; nothing is loaded when it is
asked for again, and then it is freed. -/
def loaderDeeds : List Deed := [
  .get Machine.repeatingName (.error (.malformed (.noLoader Machine.repeatingName))),
  .get Machine.repeatingName (.ok Machine.repeatingUnit.write), .lock 0,
  .load Machine.repeatingName [], .free Machine.repeatingName]

/-- String 0 has the lock of the host and two of the module, and in the end that of the host. -/
theorem modules_accounted_repeating :
    (loaderAccount.after (loaderDeeds.take 4)).Balanced ∧
    (loaderAccount.after (loaderDeeds.take 4)).machine.constants = [0, 1, 0] ∧
    (loaderAccount.after (loaderDeeds.take 4)).machine.strings.lockCount 0 = 3 ∧
    (loaderAccount.after loaderDeeds).machine.strings.lockCount 0 = 1 := by
  obtain ⟨hfits, hconstants, hlocks, hone⟩ :
      (∀ k < 6, (loaderAccount.after (loaderDeeds.take k)).machine.strings.capacity < UInt32.size ∧
        (loaderAccount.after (loaderDeeds.take k)).locks.length +
          (loaderAccount.after (loaderDeeds.take k)).machine.constants.length < UInt32.size) ∧
      (loaderAccount.after (loaderDeeds.take 4)).machine.constants = [0, 1, 0] ∧
      (loaderAccount.after (loaderDeeds.take 4)).locks = [0] ∧
      (loaderAccount.after loaderDeeds).locks.count 0 +
        (loaderAccount.after loaderDeeds).machine.constants.count 0 = 1 := by decide +kernel
  have hrules : ∀ p d, p ++ [d] <+: loaderDeeds → (loaderAccount.after p).Permits d := by
    intro p d hp
    have hmem : d ∈ loaderDeeds := hp.subset (by simp)
    have hlength : p.length + 1 ≤ loaderDeeds.length := by
      rw [← List.length_concat, List.concat_eq_append]
      exact hp.length_le
    have hact : loaderAccount.after (loaderDeeds.take (p.length + 1)) = (loaderAccount.after p).act d := by
      rw [← after_concat, List.prefix_iff_eq_take.1 hp, List.length_append]
      rfl
    obtain ⟨hroom, hcounts⟩ := hfits (p.length + 1) (Nat.lt_succ_of_le hlength)
    rw [hact] at hroom hcounts
    refine ⟨fun i hi => ?_, fun m hm => ?_, hroom, fun i => Nat.lt_of_le_of_lt
      (Nat.add_le_add List.count_le_length List.count_le_length) hcounts⟩
    · rw [hi] at hmem
      simp [loaderDeeds] at hmem
    · rw [hm] at hmem
      simp [loaderDeeds] at hmem
  have hkept : loaderAccount.Kept := (kept_make {}).of_same rfl rfl
  have hbefore := modules_accounted hkept loaderDeeds hrules _ (List.take_prefix 4 loaderDeeds)
  have hend := modules_accounted hkept loaderDeeds hrules _ (List.prefix_refl _)
  refine ⟨hbefore.1, hconstants, (hbefore.1 0).trans ?_, (hend.1 0).trans hone⟩
  rw [hlocks, hconstants]
  rfl

end Account

end ScriptMachine
