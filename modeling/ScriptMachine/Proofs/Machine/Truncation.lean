import ScriptMachine.Proofs.Machine.Reloading
import ScriptMachine.Proofs.Scope.Legibility
import ScriptMachine.Proofs.Scope.Truncation

/-!
# Units and saved states notice where they end

A reader of the formats takes a number of bytes that the bytes themselves tell
(`Reader.SelfDelimiting`): it neither looks at what follows, nor does it answer anything but that the
stream has ended when some of them are missing.  Every reader here is made of such readers, those of
the string table, of the modules and of the scopes as well, although they are loops over a machine that
changes on the way.  So whatever unit or state is read to its end is missed as soon as it is cut
(`Module.load_front`, `Machine.load_front`).

What a machine saves need not be read to its end, though.  The reader of a thread holds it against the
modules and against its own variables, and refuses a thread that does not fit them.  Such a thread is
not legible, and cuts behind the first one are reported as what is wrong with it
(`Machine.load_front_iff`).
-/

namespace ScriptMachine

open Reader Varint

/-! ## Compiled units -/

namespace Bytecode

theorem selfDelimiting_readFunction (i : Nat) : SelfDelimiting (readFunction i) := by
  unfold readFunction
  refine selfDelimiting_readWord.bind fun paramCount => selfDelimiting_readWord.bind fun regCount => ?_
  refine selfDelimiting_readWord.bind fun arrCount => selfDelimiting_readWord.bind fun entry => ?_
  dsimp only
  split
  · exact .fail_bind _ _
  · exact .pure _

theorem selfDelimiting_readScriptName (strings : List Bytes) :
    SelfDelimiting (readScriptName strings) := by
  unfold readScriptName
  refine (selfDelimiting_read .bits8).bind fun kind => ?_
  split
  · exact selfDelimiting_readSigned.map _
  · refine selfDelimiting_readSize.bind fun i => ?_
    split
    · exact .pure _
    · exact .malformed _
  · exact .malformed _

theorem selfDelimiting_readScript (strings : List Bytes) : SelfDelimiting (readScript strings) := by
  unfold readScript
  refine (selfDelimiting_readScriptName strings).bind fun name => ?_
  refine selfDelimiting_readWord.bind fun type => selfDelimiting_readWord.bind fun flags => ?_
  refine selfDelimiting_readWord.bind fun argCount => selfDelimiting_readWord.bind fun regCount => ?_
  refine selfDelimiting_readWord.bind fun arrCount => selfDelimiting_readWord.bind fun entry => ?_
  dsimp only
  split
  · exact .fail_bind _ _
  · exact .pure _

theorem selfDelimiting_read : SelfDelimiting read := by
  unfold read
  refine (selfDelimiting_signature _).bind fun _ => selfDelimiting_word32.bind fun found => ?_
  split
  · exact .fail_bind _ _
  refine selfDelimiting_readWord.bind fun regCount => selfDelimiting_readWord.bind fun arrCount => ?_
  refine selfDelimiting_string.list.bind fun strings => ?_
  refine (SelfDelimiting.listFrom selfDelimiting_readFunction).bind fun functions => ?_
  refine (selfDelimiting_readScript strings).list.bind fun scripts => ?_
  exact selfDelimiting_string.map _

/-- Bytes of a unit are read to the last one. -/
theorem read_of_parse {data : Bytes} {unit : Bytecode} (h : parse data = .ok unit) :
    read data = .ok (unit, []) := by
  unfold parse at h
  cases hread : read data with
  | error e =>
    rw [hread] at h
    cases h
  | ok p =>
    obtain ⟨found, rest⟩ := p
    rw [hread] at h
    cases rest with
    | nil =>
      cases h
      rfl
    | cons b rest => cases h

end Bytecode

namespace Module

variable {name name' : ModuleName} {table : CodeTable} {policy : UnknownPolicy}
  {t t' u : StringTable} {x : Module} {data front back more : Bytes}

/-- A module that is loaded was read to the end of its bytes. -/
theorem exists_unit_of_load (h : load name data table policy t = .ok (x, u)) :
    ∃ unit, Bytecode.read data = .ok (unit, []) := by
  unfold load at h
  cases hparse : Bytecode.parse data with
  | error e =>
    rw [hparse] at h
    cases h
  | ok unit => exact ⟨unit, Bytecode.read_of_parse hparse⟩

/-- A module that was cut is too short. -/
theorem load_front (h : load name data table policy t = .ok (x, u)) (hcut : data = front ++ back)
    (hback : back ≠ []) : load name' front table policy t' = .error .endOfStream := by
  obtain ⟨unit, hread⟩ := exists_unit_of_load h
  rw [hcut] at hread
  have hshort := Bytecode.selfDelimiting_read.cut hread (List.length_pos_iff.2 hback)
  unfold load Bytecode.parse
  rw [hshort]
  rfl

/-- A module with bytes behind it is refused for them. -/
theorem load_append (h : load name data table policy t = .ok (x, u)) (hmore : more ≠ []) :
    load name' (data ++ more) table policy t' = .error (.malformed .trailingBytes) := by
  obtain ⟨unit, hread⟩ := exists_unit_of_load h
  have hlong := Bytecode.selfDelimiting_read.append hread more
  cases more with
  | nil => exact absurd rfl hmore
  | cons b more =>
    unfold load Bytecode.parse
    rw [hlong]
    rfl

end Module

/-! ## String tables -/

namespace StringTable

theorem selfDelimiting_readSlot (index : Nat) : SelfDelimiting (readSlot index) := by
  unfold readSlot
  split
  · exact .fail_bind _ _
  refine selfDelimiting_bool.bind fun live => ?_
  split
  · exact selfDelimiting_string.bind fun bytes => selfDelimiting_readWord.map _
  · exact .pure none

/-- The slots of a table, as a reader of tables. -/
def slotsReader (n : Nat) (t : StringTable) : Reader StringTable := fun s =>
  match readSlots n t s with
  | (u, .ok rest) => .ok (u, rest)
  | (_, .error e) => .error e

/-- Slots are read one after another. -/
theorem slotsReader_succ (n : Nat) (t : StringTable) :
    slotsReader (n + 1) t = readSlot t.slots.size >>= fun slot => slotsReader n (t.append slot) := by
  funext s
  rw [bind_apply, slotsReader, readSlots]
  cases readSlot t.slots.size s <;> rfl

/-- The slots of the string table end by themselves. -/
theorem selfDelimiting_slotsReader (n : Nat) (t : StringTable) : SelfDelimiting (slotsReader n t) := by
  induction n generalizing t with
  | zero => exact .pure t
  | succ n ih =>
    rw [slotsReader_succ]
    exact (selfDelimiting_readSlot _).bind fun slot => ih _

/-- The string table is read slot by slot, and its last slot is in use. -/
theorem reader_eq : reader = readSize >>= fun n => slotsReader n {} >>= fun t =>
    if t.slots.back? = some none then Reader.malformed .freeTail else Pure.pure t := by
  funext s
  simp only [bind_apply, reader, read]
  cases readSize s with
  | error e => rfl
  | ok p =>
    obtain ⟨n, rest⟩ := p
    simp only [slotsReader]
    cases readSlots n {} rest with
    | mk t answer =>
      cases answer with
      | error e => rfl
      | ok rest' =>
        by_cases hfree : t.slots.back? = some none
        · simp only [if_pos hfree]
          rfl
        · simp only [if_neg hfree]
          rfl

/-- The string table ends by itself. -/
theorem selfDelimiting_reader : SelfDelimiting reader := by
  rw [reader_eq]
  refine selfDelimiting_readSize.bind fun n => (selfDelimiting_slotsReader n {}).bind fun t => ?_
  split
  · exact .malformed _
  · exact .pure t

end StringTable

/-! ## Saved states -/

namespace Machine

/-- What was read into a machine, with the machine. -/
def answered {α : Type} : Except ReadError (α × Bytes) × Machine →
    Except ReadError ((α × Machine) × Bytes)
  | (.ok (a, rest), m) => .ok ((a, m), rest)
  | (.error e, _) => .error e

/-- Fetching modules, as a reader of the machine that has them. -/
def modulesReader (n : Nat) (m : Machine) : Reader (List LoadedModule × Machine) := fun s =>
  answered (fetchModules n m s)

/-- Modules are read by their names, one after another. -/
theorem modulesReader_succ (n : Nat) (m : Machine) :
    modulesReader (n + 1) m = ModuleName.read >>= fun name =>
      match m.getModule name with
      | (.error e, _) => throw e
      | (.ok x, m) => modulesReader n m >>= fun p => Pure.pure (x :: p.1, p.2) := by
  funext s
  rw [bind_apply, modulesReader, fetchModules]
  cases ModuleName.read s with
  | error e => rfl
  | ok p =>
    obtain ⟨name, rest⟩ := p
    simp only
    cases m.getModule name with
    | mk answer m =>
      cases answer with
      | error e => rfl
      | ok x =>
        simp only [bind_apply, modulesReader]
        cases fetchModules n m rest with
        | mk answer m => cases answer <;> rfl

/-- The modules of a state end by themselves. -/
theorem selfDelimiting_modulesReader (n : Nat) (m : Machine) :
    SelfDelimiting (modulesReader n m) := by
  induction n generalizing m with
  | zero => exact .pure ([], m)
  | succ n ih =>
    rw [modulesReader_succ]
    refine selfDelimiting_moduleName.bind fun name => ?_
    split
    · exact .fail _
    · exact (ih _).map _

/-- Taking in global scopes, as a reader of the machine that has them. -/
def globalsReader (modules : List LoadedModule) (n : Nat) (m : Machine) : Reader Machine := fun s =>
  match takeGlobals modules n m s with
  | (.ok rest, m) => .ok (m, rest)
  | (.error e, _) => .error e

/-- Global scopes are read one after another. -/
theorem globalsReader_succ (modules : List LoadedModule) (n : Nat) (m : Machine) :
    globalsReader modules (n + 1) m = GlobalScope.read modules >>= fun p =>
      globalsReader modules n { m with scopes := ⟨m.scopes.globals.insert p.1 p.2⟩ } := by
  funext s
  rw [bind_apply, globalsReader, takeGlobals]
  cases GlobalScope.read modules s <;> rfl

/-- The global scopes of a state end by themselves. -/
theorem selfDelimiting_globalsReader (modules : List LoadedModule) (n : Nat) (m : Machine) :
    SelfDelimiting (globalsReader modules n m) := by
  induction n generalizing m with
  | zero => exact .pure m
  | succ n ih =>
    rw [globalsReader_succ]
    exact (selfDelimiting_global modules).bind fun p => ih _

/-- The contents of a saved state, as a reader of the machine that has them. -/
def contentsReader (m : Machine) : Reader (Nat × Machine) := fun s => answered (m.takeContents s)

/-- Contents are strings, modules and scopes. -/
theorem contentsReader_eq (m : Machine) :
    contentsReader m = StringTable.reader >>= fun strings => readSize >>= fun n =>
      modulesReader n { m with scopes := {}, modules := {}, strings } >>= fun p =>
      readSize >>= fun k => globalsReader p.1 k p.2 >>= fun m =>
      Pure.pure (p.1.length, { m with strings := m.strings.restoreLocks strings.lockCounts }) := by
  funext s
  simp only [bind_apply, contentsReader, takeContents, StringTable.reader]
  cases StringTable.read s with
  | mk strings answer =>
    cases answer with
    | error e => rfl
    | ok s₁ =>
      simp only
      cases readSize s₁ with
      | error e => rfl
      | ok p =>
        obtain ⟨n, s₂⟩ := p
        simp only [modulesReader]
        cases fetchModules n { m with scopes := {}, modules := {}, strings } s₂ with
        | mk answer m =>
          cases answer with
          | error e => rfl
          | ok p =>
            obtain ⟨modules, s₃⟩ := p
            simp only [answered]
            cases readSize s₃ with
            | error e => rfl
            | ok p =>
              obtain ⟨k, s₄⟩ := p
              simp only [globalsReader]
              cases takeGlobals modules k m s₄ with
              | mk answer m => cases answer <;> rfl

/-- The contents of a state end by themselves. -/
theorem selfDelimiting_contentsReader (m : Machine) : SelfDelimiting (contentsReader m) := by
  rw [contentsReader_eq]
  refine StringTable.selfDelimiting_reader.bind fun strings => selfDelimiting_readSize.bind fun n => ?_
  refine (selfDelimiting_modulesReader n _).bind fun p => selfDelimiting_readSize.bind fun k => ?_
  exact (selfDelimiting_globalsReader p.1 k p.2).map _

/-- The header of a state ends by itself. -/
theorem selfDelimiting_readHeader : SelfDelimiting readHeader := by
  unfold readHeader
  refine (selfDelimiting_signature _).bind fun _ => selfDelimiting_word32.bind fun version => ?_
  split
  · exact .fail_bind _ _
  · exact selfDelimiting_readWord.bind fun limit => selfDelimiting_readWord.map _

/-- A saved state, as a reader of its header and of the machine that has its contents. -/
def stateReader (m : Machine) : Reader ((Word × Word) × Nat × Machine) :=
  readHeader >>= fun header => contentsReader m >>= fun p => Pure.pure (header, p)

/-- A state ends by itself. -/
theorem selfDelimiting_stateReader (m : Machine) : SelfDelimiting (stateReader m) :=
  selfDelimiting_readHeader.bind fun _ => (selfDelimiting_contentsReader m).map _

/-- Loading answers as the reader of saved states does, if the host adds nothing to them. -/
theorem load_fst {m : Machine} (hrest : m.executing = false)
    (hextra : m.hooks.has .loadExtra = false) (s : Bytes) :
    (m.load s).1 = match stateReader m s with
      | .ok (_, rest) => .ok rest
      | .error e => .error (.read e) := by
  unfold load
  rw [if_neg (by rw [hrest]; decide)]
  simp only [stateReader, bind_apply, contentsReader]
  cases readHeader s with
  | error e => rfl
  | ok p =>
    obtain ⟨⟨limit, rng⟩, s₁⟩ := p
    have hhooks : (m.takeContents s₁).2.hooks = m.hooks := by
      rw [takeContents_holding m s₁]
      rfl
    simp only
    cases htake : m.takeContents s₁ with
    | mk answer m₁ =>
      rw [htake] at hhooks
      cases answer with
      | error e => rfl
      | ok p =>
        have hnone : ¬ m₁.hooks.has .loadExtra = true := by
          rw [hhooks, hextra]
          decide
        simp only [answered, takeExtra, if_neg hnone]
        rfl

/-- **A saved state that was cut** is too short, wherever the cut falls within what is loaded. -/
theorem load_front {m : Machine} {front back rest : Bytes} (hrest : m.executing = false)
    (hextra : m.hooks.has .loadExtra = false) (hload : (m.load (front ++ back)).1 = .ok rest)
    (hback : rest.length < back.length) : (m.load front).1 = .error (.read .endOfStream) := by
  rw [load_fst hrest hextra] at hload
  cases hstate : stateReader m (front ++ back) with
  | error e =>
    rw [hstate] at hload
    cases hload
  | ok p =>
    rw [hstate] at hload
    cases hload
    rw [load_fst hrest hextra, (selfDelimiting_stateReader m).cut hstate hback]

/-! ## States whose threads can be read -/

/-- Every thread in the tree is legible. -/
def Legible (m : Machine) : Prop := ∀ id map, m.scopes.map? id = some map → map.Legible

/-- Threads that fit their places are legible. -/
theorem Intact.legible {m : Machine} (h : m.Intact) : m.Legible := by
  intro id map hmap s hs t ht
  obtain ⟨i, hi⟩ := List.getElem?_of_mem hs
  have hfits := h id map hmap i s hi t ht
  exact ⟨hfits.script, hfits.bases⟩

variable {sources : Nat → Bytes} {X Y : Machine}

/-- Global scopes are taken in if the threads in all of them are legible. -/
theorem judges_globalsReader {modules : List LoadedModule} {number σ : ModuleName → Nat}
    (hcount : modules.length < 2 ^ 64) {l : List (Word × GlobalScope)} (hsized : ∀ p ∈ l, p.2.Sized)
    (h : ∀ p ∈ l, ∀ q ∈ p.2.hubs.entries, ∀ k ∈ q.2.maps.entries, k.2.Enlisted modules number σ)
    (m : Machine) :
    Judges (globalsReader modules l.length m) (l.flatMap (GlobalScope.write number))
      (∀ p ∈ l, ∀ q ∈ p.2.hubs.entries, ∀ k ∈ q.2.maps.entries, k.2.Legible) fun _ => True := by
  induction l generalizing m with
  | nil => exact ⟨fun _ => ⟨m, trivial, .pure m⟩, fun hfalse => absurd (by simp) hfalse⟩
  | cons p l ih =>
    rw [List.length_cons, globalsReader_succ, List.flatMap_cons, List.forall_mem_cons]
    rw [List.forall_mem_cons] at hsized h
    exact (judges_global hcount hsized.1 h.1).bind fun a _ => ih hsized.2 h.2 _

/-- The contents of a saved machine are taken in if its threads are legible. -/
theorem judges_contentsReader (hX : Consistent sources X) (hsized : X.Sized)
    (hpolicy : Y.settings.unknownCode = X.settings.unknownCode) (htable : Y.codeTable = X.codeTable)
    (hbytes : ∀ name x, X.modules.find? name = some x → (Y.fetch name).1 = .ok (sources x.serial)) :
    Judges (contentsReader Y) (X.strings.write ++ (Writer.list ModuleName.write X.modules.keys ++
      Writer.list (GlobalScope.write X.moduleNumber) X.scopes.globals.entries)) X.Legible
      fun _ => True := by
  have hstrings : Reads StringTable.reader X.strings.write X.strings.reread := by
    intro rest
    rw [StringTable.reader, StringTable.read_write hX.strings hsized.strings]
  obtain ⟨Y₁, hfetch, -⟩ := fetchModules_stateBytes hX hsized hpolicy htable hbytes []
  have hmodules : Reads (modulesReader X.modules.size (emptied X Y))
      (X.modules.keys.flatMap ModuleName.write)
      (X.modules.entries.map fun p => p.2.recast (newSerial X Y), Y₁) := by
    apply (selfDelimiting_modulesReader _ _).reads
    rw [modulesReader, ← List.append_nil (X.modules.keys.flatMap ModuleName.write), hfetch]
    rfl
  have hkeys : X.modules.keys.length = X.modules.size := List.length_map ..
  have hlisted : (X.modules.entries.map fun p => p.2.recast (newSerial X Y)).length < 2 ^ 64 := by
    rw [List.length_map]
    exact hsized.count
  have henlisted : ∀ p ∈ X.scopes.globals.entries, ∀ q ∈ p.2.hubs.entries,
      ∀ k ∈ q.2.maps.entries, k.2.Enlisted
        (X.modules.entries.map fun p => p.2.recast (newSerial X Y)) X.moduleNumber (newSerial X Y) :=
    ScopeTree.forall_maps_iff.1 fun id map hmap =>
      ⟨hsized.scopes.map hmap, hX.led id map hmap, hX.listed hmap _⟩
  rw [contentsReader_eq, Writer.list, Writer.list, List.append_assoc, hkeys]
  refine hstrings.judges ((Varint.reads_size hsized.count).judges (hmodules.judges ?_))
  refine (Varint.reads_size hsized.scopes.count).judges (Judges.map (Q := fun _ => True) ?_ _ ?_)
  · have hglobals := judges_globalsReader hlisted
      (fun p hp => hsized.scopes.global p.2 (List.mem_map_of_mem hp)) henlisted Y₁
    rwa [← ScopeTree.forall_maps_iff (P := MapScope.Legible)] at hglobals
  · exact fun _ _ => trivial

/-- Reading a state judges where its bytes are cut, up to the first thread that is not legible. -/
theorem judges_stateReader (hX : Consistent sources X) (hsized : X.Sized)
    (hY : SuppliedBy sources X Y) :
    Judges (stateReader Y) X.stateBytes X.Legible fun _ => True := by
  have hpolicy : Y.settings.unknownCode = X.settings.unknownCode := by rw [← hY.settings]
  have hheader : Reads readHeader (stateSignature ++ (Writer.word32 stateVersion ++
      (Varint.writeWord X.settings.branchLimit ++ Varint.writeWord X.rng)))
      (X.settings.branchLimit, X.rng) := by
    intro rest
    simpa only [List.append_assoc] using readHeader_write X.settings.branchLimit X.rng rest
  have hcontents := judges_contentsReader hX hsized hpolicy hY.codeTable hY.fetch
  have hstate : Judges (stateReader Y) _ X.Legible fun _ => True :=
    hheader.judges (f := fun header => contentsReader Y >>= fun p => Pure.pure (header, p))
      (hcontents.map _ fun _ _ => trivial)
  simpa only [stateBytes, List.append_assoc] using hstate

/-- Every cut of a saved state is noticed as one if and only if every thread is legible. -/
theorem load_front_iff (hX : Consistent sources X) (hsized : X.Sized) (hY : SuppliedBy sources X Y) :
    (∀ front back, X.stateBytes = front ++ back → back ≠ [] →
      (Y.load front).1 = .error (.read .endOfStream)) ↔ X.Legible := by
  have hjudges := judges_stateReader hX hsized hY
  constructor
  · intro hcuts
    by_contra hillegible
    obtain ⟨front, back, d, hbytes, hback, herror⟩ := hjudges.refuses hillegible
    have hfront := hcuts front back hbytes hback
    rw [load_fst hY.resting hY.noExtra, ← List.append_nil front, herror] at hfront
    cases hfront
  · intro hlegible front back hbytes hback
    obtain ⟨a, -, hreads⟩ := hjudges.takes hlegible
    have hwhole := hreads []
    rw [List.append_nil, hbytes] at hwhole
    have hload : (Y.load (front ++ back)).1 = .ok [] := by rw [load_fst hY.resting hY.noExtra, hwhole]
    exact load_front hY.resting hY.noExtra hload (List.length_pos_iff.2 hback)

/-- **Cuts are noticed.**  Whatever bytes a module is loaded from, any that are cut off at the end are
missed, and any behind the end are refused.  Of the saved state of a machine every cut is noticed as
one, by every machine that is set up alike, if and only if every thread of the saved machine is
legible.  All threads are where the loaded states on the way were coherent and the thread ids of no
map went round. -/
theorem Reached.truncation_detected {L : Machine → Prop} (hreached : Reached sources L X)
    (hrest : X.executing = false) (hextra : X.hooks.has .saveExtra = false) (hsized : X.Sized)
    (hY : SuppliedBy sources X Y) :
    (∀ name data table policy t x u, Module.load name data table policy t = .ok (x, u) →
      (∀ front back, data = front ++ back → back ≠ [] → ∀ name' t',
        Module.load name' front table policy t' = .error .endOfStream) ∧
      ∀ more, more ≠ [] → ∀ name' t',
        Module.load name' (data ++ more) table policy t' = .error (.malformed .trailingBytes)) ∧
    X.save.1 = .ok X.stateBytes ∧
    ((∀ front back, X.stateBytes = front ++ back → back ≠ [] →
      (Y.load front).1 = .error (.read .endOfStream)) ↔ X.Legible) ∧
    ((∀ m, L m → m.Coherent) → ¬ X.Exhausted → X.Legible) := by
  refine ⟨?_, save_eq hrest hextra, load_front_iff hreached.consistent hsized hY, ?_⟩
  · intro name data table policy t x u hload
    constructor
    · intro front back hcut hback name' t'
      exact Module.load_front hload hcut hback
    · intro more hmore name' t'
      exact Module.load_append hload hmore
  · intro hL hfresh
    exact (hreached.intact hL hfresh).legible

/-- The sleeping machine can be saved, and a new machine is set up like it. -/
theorem savable_sleepingMachine :
    sleepingMachine.executing = false ∧ sleepingMachine.hooks.has .saveExtra = false ∧
      sleepingMachine.Sized ∧
      { smallMachine.settings with branchLimit := sleepingMachine.settings.branchLimit } =
        sleepingMachine.settings ∧
      smallMachine.codeTable = sleepingMachine.codeTable ∧
      ∀ e ∈ sleepingMachine.trace, logEnd? e ≠ some '5' := by decide +kernel

/-- The ids of the sleeping machine did not go round. -/
theorem not_exhausted_sleepingMachine : ¬ sleepingMachine.Exhausted :=
  not_exhausted_of_logEnd? savable_sleepingMachine.2.2.2.2.2

/-- The machine gets the bytes of the unit for every name. -/
theorem suppliedBy_fetchingMachine :
    SuppliedBy (fun _ => sleepingUnit.write) sleepingMachine fetchingMachine := by
  obtain ⟨-, -, -, hsettings, htable, -⟩ := savable_sleepingMachine
  exact ⟨hsettings, htable, fun _ _ _ => rfl, rfl, by decide⟩

/-- The state with the sleeping thread is too short without its last byte, and so is its unit; behind
the unit nothing may follow. -/
theorem Reached.truncation_detected_sleeping :
    Reached (fun _ => sleepingUnit.write) (fun _ => False) sleepingMachine ∧
      sleepingMachine.Sized ∧ ¬ sleepingMachine.Exhausted ∧
      SuppliedBy (fun _ => sleepingUnit.write) sleepingMachine fetchingMachine ∧
      (fetchingMachine.load sleepingMachine.stateBytes.dropLast).1 = .error (.read .endOfStream) ∧
      Module.load { name := "late" } sleepingUnit.write.dropLast .standard .trap {} =
        .error .endOfStream ∧
      Module.load { name := "late" } (sleepingUnit.write ++ [7]) .standard .trap {} =
        .error (.malformed .trailingBytes) := by
  obtain ⟨hrest, hextra, hsized, -⟩ := savable_sleepingMachine
  obtain ⟨hunits, -, hcuts, hlegible⟩ := Reached.truncation_detected reached_sleepingMachine hrest
    hextra hsized suppliedBy_fetchingMachine
  have hlast : ∀ {s : Bytes} (hs : s ≠ []), s = s.dropLast ++ [s.getLast hs] := fun hs =>
    (List.dropLast_concat_getLast hs).symm
  have hstate : sleepingMachine.stateBytes ≠ [] := by simp [stateBytes, stateSignature]
  have hcut := hcuts.2 (hlegible (fun _ h => h.elim) not_exhausted_sleepingMachine) _ _ (hlast hstate)
    (List.cons_ne_nil _ _)
  obtain ⟨x, u, hload⟩ : ∃ x u,
      Module.load { name := "sleeping" } sleepingUnit.write .standard .trap {} = .ok (x, u) := by
    have hok : (Module.load { name := "sleeping" } sleepingUnit.write .standard .trap {}).toOption.isSome =
        true := by decide +kernel
    cases h : Module.load { name := "sleeping" } sleepingUnit.write .standard .trap {} with
    | error e =>
      rw [h] at hok
      cases hok
    | ok p => exact ⟨p.1, p.2, rfl⟩
  obtain ⟨hfront, hmore⟩ := hunits _ _ _ _ _ x u hload
  have hunit : sleepingUnit.write ≠ [] := by decide
  exact ⟨reached_sleepingMachine, hsized, not_exhausted_sleepingMachine, suppliedBy_fetchingMachine,
    hcut, hfront _ _ (hlast hunit) (List.cons_ne_nil _ _) _ _, hmore [7] (List.cons_ne_nil _ _) _ _⟩

end Machine

end ScriptMachine
