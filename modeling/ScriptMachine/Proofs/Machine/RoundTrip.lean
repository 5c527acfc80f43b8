import ScriptMachine.Proofs.Machine.Coherence

/-!
# Saved machines come back

A saved state that is loaded into a machine which can fetch the same modules brings back the branch
limit, the generator, the strings, the modules and the scopes (`Machine.Matches`), and takes exactly
the bytes that were saved.  This needs that every thread fits its place, and nothing else
(`load_stateBytes`).  The modules are fetched anew, which interns and locks their strings in the table
just read; the strings are found where they were because the table names every content once for each
look-up, and the locks are set back.
-/

namespace ScriptMachine.Machine

open Reader

variable {sources : Nat → Bytes} {σ : ModuleName → Nat} {m m' : Machine}

/-! ## Fetching modules again -/

/-- A module that stands is loaded as it was, but for its serial number. -/
theorem getModule_of_stands {name : ModuleName} {x : Module} {data : Bytes}
    (hnew : m.modules.find? name = none) (hfetch : (m.fetch name).1 = .ok data) (hname : x.name = name)
    (hstands : x.Stands m.strings ⟨data, m.codeTable, m.settings.unknownCode⟩) :
    ∃ m', m.getModule name = (.ok { x with serial := m.nextSerial }, m') ∧ Grows m m' ∧
      StringTable.SameStrings m.strings m'.strings ∧
      m'.modules = m.modules.insert name { x with serial := m.nextSerial } ∧
      m'.nextSerial = m.nextSerial + 1 := by
  obtain ⟨t, hload, hsame⟩ := hstands.load
  rw [hname] at hload
  cases hget : m.getModule name with
  | mk r m' =>
    obtain ⟨hgrows, hcases⟩ := getModule_cases hnew hget
    rcases hcases with ⟨e, -, herror, -⟩ | ⟨data', y, hdata, rfl, hr⟩
    · cases (herror data hfetch).symm.trans hload
    · cases hfetch.symm.trans hdata
      have hresult := Except.ok.inj (hr.load.symm.trans hload)
      obtain ⟨y, serial⟩ := y
      cases hr.serial
      cases congrArg Prod.fst hresult
      refine ⟨m', rfl, hgrows, ?_, hr.modules, hr.nextSerial⟩
      rw [show m'.strings = t from congrArg Prod.snd hresult]
      exact hsame

/-- **Fetching** the modules of a machine by their names loads all of them again. -/
theorem fetchModules_write {l : List (ModuleName × LoadedModule)}
    (hsized : ∀ p ∈ l, p.1.Sized) (hname : ∀ p ∈ l, p.2.name = p.1)
    (hstands : ∀ p ∈ l, p.2.toModule.Stands m.strings
      ⟨sources p.2.serial, m.codeTable, m.settings.unknownCode⟩)
    (hfetch : ∀ p ∈ l, (m.fetch p.1).1 = .ok (sources p.2.serial))
    (hnew : ∀ p ∈ l, m.modules.find? p.1 = none) (hnodup : (l.map Prod.fst).Nodup)
    (hσ : ∀ k p, l[k]? = some p → σ p.1 = m.nextSerial + k) (hm : m.strings.Wellformed)
    (rest : Bytes) :
    ∃ m', fetchModules l.length m (l.flatMap (fun p => p.1.write) ++ rest) =
        (.ok (l.map fun p => p.2.recast σ, rest), m') ∧ Grows m m' ∧
      StringTable.SameStrings m.strings m'.strings ∧
      m'.modules = l.foldl (fun ms p => ms.insert p.1 (p.2.recast σ)) m.modules := by
  induction l generalizing m with
  | nil => exact ⟨m, rfl, .refl m, .refl _, rfl⟩
  | cons p l ih =>
    have hmem : p ∈ p :: l := List.mem_cons_self
    obtain ⟨m₁, hget, hgrows, hsame, hmodules, hserial⟩ := getModule_of_stands (hnew p hmem)
      (hfetch p hmem) (hname p hmem) (hstands p hmem)
    have hrecast : { p.2.toModule with serial := m.nextSerial } = p.2.recast σ := by
      have h0 := hσ 0 p rfl
      rw [LoadedModule.recast, hname p hmem, h0]
      rfl
    rw [hrecast] at hget hmodules
    rw [List.map_cons, List.nodup_cons] at hnodup
    have hne : ∀ q ∈ l, q.1 ≠ p.1 := fun q hq h => hnodup.1 (h ▸ List.mem_map_of_mem hq)
    obtain ⟨m₂, hrest, hgrows', hsame', hmodules'⟩ := ih (m := m₁)
      (fun q hq => hsized q (List.mem_cons_of_mem _ hq))
      (fun q hq => hname q (List.mem_cons_of_mem _ hq))
      (fun q hq => by
        rw [hgrows.codeTable, hgrows.settings]
        exact (hstands q (List.mem_cons_of_mem _ hq)).keeps hm (.of_same hsame))
      (fun q hq => by
        rw [fetch_congr hgrows.sources hgrows.hooks]
        exact hfetch q (List.mem_cons_of_mem _ hq))
      (fun q hq => by
        rw [hmodules, OrdMap.find?_insert, if_neg]
        · exact hnew q (List.mem_cons_of_mem _ hq)
        · exact fun h => hne q hq (Std.LawfulEqOrd.compare_eq_iff_eq.1 h))
      hnodup.2
      (fun k q hq => by
        have hk := hσ (k + 1) q (by simpa using hq)
        rw [hserial, hk]
        omega)
      (hsame.wellformed hm)
    refine ⟨m₂, ?_, hgrows.trans hgrows', hsame.trans hsame', ?_⟩
    · have hread := reads_moduleName (hsized p hmem) (l.flatMap (fun p => p.1.write) ++ rest)
      rw [List.flatMap_cons, List.append_assoc, List.length_cons, fetchModules, hread]
      simp only [hget, hrest]
      rfl
    · rw [hmodules', hmodules]
      rfl

/-! ## Taking in the scopes -/

/-- Global scopes that can be read are taken in one after another. -/
theorem takeGlobals_write {modules : List LoadedModule} {number : ModuleName → Nat}
    {f : GlobalScope → GlobalScope} {l : List (Word × GlobalScope)}
    (h : ∀ p ∈ l, Reads (GlobalScope.read modules) (GlobalScope.write number p) (p.1, f p.2))
    (rest : Bytes) :
    takeGlobals modules l.length m (l.flatMap (GlobalScope.write number) ++ rest) =
      (.ok rest, { m with scopes :=
        ⟨(l.map fun p => (p.1, f p.2)).foldl (fun gs p => gs.insert p.1 p.2) m.scopes.globals⟩ }) := by
  induction l generalizing m with
  | nil => rfl
  | cons p l ih =>
    have hread := h p List.mem_cons_self (l.flatMap (GlobalScope.write number) ++ rest)
    rw [List.flatMap_cons, List.append_assoc, List.length_cons, takeGlobals, hread]
    exact ih fun q hq => h q (List.mem_cons_of_mem _ hq)

/-- A walk over the entries of a map rebuilds it, with the values changed. -/
theorem foldl_insert_entries {κ α β : Type} [Ord κ] [Std.TransOrd κ] [Std.LawfulEqOrd κ] (f : α → β)
    (ms : OrdMap κ α) :
    (ms.entries.map fun p => (p.1, f p.2)).foldl (fun gs p => gs.insert p.1 p.2) {} =
      ms.mapValues f :=
  OrdMap.ofList_entries (ms.mapValues f)

/-! ## Saved machines -/

/-- The counts of a machine fit the format. -/
@[mk_iff]
structure Sized (m : Machine) : Prop where
  strings : m.strings.Sized
  count : m.modules.size < 2 ^ 64
  name : ∀ name ∈ m.modules.keys, name.Sized
  scopes : m.scopes.Sized

instance (m : Machine) : Decidable m.Sized := decidable_of_iff _ m.sized_iff.symm

/-- The machine `Y` has the settings and code table of `X`, and gets for each module of `X` the bytes
it was loaded from.  It is at rest, and the host adds nothing to saved states. -/
structure SuppliedBy (sources : Nat → Bytes) (X Y : Machine) : Prop where
  settings : { Y.settings with branchLimit := X.settings.branchLimit } = X.settings
  codeTable : Y.codeTable = X.codeTable
  fetch : ∀ name x, X.modules.find? name = some x → (Y.fetch name).1 = .ok (sources x.serial)
  resting : Y.executing = false
  noExtra : Y.hooks.has .loadExtra = false

/-- The machine `Y` has what a saved state of `X` holds: the branch limit, the generator, every
string slot but for marks, the modules with their code, and the tree of scopes.  Serial numbers of
modules and the ticks noted with threads are not saved. -/
structure Matches (X Y : Machine) : Prop where
  settings : Y.settings = X.settings
  rng : Y.rng = X.rng
  strings : StringTable.Alike X.strings Y.strings
  modules : Y.modules.mapValues (·.toModule) = X.modules.mapValues (·.toModule)
  scopes : Y.scopes.recast (fun _ => 0) (fun _ => 0) = X.scopes.recast (fun _ => 0) fun _ => 0

variable {X Y : Machine}

/-- The number of a registered module is its place in the registry. -/
theorem getElem?_moduleNumber {name : ModuleName} {x : LoadedModule}
    (h : X.modules.find? name = some x) :
    X.modules.entries[X.moduleNumber name]? = some (name, x) := by
  have hmem : name ∈ X.modules.keys := OrdMap.mem_keys.2 (by rw [h]; rfl)
  obtain ⟨k, hk⟩ := List.getElem?_of_mem hmem
  have hlt : k < X.modules.keys.length := (List.getElem?_eq_some_iff.1 hk).1
  have hidx : X.modules.keys.idxOf? name = some k := by
    have hname : X.modules.keys[k] = name := (List.getElem?_eq_some_iff.1 hk).2
    rw [List.idxOf?_eq_some_iff]
    refine ⟨hlt, by simp [hname], fun j hj heq => ?_⟩
    have hjk := (List.getElem?_inj (Nat.lt_trans hj hlt) (OrdMap.nodup_keys X.modules)).1
      ((List.getElem?_eq_some_iff.2 ⟨Nat.lt_trans hj hlt, by simpa using heq⟩).trans hk.symm)
    omega
  rw [moduleNumber, hidx, Option.getD_some]
  rw [OrdMap.keys, List.getElem?_map] at hk
  obtain ⟨p, hp, hname⟩ := Option.map_eq_some_iff.1 hk
  have hfind : X.modules.find? p.1 = some p.2 := OrdMap.mem_entries.1 (List.mem_of_getElem? hp)
  rw [hname, h] at hfind
  cases hfind
  rw [hp, ← hname]

/-- A module has the number of its place in the registry. -/
theorem moduleNumber_of_getElem? {k : Nat} {p : ModuleName × LoadedModule}
    (h : X.modules.entries[k]? = some p) : X.moduleNumber p.1 = k := by
  have hfind : X.modules.find? p.1 = some p.2 := OrdMap.mem_entries.1 (List.mem_of_getElem? h)
  have hkey : ∀ {n : Nat}, X.modules.entries[n]? = some p → X.modules.keys[n]? = some p.1 := by
    intro n hn
    rw [OrdMap.keys, List.getElem?_map, hn]
    rfl
  have hnumber := hkey (getElem?_moduleNumber hfind)
  exact (List.getElem?_inj (List.getElem?_eq_some_iff.1 hnumber).1 (OrdMap.nodup_keys X.modules)).1
    (hnumber.trans (hkey h).symm)

/-- The serial numbers that the modules of `X` get when `Y` fetches them. -/
def newSerial (X Y : Machine) (name : ModuleName) : Nat := Y.nextSerial + X.moduleNumber name

/-- The machine into whose place the modules of `X` are fetched: it has the strings of `X` as they were
saved. -/
def emptied (X Y : Machine) : Machine :=
  { Y with scopes := {}, modules := {}, strings := X.strings.reread }

/-- **The modules come back**: they are fetched as they are, but for their serial numbers. -/
theorem fetchModules_stateBytes (hX : Consistent sources X) (hsized : X.Sized)
    (hpolicy : Y.settings.unknownCode = X.settings.unknownCode) (htable : Y.codeTable = X.codeTable)
    (hbytes : ∀ name x, X.modules.find? name = some x → (Y.fetch name).1 = .ok (sources x.serial))
    (rest : Bytes) :
    ∃ Y', fetchModules X.modules.size (emptied X Y) (X.modules.keys.flatMap ModuleName.write ++ rest) =
        (.ok (X.modules.entries.map fun p => p.2.recast (newSerial X Y), rest), Y') ∧
      Grows (emptied X Y) Y' ∧ StringTable.SameStrings X.strings.reread Y'.strings ∧
      Y'.modules = X.modules.mapValues (LoadedModule.recast (newSerial X Y)) := by
  have hentry : ∀ p ∈ X.modules.entries, X.modules.find? p.1 = some p.2 := fun p hp =>
    OrdMap.mem_entries.1 hp
  have hwf : X.strings.reread.Wellformed :=
    StringTable.wellformed_of_read (StringTable.read_write hX.strings hsized.strings [])
  have hstands : ∀ p ∈ X.modules.entries, p.2.toModule.Stands X.strings.reread
      ⟨sources p.2.serial, Y.codeTable, Y.settings.unknownCode⟩ := by
    intro p hp
    have hstands := (hX.modules p.1 p.2 (hentry p hp)).2
    rw [← htable, ← hpolicy] at hstands
    exact hstands.keeps hX.strings ((StringTable.alike_reread hX.strings).keeps hwf)
  have hfetched : ∀ p ∈ X.modules.entries, ((emptied X Y).fetch p.1).1 = .ok (sources p.2.serial) := by
    intro p hp
    have hsame : ∀ name, ((emptied X Y).fetch name).1 = (Y.fetch name).1 := fetch_congr rfl rfl
    exact (hsame p.1).trans (hbytes p.1 p.2 (hentry p hp))
  obtain ⟨Y', hfetch, hgrows, hsame, hmodules⟩ := fetchModules_write (σ := newSerial X Y)
    (m := emptied X Y) (fun p hp => hsized.name p.1 (List.mem_map_of_mem hp))
    (fun p hp => (hX.modules p.1 p.2 (hentry p hp)).1) hstands hfetched (fun p hp => rfl)
    (OrdMap.nodup_keys X.modules)
    (fun k p hp => by
      rw [newSerial, moduleNumber_of_getElem? hp]
      rfl)
    hwf rest
  have hkeys : X.modules.keys.flatMap ModuleName.write =
      X.modules.entries.flatMap fun p => p.1.write := List.flatMap_map ..
  refine ⟨Y', ?_, hgrows, hsame, ?_⟩
  · rw [hkeys]
    exact hfetch
  · rw [hmodules, ← foldl_insert_entries, List.foldl_map]
    rfl

/-- Every module of a map stands in the list of fetched modules under its number. -/
theorem Consistent.listed (hX : Consistent sources X) {id : ScopeId} {map : MapScope}
    (hmap : X.scopes.map? id = some map) (σ : ModuleName → Nat) :
    ∀ s ∈ map.modules, Listed (X.modules.entries.map fun p => p.2.recast σ) X.moduleNumber σ
      s.module := by
  intro s hs
  rw [Listed, List.getElem?_map, getElem?_moduleNumber (hX.places id map hmap s hs)]
  rfl

/-- **The contents come back**: strings, modules and scopes. -/
theorem takeContents_write (hX : Consistent sources X) (hsized : X.Sized) (hintact : X.Intact)
    (hpolicy : Y.settings.unknownCode = X.settings.unknownCode) (htable : Y.codeTable = X.codeTable)
    (hbytes : ∀ name x, X.modules.find? name = some x → (Y.fetch name).1 = .ok (sources x.serial))
    (tail : Bytes) :
    ∃ Y', Y.takeContents (X.strings.write ++ (Writer.list ModuleName.write X.modules.keys ++
        (Writer.list (GlobalScope.write X.moduleNumber) X.scopes.globals.entries ++ tail))) =
        (.ok (X.modules.size, tail), Y') ∧
      Y'.settings = Y.settings ∧ Y'.hooks = Y.hooks ∧ StringTable.Alike X.strings Y'.strings ∧
      Y'.strings.Wellformed ∧ Y'.modules = X.modules.mapValues (LoadedModule.recast (newSerial X Y)) ∧
      Y'.scopes = X.scopes.recast (newSerial X Y) fun _ => 0 := by
  have hwf : X.strings.reread.Wellformed :=
    StringTable.wellformed_of_read (StringTable.read_write hX.strings hsized.strings [])
  -- the modules are fetched as they are in `X`
  obtain ⟨Y₂, hfetch, hgrows, hsame, hregistry⟩ := fetchModules_stateBytes hX hsized hpolicy htable
    hbytes (Writer.list (GlobalScope.write X.moduleNumber) X.scopes.globals.entries ++ tail)
  -- every map can be read with these modules
  have hwritable : ∀ id map, X.scopes.map? id = some map → map.Writable
      (X.modules.entries.map fun p => p.2.recast (newSerial X Y)) X.moduleNumber (newSerial X Y) id :=
    fun id map hmap => ⟨hsized.scopes.map hmap, hintact id map hmap, hX.led id map hmap,
      hX.listed hmap _⟩
  have hcount : (X.modules.entries.map fun p => p.2.recast (newSerial X Y)).length < 2 ^ 64 := by
    rw [List.length_map]
    exact hsized.count
  have htree := takeGlobals_write (m := Y₂)
    (fun p hp => hsized.scopes.reads hcount hwritable hp) tail
  rw [hgrows.scopes, show (emptied X Y).scopes.globals = {} from rfl, foldl_insert_entries] at htree
  refine ⟨{ Y₂ with
    scopes := X.scopes.recast (newSerial X Y) fun _ => 0
    strings := Y₂.strings.restoreLocks X.strings.reread.lockCounts }, ?_, hgrows.settings,
    hgrows.hooks, ?_, ?_, hregistry, rfl⟩
  · have hstrings := StringTable.read_write hX.strings hsized.strings
      (Writer.list ModuleName.write X.modules.keys ++
        (Writer.list (GlobalScope.write X.moduleNumber) X.scopes.globals.entries ++ tail))
    have hsize : ∀ rest, Varint.readSize (Varint.write X.modules.size ++ rest) =
        .ok (X.modules.size, rest) := Varint.reads_size hsized.count
    have hglobals : ∀ rest, Varint.readSize
        (Varint.write X.scopes.globals.entries.length ++ rest) =
        .ok (X.scopes.globals.entries.length, rest) := Varint.reads_size hsized.scopes.count
    have hlen : X.modules.keys.length = X.modules.size := List.length_map ..
    simp only [emptied] at hfetch
    unfold takeContents
    simp only [hstrings]
    rw [Writer.list, hlen, List.append_assoc, hsize]
    simp only [hfetch]
    rw [Writer.list, List.append_assoc, hglobals]
    simp only [htree, List.length_map]
    rfl
  · exact (StringTable.alike_reread hX.strings).trans (StringTable.alike_restoreLocks hwf hsame)
  · exact (hsame.trans (StringTable.sameStrings_restoreLocks ..)).wellformed hwf

/-- The header comes back. -/
theorem readHeader_write (limit rng : Word) (rest : Bytes) :
    readHeader (stateSignature ++ (Writer.word32 stateVersion ++ (Varint.writeWord limit ++
      (Varint.writeWord rng ++ rest)))) = .ok ((limit, rng), rest) := by
  have hsignature : ∀ rest, signature stateSignature (stateSignature ++ rest) = .ok ((), rest) :=
    reads_signature rfl
  have hversion := fun rest => reads_word32 stateVersion rest
  have hw := fun w rest => Varint.reads_writeWord w rest
  simp only [readHeader, bind_apply, hsignature, hversion, ne_eq, not_true, if_false, pure_apply, hw]

/-- A machine whose threads fit their places comes back. -/
theorem load_of_intact (hX : Consistent sources X) (hsized : X.Sized) (hintact : X.Intact)
    (hY : SuppliedBy sources X Y) (tail : Bytes) :
    ∃ Y', Y.load (X.stateBytes ++ tail) = (.ok tail, Y') ∧ Matches X Y' := by
  have hpolicy : Y.settings.unknownCode = X.settings.unknownCode := by
    rw [← hY.settings]
  obtain ⟨Y₁, htake, hsettings, hhooks, hstrings, -, hmodules, hscopes⟩ :=
    takeContents_write hX hsized hintact hpolicy hY.codeTable hY.fetch tail
  have hextra : ∀ limit rng s, takeExtra
      { Y₁ with settings := { Y₁.settings with branchLimit := limit }, rng := rng } s =
      (.ok s, { Y₁ with settings := { Y₁.settings with branchLimit := limit }, rng := rng }) := by
    intro limit rng s
    have hnone : ¬ Y₁.hooks.has .loadExtra = true := by rw [hhooks, hY.noExtra]; decide
    exact if_neg hnone
  let Y₂ : Machine := { Y₁ with
    settings := { Y₁.settings with branchLimit := X.settings.branchLimit }
    rng := X.rng }
  have hload : Y.load (X.stateBytes ++ tail) = (.ok tail, Y₂.log .debug
      s!"loaded state: {X.modules.size} modules, {Y₂.strings.size} strings") := by
    unfold load
    rw [if_neg (by rw [hY.resting]; decide)]
    simp only [stateBytes, List.append_assoc, readHeader_write, htake, hextra]
    rfl
  refine ⟨_, hload, ⟨?_, rfl, hstrings, ?_, ?_⟩⟩
  · rw [← hY.settings, ← hsettings]
    rfl
  · have hsame : Y₁.modules.mapValues (·.toModule) = X.modules.mapValues (·.toModule) := by
      rw [hmodules, OrdMap.mapValues_mapValues]
      rfl
    exact hsame
  · have hsame : Y₁.scopes.recast (fun _ => 0) (fun _ => 0) =
        X.scopes.recast (fun _ => 0) fun _ => 0 := by
      rw [hscopes, ScopeTree.recast_recast]
    exact hsame

/-- Threads that fit their places in a machine fit them in every machine that matches it. -/
theorem Matches.intact (h : Matches X Y) (hY : Y.Intact) : X.Intact := by
  intro id map hmap
  have hsame : (Y.scopes.map? id).map (MapScope.recast (fun _ => 0) fun _ => 0) =
      (X.scopes.map? id).map (MapScope.recast (fun _ => 0) fun _ => 0) := by
    rw [← ScopeTree.map?_recast, ← ScopeTree.map?_recast, h.scopes]
  rw [hmap, Option.map_some] at hsame
  obtain ⟨map', hmap', heq⟩ := Option.map_eq_some_iff.1 hsame
  have hintact := (hY id map' hmap').recast (fun _ => 0) fun _ => 0
  rw [heq] at hintact
  exact hintact.of_recast

/-- Every machine that a state was loaded into has its threads in places that fit them. -/
theorem intact_of_load {s rest : Bytes} (h : Y.load s = (.ok rest, m')) : m'.Intact := by
  obtain ⟨strings, modules, m₁, hl⟩ := exists_loaded h
  exact fun id map hmap => (hl.scopes id map hmap).intact

/-- A machine at rest saves its state, where the host adds nothing. -/
theorem save_eq (hrest : X.executing = false) (hextra : X.hooks.has .saveExtra = false) :
    X.save.1 = .ok X.stateBytes := by
  unfold save
  rw [if_neg (by rw [hrest]; decide)]
  simp only
  rw [if_neg (by rw [hextra]; decide), List.append_nil]

/-- **Saving and loading.**  A machine at rest is saved.  Its state, with any bytes behind it, is
loaded back as far as it goes, and gives a machine that matches, if and only if every thread of the
saved machine fits its place.  All threads do where the loaded states on the way were coherent, with
bases of every frame within the locals and no thread id twice, and the thread ids of no map went
round. -/
theorem load_save {L : Machine → Prop} (hreached : Reached sources L X) (hrest : X.executing = false)
    (hextra : X.hooks.has .saveExtra = false) (hsized : X.Sized) (hY : SuppliedBy sources X Y)
    (tail : Bytes) :
    X.save.1 = .ok X.stateBytes ∧
      ((∃ Y', Y.load (X.stateBytes ++ tail) = (.ok tail, Y') ∧ Matches X Y') ↔ X.Intact) ∧
      ((∀ m, L m → m.Coherent) → ¬ X.Exhausted → X.Intact) := by
  refine ⟨save_eq hrest hextra, ⟨?_, ?_⟩, fun hL hfresh => hreached.intact hL hfresh⟩
  · rintro ⟨Y', hload, hmatches⟩
    exact hmatches.intact (intact_of_load hload)
  · exact fun hintact => load_of_intact hreached.consistent hsized hintact hY tail

/-- A unit with a string, and a script that pushes it and sleeps. -/
def sleepingUnit : Bytecode where
  regCount := 1
  arrCount := 0
  strings := [[104, 105]]
  functions := []
  scripts := [{
    name := .number 1, type := 0, flags := 0, argCount := 0, regCount := 1, arrCount := 0
    entry := 0 }]
  code := [100, 0, 6, 5, 2]

/-- A new machine with few variables. -/
def smallMachine : Machine := make { scopeRegCount := 1, scopeArrCount := 0 }

/-- The machine with the unit loaded. -/
def suppliedMachine : Machine :=
  (smallMachine.loadModule { name := "sleeping" } sleepingUnit.write).2

/-- The unit is added to a map. -/
def addedMachine : Machine := (suppliedMachine.addNamed {} [{ name := "sleeping" }]).2

/-- Its script is started, so that there is a thread that had no turn yet. -/
def startedMachine : Machine := (addedMachine.serve (.start {} (.number 1) [] {})).2

/-- The machine with the thread asleep. -/
def sleepingMachine : Machine := (startedMachine.exec quietHost 9).getD startedMachine

/-- A new machine whose host has the bytes of the unit. -/
def fetchingMachine : Machine :=
  { smallMachine with hooks :=
      { installed := [.loadModule], loadModule := fun _ => .ok sleepingUnit.write } }

/-- How the machine with the unit comes about. -/
theorem reached_suppliedMachine {L : Machine → Prop} :
    Reached (fun _ => sleepingUnit.write) L suppliedMachine :=
  (Reached.make _).operate (.loading rfl
    (by decide +kernel : suppliedMachine.strings.capacity < UInt32.size) fun _ _ _ => rfl)

/-- How the machine with the script started comes about. -/
theorem reached_startedMachine {L : Machine → Prop} :
    Reached (fun _ => sleepingUnit.write) L startedMachine :=
  (reached_suppliedMachine.addNamed {} _).operate (.asking rfl
    (by decide +kernel : startedMachine.strings.capacity < UInt32.size))

/-- How the machine with the thread asleep comes about. -/
theorem reached_sleepingMachine :
    Reached (fun _ => sleepingUnit.write) (fun _ => False) sleepingMachine := by
  have hruns : (startedMachine.exec quietHost 9).isSome = true := by decide +kernel
  obtain ⟨m, hm⟩ := Option.isSome_iff_exists.1 hruns
  have hexec : startedMachine.exec quietHost 9 = some sleepingMachine := by
    rw [sleepingMachine, hm, Option.getD_some]
  exact reached_startedMachine.exec (obeys_quietHost _) hexec

/-- The message that the last id was given away ends with its last digit. -/
theorem getLast?_startText (shown place : String) :
    (startText shown place 0xFFFFFFFF).toList.getLast? = some '5' := by
  have hdigits : (toString (0xFFFFFFFF : Word)).toList.getLast? = some '5' := by decide +kernel
  have happend : ∀ s n : String, n.toList.getLast? = some '5' →
      (s ++ n).toList.getLast? = some '5' := by
    intro s n hn
    rw [String.toList_append, List.getLast?_append, hn]
    rfl
  exact happend _ _ hdigits

/-- How a message in the log ends. -/
def logEnd? : Event → Option Char
  | .log _ text => text.toList.getLast?
  | _ => none

/-- Where no message ends as the last id does, no map has given it away. -/
theorem not_exhausted_of_logEnd? {m : Machine} (h : ∀ e ∈ m.trace, logEnd? e ≠ some '5') :
    ¬ m.Exhausted := by
  rintro ⟨shown, place, hmem⟩
  exact h _ hmem (getLast?_startText shown place)

/-- The sleeping thread comes back, and a byte behind the saved state is left. -/
theorem load_save_sleeping :
    Reached (fun _ => sleepingUnit.write) (fun _ => False) sleepingMachine ∧
      sleepingMachine.Sized ∧ ¬ sleepingMachine.Exhausted ∧
      SuppliedBy (fun _ => sleepingUnit.write) sleepingMachine fetchingMachine ∧
      sleepingMachine.save.1 = .ok sleepingMachine.stateBytes ∧
      ∃ Y', fetchingMachine.load (sleepingMachine.stateBytes ++ [7]) = (.ok [7], Y') ∧
        Matches sleepingMachine Y' := by
  obtain ⟨hrest, hextra, hsized, hsettings, htable, hlast⟩ :
      sleepingMachine.executing = false ∧ sleepingMachine.hooks.has .saveExtra = false ∧
      sleepingMachine.Sized ∧
      { smallMachine.settings with branchLimit := sleepingMachine.settings.branchLimit } =
        sleepingMachine.settings ∧
      smallMachine.codeTable = sleepingMachine.codeTable ∧
      ∀ e ∈ sleepingMachine.trace, logEnd? e ≠ some '5' := by decide +kernel
  have hfresh : ¬ sleepingMachine.Exhausted := not_exhausted_of_logEnd? hlast
  have hsupplied : SuppliedBy (fun _ => sleepingUnit.write) sleepingMachine fetchingMachine :=
    ⟨hsettings, htable, fun _ _ _ => rfl, rfl, by decide⟩
  obtain ⟨hsave, hload, hintact⟩ := load_save reached_sleepingMachine hrest hextra hsized
    hsupplied [7]
  exact ⟨reached_sleepingMachine, hsized, hfresh, hsupplied, hsave,
    hload.2 (hintact (fun _ h => h.elim) hfresh)⟩

end ScriptMachine.Machine
