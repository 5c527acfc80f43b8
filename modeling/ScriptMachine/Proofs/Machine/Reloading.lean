import ScriptMachine.Proofs.Machine.Managed
import ScriptMachine.Proofs.Machine.ViewRequests
import ScriptMachine.Proofs.Machine.ViewTicks

/-!
# A loaded machine goes on like the saved one

The host asks a machine for things, runs ticks and starts scripts for their result; `Machine.perform`
carries one such act out.  Two machines at rest are twins if they show the same but for their traces,
with everything in sight (`Machine.Twins`).  Twins give the same answers, tell the host the same and
are twins again, so whatever is done with them they stay twins (`Twins.performAll`).

A machine that a state was loaded into is the twin of the machine that saved it, where every thread of
the latter fits its place.  So the two go on alike for ever (`Reached.goes_on_alike`).
-/

namespace ScriptMachine

/-- The whole tree is in sight, and nothing came before the trace. -/
def Vantage.whole (told : Bool) (now : Nat) : Vantage where
  told := told
  now := now
  past := []
  tree := id
  sees := fun _ => True
  global?_tree := fun _ _ => rfl
  tree_modifyGlobal := fun _ _ _ => rfl

/-- With the whole tree in sight the vantage is wide. -/
theorem Vantage.wide_whole (told : Bool) (now : Nat) (past : List Event) :
    ((whole told now).after past).Wide := ⟨fun _ => rfl, fun _ => trivial⟩

/-- Host functions load no modules, and what they do with a machine and a thread depends on what both
show: not on serial numbers, the number of ticks, marks, or the order of strings in buckets. -/
structure Host.Discreet (host : Host) : Prop where
  obeys : ∀ sources, host.Obeys (Machine.HostRule sources)
  agrees : ∀ {V V' : Vantage}, V.Wide → V'.Wide → ∀ key args m t m' t',
    V.shown .plain (m, t) = V'.shown .plain (m', t') → m.strings.Wellformed → m'.strings.Wellformed →
    (host key args).Agrees .plain V V' m t (host key args) m' t'

/-- Host functions that do nothing are discreet. -/
theorem Machine.discreet_quietHost : quietHost.Discreet :=
  ⟨fun _ => obeys_quietHost _, fun _ _ _ _ _ _ _ _ _ _ _ => .done false⟩

namespace Duo

open Machine

variable {host : Host}

/-- Two machines with everything in sight. -/
def whole (hhost : host.Discreet) (sources sources' : Nat → Bytes) (V V' : Vantage) : Duo where
  lens := .plain
  left := V
  right := V'
  leftSources := sources
  rightSources := sources'
  host := host
  obeysLeft := hhost.obeys sources
  obeysRight := hhost.obeys sources'

variable {hhost : host.Discreet} {sources sources' : Nat → Bytes} {V V' : Vantage} (hV : V.Wide)
  (hV' : V'.Wide) {m m' m₁ : Machine} {fuel : Nat}
include hV hV'

/-- Every global scope is in sight of the whole. -/
theorem sees_whole (g : Word) : (whole hhost sources sources' V V').Sees g := ⟨hV.sees g, hV'.sees g⟩

/-- Every call is fair where all is in sight. -/
theorem fair_whole (c : Call) : (whole hhost sources sources' V V').Fair c :=
  fair_of_host ⟨fun g => ⟨hV.sees g, hV'.sees g⟩, Function.injective_id, hhost.agrees hV hV'⟩ c

/-- Maps are visited alike. -/
theorem follows_visitMaps {ids : List ScopeId}
    (htimed : (whole hhost sources sources' V V').Timed)
    (hm : (whole hhost sources sources' V V').Paired true m m')
    (h : visitMaps (turn host fuel) fuel ids m = some m₁) :
    ∃ m₁', visitMaps (turn host fuel) fuel ids m' = some m₁' ∧
      (whole hhost sources sources' V V').Paired true m₁ m₁' := by
  induction ids generalizing m m' with
  | nil =>
    cases h
    exact ⟨m', rfl, hm⟩
  | cons id rest ih =>
    have hactive : m.scopes.isActive id = m'.scopes.isActive id := by
      have hview : (m.view .plain V).scopes.isActive id = (m'.view .plain V').scopes.isActive id :=
        congrArg (fun x : Machine => x.scopes.isActive id) hm.view
      rwa [isActive_view m (hV.sees _), isActive_view m' (hV'.sees _)] at hview
    unfold visitMaps at h ⊢
    rw [← hactive]
    split at h
    · rename_i hon
      rw [if_pos hon]
      split at h
      · cases h
      · rename_i m₂ hmodules
        obtain ⟨m₂', hmodules', hm₂⟩ := follows_visitModules htimed (sees_whole hV hV' _)
          (Nat.le_refl fuel) (Nat.le_refl fuel) hm (fun c _ => fair_whole hV hV' c) hmodules
        have hmodules' : visitModules (turn host fuel) id fuel 0 m' = some m₂' := hmodules'
        rw [hmodules']
        exact ih hm₂ h
    · rename_i hoff
      rw [if_neg hoff]
      exact ih hm h

/-- Starts for a result are carried along. -/
theorem carries_startResult (scope : ScopeId) (name : ScriptName) (args : List Word)
    (info : ThreadInfo) : (whole hhost sources sources' V V').Carries false
      (fun m => m.startResult (turn host fuel) scope name args info)
      fun m => m.startResult (turn host fuel) scope name args info := fun _ _ _ _ hm h =>
  follows_startResult (turnsFollow (Nat.le_refl fuel)) (sees_whole hV hV' _) hm
    (fun c _ => fair_whole hV hV' c) h

end Duo

namespace Machine

variable {sources sources' : Nat → Bytes} {now : Nat} {busy : Bool} {host : Host} {fuel : Nat}
  {m m' m₁ m₁' m₂ m₂' : Machine}

/-! ## Twins -/

/-- The machines are at rest and show the same but for their traces. -/
structure Twins (sources sources' : Nat → Bytes) (m m' : Machine) : Prop where
  view : m.cleared.view .plain (.whole false m.tick) = m'.cleared.view .plain (.whole false m'.tick)
  left : Orderly sources m.tick false m
  right : Orderly sources' m'.tick false m'

/-- Twins are twins of each other. -/
theorem Twins.symm (h : Twins sources sources' m m') : Twins sources' sources m' m :=
  ⟨h.view.symm, h.right, h.left⟩

/-- Twins are aligned, each seen from its own tick. -/
theorem Twins.aligned (hhost : host.Discreet) (h : Twins sources sources' m m') :
    (Duo.whole hhost sources sources' (.whole false m.tick) (.whole false m'.tick)).Aligned false m m' :=
  ⟨h.view, h.left, h.right⟩

/-- Aligned machines are twins. -/
theorem twins_of_aligned {now' : Nat} {hhost : host.Discreet}
    (h : (Duo.whole hhost sources sources' (.whole false now) (.whole false now')).Aligned false m m') :
    Twins sources sources' m m' := by
  obtain ⟨hview, hleft, hright⟩ := h
  obtain rfl : m.tick = now := hleft.tick
  obtain rfl : m'.tick = now' := hright.tick
  exact ⟨hview, hleft, hright⟩

/-- Operations of a careful host leave what is kept as it is. -/
theorem Orderly.operation (hm : Orderly sources now busy m) (h : Operation sources m m') :
    Orderly sources now busy m' := by
  have hadvances := h.advances
  exact ⟨hm.consistent.operation h, hm.settled.advance hadvances, hadvances.tick.trans hm.tick,
    hadvances.executing.trans hm.executing⟩

/-- Adding modules by name leaves what is kept as it is. -/
theorem Orderly.addNamed (hm : Orderly sources now busy m) (scope : ScopeId) (names : List ModuleName) :
    Orderly sources now busy (m.addNamed scope names).2 :=
  hm.operation (.adding rfl (knows_registered fun name x hx => (hm.consistent.modules name x hx).1))

/-- Requests are answered alike. -/
theorem carries_ask {hhost : host.Discreet} {V V' : Vantage} (hV : V.Wide) (hV' : V'.Wide)
    (r : Request) : (Duo.whole hhost sources sources' V V').Carries false
      (fun m => m.perform host fuel (.ask r)) fun m => m.perform host fuel (.ask r) := by
  intro m m' a m₁ hm h
  obtain ⟨hanswer, hview⟩ := serve_congr hV hV' hm.view hm.left.consistent.strings
    hm.right.consistent.strings r
  have hcapacity : (m'.serve r).2.strings.capacity = (m.serve r).2.strings.capacity := by
    have htable : (m.serve r).2.strings.plain = (m'.serve r).2.strings.plain := table_of_view hview
    rw [← StringTable.capacity_plain, ← htable, StringTable.capacity_plain]
  have hperform : ∀ x : Machine, x.perform host fuel (.ask r) =
      if (x.serve r).2.strings.capacity < UInt32.size then some (x.serve r) else none := fun _ => rfl
  simp only [hperform] at h ⊢
  split at h
  · rename_i hroom
    have hroom' := hcapacity ▸ hroom
    have hserve := Option.some.inj h
    have hleft := hm.left.operation (.request r hroom)
    rw [hserve] at hanswer hview hleft
    refine ⟨(m'.serve r).2, ?_, hview, hleft, hm.right.operation (.request r hroom')⟩
    rw [if_pos hroom']
    exact congrArg some (Prod.ext hanswer.symm rfl)
  · cases h

/-- Modules are added alike by their names. -/
theorem carries_addModules {hhost : host.Discreet} {V V' : Vantage} (hV : V.Wide) (hV' : V'.Wide)
    (scope : ScopeId) (names : List ModuleName) : (Duo.whole hhost sources sources' V V').Carries false
      (fun m => m.perform host fuel (.addModules scope names))
      fun m => m.perform host fuel (.addModules scope names) := by
  intro m m' a m₁ hm h
  obtain ⟨hcount, hview⟩ := addNamed_congr hV hV' hm.view scope names
  cases h
  exact ⟨_, congrArg (fun n => some (Answer.count n, _)) hcount.symm, hview, hm.left.addNamed scope names,
    hm.right.addNamed scope names⟩

/-- A tick of twins. -/
theorem Twins.exec (hhost : host.Discreet) (h : Twins sources sources' m m')
    (hexec : m.exec host fuel = some m₁) :
    ∃ m₁', m'.exec host fuel = some m₁' ∧ Twins sources sources' m₁ m₁' ∧ SameNews m m₁ m' m₁' := by
  let D := Duo.whole hhost sources sources' (.whole false 0) (.whole false 0)
  have hrest : (D.during false m.tick m'.tick).Aligned false m m' := h.aligned hhost
  have hbegun := hrest.begins (fun _ _ _ h => h) fun _ _ _ h => h
  have hids : m'.scopes.mapIds = m.scopes.mapIds := by
    have hids := congrArg (fun x : Machine => x.scopes.mapIds) h.view
    have hmap : ∀ (x : Machine) n, (x.cleared.view .plain (.whole false n)).scopes.mapIds =
        x.scopes.mapIds := fun x n => ScopeTree.mapIds_recast ..
    simpa only [hmap] using hids.symm
  unfold Machine.exec execWith at hexec ⊢
  rw [if_neg (by rw [h.left.executing]; decide)] at hexec
  rw [if_neg (by rw [h.right.executing]; decide)]
  obtain ⟨x, hmaps, rfl⟩ := Option.map_eq_some_iff.1 hexec
  have hmaps' := congrArg (Option.map (Prod.mk ())) hmaps
  have hcarries : ∀ {s s' : Nat → Bytes} {n n' : Nat} (past past' : List Event),
      (Duo.whole hhost s s' ((Vantage.whole true (n + 1)).after past)
        ((Vantage.whole true (n' + 1)).after past')).Carries true
      (fun y => (visitMaps (turn host fuel) fuel m.scopes.mapIds y).map (Prod.mk ()))
      fun y => (visitMaps (turn host fuel) fuel m.scopes.mapIds y).map (Prod.mk ()) := by
    intro s s' n n' past past' y y' _ y₁ hy hrun
    obtain ⟨_, hrun, heq⟩ := Option.map_eq_some_iff.1 hrun
    cases heq
    obtain ⟨y₁', hrun', hy₁⟩ := Duo.follows_visitMaps (Vantage.wide_whole ..) (Vantage.wide_whole ..)
      ⟨rfl, rfl, Nat.succ_pos _, Nat.succ_pos _⟩ hy hrun
    exact ⟨y₁', congrArg (Option.map (Prod.mk ())) hrun', hy₁⟩
  obtain ⟨x', hx', haligned, hevents⟩ := hbegun.follows (fun past => hcarries [] past)
    (fun past => hcarries past []) hmaps'
  obtain ⟨_, hx', heq⟩ := Option.map_eq_some_iff.1 hx'
  cases heq
  have hexec' : (visitMaps (turn host fuel) fuel m'.scopes.mapIds
      { m' with executing := true, tick := m'.tick + 1 }).map (fun x => { x with executing := false }) =
      some { x' with executing := false } := by
    rw [hids, hx', Option.map_some]
  have hends : (Duo.whole hhost sources sources' (.whole false (m.tick + 1))
      (.whole false (m'.tick + 1))).Aligned false { x with executing := false }
      { x' with executing := false } := haligned.ends
  exact ⟨_, hexec', twins_of_aligned hends, sameNews_of_events hevents⟩

/-- **An act** is done alike with twins, which are twins again. -/
theorem Twins.perform (hhost : host.Discreet) (h : Twins sources sources' m m') {d : HostAct} {a : Answer}
    (hperform : m.perform host fuel d = some (a, m₁)) :
    ∃ m₁', m'.perform host fuel d = some (a, m₁') ∧ Twins sources sources' m₁ m₁' ∧
      SameNews m m₁ m' m₁' := by
  have hfollows : ∀ {α : Type} {F : Machine → Option (α × Machine)} {a : α},
      (∀ {s s' : Nat → Bytes} {V V' : Vantage}, V.Wide → V'.Wide →
        (Duo.whole hhost s s' V V').Carries false F F) → F m = some (a, m₁) →
      ∃ m₁', F m' = some (a, m₁') ∧ Twins sources sources' m₁ m₁' ∧ SameNews m m₁ m' m₁' := by
    intro α F a hF hrun
    obtain ⟨m₁', hrun', haligned, hevents⟩ := (h.aligned hhost).follows
      (fun past => hF (Vantage.wide_whole ..) (Vantage.wide_whole ..))
      (fun past => hF (Vantage.wide_whole ..) (Vantage.wide_whole ..)) hrun
    exact ⟨m₁', hrun', twins_of_aligned haligned, sameNews_of_events hevents⟩
  cases d with
  | ask r => exact hfollows (fun hV hV' => carries_ask hV hV' r) hperform
  | addModules scope names => exact hfollows (fun hV hV' => carries_addModules hV hV' scope names) hperform
  | exec =>
    obtain ⟨x, hexec, heq⟩ := Option.map_eq_some_iff.1 hperform
    cases heq
    obtain ⟨x', hexec', hrest⟩ := h.exec hhost hexec
    exact ⟨x', Option.map_eq_some_iff.2 ⟨x', hexec', rfl⟩, hrest⟩
  | startResult scope name args info =>
    obtain ⟨⟨r, x⟩, hstart, heq⟩ := Option.map_eq_some_iff.1 hperform
    cases heq
    obtain ⟨x', hstart', hrest⟩ := hfollows
      (fun hV hV' => Duo.carries_startResult hV hV' scope name args info) hstart
    exact ⟨x', Option.map_eq_some_iff.2 ⟨(r, x'), hstart', rfl⟩, hrest⟩

/-- **Whatever is done** with twins is done alike. -/
theorem Twins.performAll (hhost : host.Discreet) {acts : List HostAct} {answers : List Answer}
    (h : Twins sources sources' m m') (hrun : performAll host fuel acts m = some (answers, m₁)) :
    ∃ m₁', performAll host fuel acts m' = some (answers, m₁') ∧ Twins sources sources' m₁ m₁' ∧
      SameNews m m₁ m' m₁' := by
  induction acts generalizing m m' answers with
  | nil =>
    cases hrun
    exact ⟨m', rfl, h, [], rfl, rfl⟩
  | cons d rest ih =>
    unfold Machine.performAll at hrun ⊢
    split at hrun
    · cases hrun
    · rename_i a m₂ hfirst
      obtain ⟨⟨as, m₃⟩, hrest, heq⟩ := Option.map_eq_some_iff.1 hrun
      cases heq
      obtain ⟨m₂', hfirst', htwins, hnews⟩ := h.perform hhost hfirst
      obtain ⟨m₁', hrest', htwins', hnews'⟩ := ih htwins hrest
      refine ⟨m₁', ?_, htwins', hnews.trans hnews'⟩
      rw [hfirst']
      simp only [hrest', Option.map_some]

/-- Twins save the same. -/
theorem Twins.stateBytes_eq (h : Twins sources sources' m m') : m.stateBytes = m'.stateBytes := by
  have hview : ∀ x : Machine, (x.cleared.view .plain (.whole false x.tick)).stateBytes = x.stateBytes :=
    fun x => stateBytes_view (Vantage.wide_whole _ _ []) x.cleared
  rw [← hview m, h.view, hview m']

/-! ## Loading -/

/-- The machine with the contents of another one. -/
def holding (m x : Machine) : Machine :=
  { m with
    strings := x.strings
    scopes := x.scopes
    modules := x.modules
    nextSerial := x.nextSerial
    trace := x.trace }

theorem holding_trans (h : m₁ = m.holding m₁) (h' : m₂ = m₁.holding m₂) : m₂ = m.holding m₂ := by
  have hback : m₁.holding m₂ = (m.holding m₁).holding m₂ := congrArg (·.holding m₂) h
  exact h'.trans hback

/-- Fetching bytes changes the contents only. -/
theorem fetch_holding (m : Machine) (name : ModuleName) :
    (m.fetch name).2 = m.holding (m.fetch name).2 := by
  obtain ⟨events, -, heq⟩ := fetch_eq m name
  rw [heq]
  rfl

/-- Registering a module changes the contents only. -/
theorem register_holding (m : Machine) (name : ModuleName) (data : Bytes) :
    (m.register name data).2 = m.holding (m.register name data).2 := by
  obtain ⟨events, -, heq⟩ := register_eq m name data
  rw [heq]
  split <;> rfl

/-- Asking for a module changes the contents only. -/
theorem getModule_holding (m : Machine) (name : ModuleName) :
    (m.getModule name).2 = m.holding (m.getModule name).2 := by
  have hfetch := fetch_holding m name
  unfold getModule
  split
  · rfl
  · split
    · rename_i heq
      rw [heq] at hfetch
      exact hfetch
    · rename_i heq
      rw [heq] at hfetch
      exact holding_trans hfetch (register_holding ..)

/-- Fetching modules changes the contents only. -/
theorem fetchModules_holding (n : Nat) (m : Machine) (s : Bytes) :
    (fetchModules n m s).2 = m.holding (fetchModules n m s).2 := by
  induction n generalizing m s with
  | zero => rfl
  | succ n ih =>
    unfold fetchModules
    split
    · rfl
    · rename_i name s₁ _
      have hget := getModule_holding m name
      split
      · rename_i heq
        rw [heq] at hget
        exact hget
      · rename_i x m₁ heq
        rw [heq] at hget
        have hrest := holding_trans hget (ih m₁ s₁)
        split
        · rename_i heq'
          rw [heq'] at hrest
          exact hrest
        · rename_i heq'
          rw [heq'] at hrest
          exact hrest

/-- Taking global scopes changes the contents only. -/
theorem takeGlobals_holding (modules : List LoadedModule) (n : Nat) (m : Machine) (s : Bytes) :
    (takeGlobals modules n m s).2 = m.holding (takeGlobals modules n m s).2 := by
  induction n generalizing m s with
  | zero => rfl
  | succ n ih =>
    unfold takeGlobals
    split
    · rfl
    · refine holding_trans ?_ (ih ..)
      rfl

/-- Loading changes the contents only, and then the branch limit and the generator. -/
theorem takeContents_holding (m : Machine) (s : Bytes) :
    (m.takeContents s).2 = m.holding (m.takeContents s).2 := by
  unfold takeContents
  simp only
  split
  · rfl
  split
  · rfl
  rename_i n s₁ _
  have hfetch := fetchModules_holding n
    { m with scopes := {}, modules := {}, strings := (StringTable.read s).1 } s₁
  split
  · rename_i heq
    rw [heq] at hfetch
    exact hfetch
  rename_i modules s₂ m₁ heq
  rw [heq] at hfetch
  split
  · exact hfetch
  rename_i k s₃ _
  have htree := holding_trans hfetch (takeGlobals_holding modules k m₁ s₃)
  split
  · rename_i heq'
    rw [heq'] at htree
    exact htree
  · rename_i heq'
    rw [heq'] at htree
    let locks := (StringTable.read s).1.lockCounts
    have hlocks := congrArg (fun x : Machine => { x with strings := x.strings.restoreLocks locks }) htree
    exact hlocks

variable {X Y Y' : Machine} {bytes tail rest : Bytes}

/-- A state is loaded at rest. -/
theorem rest_of_load (h : Y.load bytes = (.ok rest, Y')) : Y'.executing = false := by
  unfold load at h
  split at h
  · cases h
  rename_i hrest
  split at h
  · cases h
  rename_i s _
  have hstage := takeContents_holding Y s
  split at h
  · cases h
  rename_i heq
  rw [heq] at hstage
  dsimp only at h
  split at h
  · cases h
  rename_i hextra
  obtain ⟨events, rfl⟩ := takeExtra_eq_ok hextra
  cases h
  exact (congrArg Machine.executing hstage).trans ((Bool.not_eq_true _).mp hrest)

/-- The bytes of modules by the serial numbers they get when `Y` fetches those of `X`. -/
def fetchedSources (sources : Nat → Bytes) (X Y : Machine) (n : Nat) : Bytes :=
  match X.modules.entries[n - Y.nextSerial]? with
  | some p => sources p.2.serial
  | none => []

/-- The bytes of a module are those of its new serial number. -/
theorem fetchedSources_newSerial {name : ModuleName} {x : LoadedModule}
    (h : X.modules.find? name = some x) :
    fetchedSources sources X Y (newSerial X Y name) = sources x.serial := by
  rw [fetchedSources, newSerial, Nat.add_sub_cancel_left, getElem?_moduleNumber h]

/-- The machine `Y` is set up like `X`: it has the same settings, but for the branch limit, which is
saved, the same services and functions, and gets for each module of `X` the bytes it was loaded from. -/
structure SetUpLike (sources : Nat → Bytes) (X Y : Machine) : Prop where
  settings : { Y.settings with branchLimit := X.settings.branchLimit } = X.settings
  hooks : Y.hooks.bare = X.hooks.bare
  codeTable : Y.codeTable = X.codeTable
  builtins : Y.builtins = X.builtins
  hostFuncs : Y.hostFuncs = X.hostFuncs
  fetch : ∀ name x, X.modules.find? name = some x → (Y.fetch name).1 = .ok (sources x.serial)

/-- **The twin of a saved machine** is the one that its state was loaded into. -/
theorem twins_of_load (hX : Consistent sources X) (hsettled : X.Settled) (hsized : X.Sized)
    (hintact : X.Intact) (hrest : X.executing = false) (hY : SetUpLike sources X Y)
    (hload : Y.load (X.stateBytes ++ tail) = (.ok rest, Y')) :
    Twins sources (fetchedSources sources X Y) X Y' := by
  have hpolicy : Y.settings.unknownCode = X.settings.unknownCode := by rw [← hY.settings]
  obtain ⟨hrest', Y₁, trace, ⟨s, htake⟩, hstrings, hwf, hmodules, hscopes, heq⟩ :=
    load_contents hX hsized hintact hpolicy hY.codeTable hY.fetch hload
  have hstage := takeContents_holding Y s
  rw [htake] at hstage
  have hplain := StringTable.alike_iff.1 hstrings
  have hsettled' := settled_of_load hload
  obtain ⟨strings, modules, m₁, hl⟩ := exists_loaded hload
  have hled := fun id map hmap => (hl.scopes id map hmap).led
  rw [hstage] at heq
  subst heq
  refine ⟨?_, ⟨hX, hsettled, rfl, hrest⟩, ⟨⟨hwf, ?_, ?_, hled⟩, hsettled', rfl, hrest'⟩⟩
  · have hscopes' : X.scopes.recast (fun _ => 0) (fun _ => 0) =
        Y₁.scopes.recast (fun _ => 0) fun _ => 0 := by
      rw [hscopes, ScopeTree.recast_recast]
    have hregistry : X.modules.mapValues (LoadedModule.recast fun _ => 0) =
        Y₁.modules.mapValues (LoadedModule.recast fun _ => 0) := by
      rw [hmodules, OrdMap.mapValues_mapValues]
      rfl
    have hnow : ∀ n, (Vantage.whole false n).stamp = fun _ => 0 := fun n =>
      Vantage.stamp_of_not_told rfl
    simp only [view, cleared, holding, Machine.mk.injEq, true_and, hnow]
    exact ⟨hY.settings.symm, hY.hooks.symm, hplain.symm, hscopes', hregistry, hY.codeTable.symm,
      hY.builtins.symm, hY.hostFuncs.symm, hrest.trans hrest'.symm, rfl⟩
  · intro name x hx
    have hfound : Y₁.modules.find? name = some x := hx
    rw [hmodules, OrdMap.find?_mapValues] at hfound
    obtain ⟨x₀, hx₀, rfl⟩ := Option.map_eq_some_iff.1 hfound
    obtain ⟨hname, hstands⟩ := hX.modules name x₀ hx₀
    have hsource : fetchedSources sources X Y (newSerial X Y x₀.name) = sources x₀.serial := by
      rw [hname, fetchedSources_newSerial hx₀]
    rw [← hY.codeTable, ← hpolicy, ← hsource] at hstands
    exact ⟨hname, hstands.keeps hX.strings (hstrings.keeps hwf)⟩
  · intro id map hmap s hs
    have hfound : Y₁.scopes.map? id = some map := hmap
    rw [hscopes, ScopeTree.map?_recast] at hfound
    obtain ⟨map₀, hmap₀, rfl⟩ := Option.map_eq_some_iff.1 hfound
    obtain ⟨s₀, hs₀, rfl⟩ := List.mem_map.1 hs
    have hknown : X.modules.find? s₀.module.name = some s₀.module := hX.places id map₀ hmap₀ s₀ hs₀
    have hknows : Y₁.modules.find? s₀.module.name = some (s₀.module.recast (newSerial X Y)) := by
      rw [hmodules, OrdMap.find?_mapValues, hknown, Option.map_some]
    exact hknows

/-- **A loaded machine goes on like the saved one.**  Let every thread of a machine at rest fit its
place, and its saved state be loaded by a machine that is set up like it.  Then whatever the host does
with both, the two give the same answers, tell the host the same, save the same, and end or do not end
alike.  All threads fit where the loaded states on the way were coherent and the thread ids of no map
went round. -/
theorem Reached.goes_on_alike {L : Machine → Prop} (hX : Reached sources L X) (hsized : X.Sized)
    (hsave : X.save.1 = .ok bytes) (hY : SetUpLike sources X Y)
    (hload : Y.load (bytes ++ tail) = (.ok rest, Y')) :
    (X.Intact → ∀ host : Host, host.Discreet → ∀ fuel acts,
      Option.Rel (fun p q => p.1 = q.1 ∧ p.2.stateBytes = q.2.stateBytes ∧ SameNews X p.2 Y' q.2)
        (performAll host fuel acts X) (performAll host fuel acts Y')) ∧
      ((∀ m, L m → m.Coherent) → ¬ X.Exhausted → X.Intact) := by
  refine ⟨fun hintact host hhost fuel acts => ?_, fun hL hfresh => hX.intact hL hfresh⟩
  have hrest : X.executing = false := by
    cases hbusy : X.executing with
    | false => rfl
    | true =>
      rw [save, if_pos hbusy] at hsave
      cases hsave
  obtain ⟨extra, rfl⟩ := exists_extra hsave
  rw [List.append_assoc] at hload
  have htwins := twins_of_load hX.consistent hX.settled hsized hintact hrest hY hload
  cases hrun : performAll host fuel acts X with
  | some p =>
    obtain ⟨Y₁, hrun', htwins₁, hnews⟩ := htwins.performAll hhost hrun
    rw [hrun']
    exact .some ⟨rfl, htwins₁.stateBytes_eq, hnews⟩
  | none =>
    cases hrun' : performAll host fuel acts Y' with
    | none => exact .none
    | some q =>
      obtain ⟨X₁, hX₁, -⟩ := htwins.symm.performAll hhost hrun'
      cases hrun.symm.trans hX₁

/-- A new machine with the services of the sleeping one, and the bytes of its unit. -/
def receivingMachine : Machine :=
  { smallMachine with hooks :=
      { sleepingMachine.hooks with
        installed := .loadModule :: sleepingMachine.hooks.installed
        loadModule := fun _ => .ok sleepingUnit.write } }

/-- A thread that slept is loaded, and its script is stopped and started again. -/
theorem Reached.goes_on_alike_sleeping :
    let acts := [.exec, .ask (.stop {} (.number 1)), .exec, .startResult {} (.number 1) [] {}, .exec,
      .ask .collect, .ask .save]
    Reached (fun _ => sleepingUnit.write) (fun _ => False) sleepingMachine ∧
      sleepingMachine.Intact ∧ ∃ Y',
      receivingMachine.load (sleepingMachine.stateBytes ++ [7]) = (.ok [7], Y') ∧
      ∃ p q, performAll quietHost 9 acts sleepingMachine = some p ∧
        performAll quietHost 9 acts Y' = some q ∧ p.1 = q.1 ∧
        p.2.stateBytes = q.2.stateBytes ∧ SameNews sleepingMachine p.2 Y' q.2 := by
  intro acts
  obtain ⟨hrest, hextra, hsized, hsettings, htable, hbuiltins, hfuncs, hinstalled, hlast, hruns⟩ :
      sleepingMachine.executing = false ∧ sleepingMachine.hooks.has .saveExtra = false ∧
      sleepingMachine.Sized ∧
      { smallMachine.settings with branchLimit := sleepingMachine.settings.branchLimit } =
        sleepingMachine.settings ∧
      smallMachine.codeTable = sleepingMachine.codeTable ∧
      smallMachine.builtins = sleepingMachine.builtins ∧
      smallMachine.hostFuncs = sleepingMachine.hostFuncs ∧
      receivingMachine.hooks.has .loadExtra = false ∧
      (∀ e ∈ sleepingMachine.trace, logEnd? e ≠ some '5') ∧
      (performAll quietHost 9 acts sleepingMachine).isSome = true := by decide +kernel
  have hfresh : ¬ sleepingMachine.Exhausted := not_exhausted_of_logEnd? hlast
  have hsave := save_eq hrest hextra
  have hintact := reached_sleepingMachine.intact (fun _ h => h.elim) hfresh
  have hfetch : ∀ name, (receivingMachine.fetch name).1 = .ok sleepingUnit.write := by
    intro name
    have hsources : receivingMachine.sources.find? name = none := rfl
    have hhas : receivingMachine.hooks.has .loadModule = true := by
      simp [receivingMachine, Hooks.has]
    simp only [fetch, hsources, hhas, if_true]
    rfl
  obtain ⟨Y', hload, -⟩ := load_of_intact (Y := receivingMachine)
    reached_sleepingMachine.consistent hsized hintact
    ⟨hsettings, htable, fun name _ _ => hfetch name, rfl, hinstalled⟩ [7]
  have hbare : receivingMachine.hooks.bare = sleepingMachine.hooks.bare := by
    simp only [receivingMachine, Hooks.bare, List.filter_cons]
    rfl
  have hlike : SetUpLike (fun _ => sleepingUnit.write) sleepingMachine receivingMachine :=
    ⟨hsettings, hbare, htable, hbuiltins, hfuncs, fun name _ _ => hfetch name⟩
  have halike := (Reached.goes_on_alike reached_sleepingMachine hsized hsave hlike hload).1 hintact
    quietHost discreet_quietHost 9 acts
  obtain ⟨p, hp⟩ := Option.isSome_iff_exists.1 hruns
  rw [hp] at halike
  cases hq : performAll quietHost 9 acts Y' with
  | none =>
    rw [hq] at halike
    cases halike
  | some q =>
    rw [hq] at halike
    cases halike with
    | some h => exact ⟨reached_sleepingMachine, hintact, Y', hload, p, q, hp, hq, h⟩

end Machine

end ScriptMachine
