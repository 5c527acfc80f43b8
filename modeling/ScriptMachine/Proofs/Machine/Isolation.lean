import Mathlib.Logic.Function.Basic
import ScriptMachine.Proofs.Machine.ViewTicks

/-!
# Global scopes do not interfere

Scripts see of a machine the contents of strings, what the host gave, and the subtree of their global
scope (`Lens.contents`, `Vantage.only`).  Visits to the maps of other global scopes change none of it;
visits to their own do the same in two machines where they see the same.  So it is with a whole tick
(`Reached.exec_isolated`): whatever else there is in the tree, whatever the generator and the number of
ticks, the subtree becomes the same, and its scripts tell the host the same.

Only calls of host functions and of the generator can tell more, so these are ruled out.
-/

namespace ScriptMachine

/-! ## What is in sight -/

namespace ScopeTree

variable {g : Word} {id : ScopeId} {s : ScopeTree}

/-- The tree with one global scope at most. -/
def single (g : Word) : Option GlobalScope → ScopeTree
  | none => {}
  | some x => ⟨OrdMap.insert {} g x⟩

/-- The tree with no global scope but one. -/
def only (g : Word) (s : ScopeTree) : ScopeTree := single g (s.global? g)

/-- A tree with one global scope has it, and no other. -/
theorem global?_single (x : Option GlobalScope) (k : Word) :
    (single g x).global? k = if k = g then x else none := by
  cases x with
  | none => exact (ite_self _).symm
  | some x => simp only [single, global?, OrdMap.find?_insert, Std.LawfulEqOrd.compare_eq_iff_eq,
      OrdMap.find?_empty]

/-- What is left of a tree is the one global scope. -/
theorem global?_only (k : Word) : (s.only g).global? k = if k = g then s.global? g else none :=
  global?_single ..

/-- The global scope tells the trees with one apart. -/
theorem single_inj {x y : Option GlobalScope} : single g x = single g y ↔ x = y := by
  refine ⟨fun h => ?_, congrArg _⟩
  have hglobal := congrArg (global? · g) h
  rwa [global?_single, global?_single, if_pos rfl, if_pos rfl] at hglobal

/-- Trees with the same global scopes are the same. -/
theorem ext_global? {s' : ScopeTree} (h : ∀ k, s.global? k = s'.global? k) : s = s' := by
  cases s
  cases s'
  exact congrArg ScopeTree.mk (OrdMap.ext_find? h)

/-- Changing the one global scope before or after the others are left out. -/
theorem only_modifyGlobal (f : GlobalScope → GlobalScope) :
    (s.modifyGlobal g f).only g = (s.only g).modifyGlobal g f := by
  have hmodify : ∀ (x : ScopeTree) k, (x.modifyGlobal g f).global? k =
      if k = g then (x.global? k).map f else x.global? k := by
    intro x k
    simp only [global?, modifyGlobal, OrdMap.find?_modify, Std.LawfulEqOrd.compare_eq_iff_eq]
  refine ext_global? fun k => ?_
  rw [hmodify, global?_only, global?_only, hmodify, if_pos rfl]
  split <;> rfl

theorem recast_single (σ : ModuleName → Nat) (n : Nat → Nat) (x : Option GlobalScope) :
    (single g x).recast σ n = single g (x.map (GlobalScope.recast σ n)) := by
  cases x with
  | none => rfl
  | some x => exact congrArg ScopeTree.mk (OrdMap.mapValues_insert ..)

/-- A map that is left was there. -/
theorem map?_of_only {map : MapScope} (h : (s.only g).map? id = some map) : s.map? id = some map := by
  simp only [map?, hub?, global?_only] at h ⊢
  split at h
  · rename_i hg
    rwa [← hg] at h
  · cases h

/-- The maps below one global scope. -/
theorem mapIds_only : (s.only g).mapIds = s.mapIds.filter (·.global == g) := by
  let below (p : Word × GlobalScope) : List ScopeId := p.2.hubs.entries.flatMap fun q =>
    q.2.maps.keys.map fun k => { global := p.1, hub := q.1, map := k }
  have hglobal : ∀ p, ∀ id ∈ below p, id.global = p.1 := by
    intro p id hid
    obtain ⟨q, -, hq⟩ := List.mem_flatMap.1 hid
    obtain ⟨k, -, rfl⟩ := List.mem_map.1 hq
    rfl
  have hfilter : ∀ l : List (Word × GlobalScope), (l.flatMap below).filter (·.global == g) =
      (l.filter (·.1 == g)).flatMap below := by
    intro l
    induction l with
    | nil => rfl
    | cons p l ih =>
      rw [List.flatMap_cons, List.filter_append, ih]
      by_cases hp : p.1 = g
      · rw [List.filter_cons_of_pos (by simpa using hp), List.flatMap_cons,
          List.filter_eq_self.2 fun id hid => by simp [hglobal p id hid, hp]]
      · rw [List.filter_cons_of_neg (by simpa using hp),
          List.filter_eq_nil_iff.2 fun id hid => by simp [hglobal p id hid, hp], List.nil_append]
  have hentries : (s.only g).globals.entries = s.globals.entries.filter (·.1 == g) := by
    rw [OrdMap.entries_filter, only, global?]
    cases s.globals.find? g <;> rfl
  have hids : ∀ x : ScopeTree, x.mapIds = x.globals.entries.flatMap below := fun _ => rfl
  rw [hids, hids, hfilter, hentries]

end ScopeTree

namespace Vantage

/-- One global scope is in sight. -/
def only (g : Word) (told : Bool) (now : Nat) : Vantage where
  told := told
  now := now
  past := []
  tree := ScopeTree.only g
  sees := (· = g)
  global?_tree := by
    rintro _ s rfl
    rw [ScopeTree.global?_only, if_pos rfl]
  tree_modifyGlobal := by
    rintro _ s f rfl
    exact ScopeTree.only_modifyGlobal f

/-- Looking at one global scope only leaves its own threads genuine. -/
theorem genuine_only (g : Word) (told : Bool) (now : Nat) : (only g told now).Genuine :=
  fun _ _ _ h => ScopeTree.map?_of_only h

end Vantage

/-- A string table for each way to look up contents. -/
noncomputable def StringTable.ofBytes (f : Word → Option Bytes) : StringTable :=
  Function.invFun bytes? f

/-- The contents of strings make a table with these contents. -/
theorem StringTable.bytes?_ofBytes (t : StringTable) : (ofBytes t.bytes?).bytes? = t.bytes? :=
  Function.invFun_eq ⟨t, rfl⟩

/-- The contents tell such tables apart. -/
theorem StringTable.ofBytes_inj {t u : StringTable} :
    ofBytes t.bytes? = ofBytes u.bytes? ↔ t.bytes? = u.bytes? := by
  refine ⟨fun h => ?_, congrArg ofBytes⟩
  rw [← bytes?_ofBytes t, h, bytes?_ofBytes]

/-- Of the strings the contents are kept; of the generator and the registry nothing. -/
noncomputable def Lens.contents : Lens where
  table t := .ofBytes t.bytes?
  seed _ := 0
  registry _ := {}
  bytes?_table t i := congrFun t.bytes?_ofBytes i
  lock_congr := by
    intro t u i h
    have hsame : ∀ t : StringTable, (t.lock i).bytes? = t.bytes? := fun t =>
      funext (StringTable.sameStrings_lock t i).bytes?
    rw [hsame, hsame, h]
  unlock_congr := by
    intro t u i h
    have hsame : ∀ t : StringTable, (t.unlock i).bytes? = t.bytes? := fun t =>
      funext (StringTable.sameStrings_unlock t i).bytes?
    rw [hsame, hsame, h]

namespace Machine

variable {sources sources' : Nat → Bytes} {g : Word} {now now' fuel fuel' : Nat}
  {m m' m₁ m₁' : Machine}

/-- Scripts below a global scope see the same in both machines. -/
structure AlikeBelow (g : Word) (m m' : Machine) : Prop where
  settings : m.settings = m'.settings
  hooks : m.hooks.bare = m'.hooks.bare
  codeTable : m.codeTable = m'.codeTable
  builtins : m.builtins = m'.builtins
  hostFuncs : m.hostFuncs = m'.hostFuncs
  contents : ∀ i, m.strings.bytes? i = m'.strings.bytes? i
  /-- Serial numbers of modules and the ticks noted with threads make no difference. -/
  subtree : (m.scopes.global? g).map (GlobalScope.recast (fun _ => 0) fun _ => 0) =
    (m'.scopes.global? g).map (GlobalScope.recast (fun _ => 0) fun _ => 0)

/-- What shows is the same if what scripts below the global scope see is the same. -/
theorem view_only_eq_iff : m.cleared.view .contents (.only g false now) =
      m'.cleared.view .contents (.only g false now') ↔
    AlikeBelow g m m' ∧ m.executing = m'.executing := by
  have hnow : ∀ n, (Vantage.only g false n).stamp = fun _ => 0 := fun n =>
    Vantage.stamp_of_not_told rfl
  have hscopes : (m.scopes.only g).recast (fun _ => 0) (fun _ => 0) =
      (m'.scopes.only g).recast (fun _ => 0) (fun _ => 0) ↔
      (m.scopes.global? g).map (GlobalScope.recast (fun _ => 0) fun _ => 0) =
        (m'.scopes.global? g).map (GlobalScope.recast (fun _ => 0) fun _ => 0) := by
    rw [ScopeTree.only, ScopeTree.only, ScopeTree.recast_single, ScopeTree.recast_single,
      ScopeTree.single_inj]
  simp only [view, cleared, Machine.mk.injEq, true_and, hnow]
  constructor
  · rintro ⟨hsettings, hhooks, htable, htree, -, hcode, hbuiltins, hfuncs, -, hbusy, -⟩
    exact ⟨⟨hsettings, hhooks, hcode, hbuiltins, hfuncs, congrFun (StringTable.ofBytes_inj.1 htable),
      hscopes.1 htree⟩, hbusy⟩
  · rintro ⟨h, hbusy⟩
    exact ⟨h.settings, h.hooks, StringTable.ofBytes_inj.2 (funext h.contents), hscopes.2 h.subtree, rfl,
      h.codeTable, h.builtins, h.hostFuncs, rfl, hbusy, rfl⟩

/-- What scripts below the global scope see stays, if neither the subtree nor the stock changes. -/
theorem view_elsewhere {told : Bool} (hglobal : m'.scopes.global? g = m.scopes.global? g) (hstock : m.SameStock m')
    (htick : m'.tick = m.tick) (hbusy : m'.executing = m.executing) :
    m'.cleared.view .contents (.only g told now) = m.cleared.view .contents (.only g told now) := by
  have htools := hstock.tools
  simp only [tools, Prod.mk.injEq] at htools
  obtain ⟨hsettings, hhooks, hcode, hbuiltins, hfuncs⟩ := htools
  have hbytes : m'.strings.bytes? = m.strings.bytes? := funext hstock.strings.bytes?
  have htree : m'.scopes.only g = m.scopes.only g := by rw [ScopeTree.only, hglobal, ScopeTree.only]
  simp only [view, cleared, Machine.mk.injEq, true_and, and_true]
  exact ⟨hsettings, by rw [hhooks], StringTable.ofBytes_inj.2 hbytes, congrArg (ScopeTree.recast _ _) htree,
    rfl, hcode, hbuiltins, hfuncs, rfl, hbusy, by rw [htick]⟩

/-! ## Whose calls they are -/

section

variable {host : Host} {scope : ScopeId} {c : Call} {t : Thread} (hhost : host.Obeys (HostRule sources))
include hhost

/-- A turn makes calls for the map of its thread. -/
theorem scope_of_loopCalls {limit count : Word} {module : LoadedModule} (hm : Orderly sources now true m)
    (hc : c ∈ loopCalls host fuel limit count module m t) : c.scope = t.scope := by
  induction fuel generalizing limit count module m t with
  | zero => cases hc
  | succ n ih =>
    unfold loopCalls at hc
    split at hc
    · cases hc
    split at hc
    · cases hc
    split at hc
    · cases hc
    rename_i op operands _
    simp only at hc
    generalize hu : { t with codePtr := t.codePtr + 1 + op.arity } = u at hc
    have hscope : u.scope = t.scope := by rw [← hu]
    rcases List.mem_append.1 hc with hc | hc
    · rcases List.mem_append.1 hc with hc | hc
      · obtain ⟨callee, -, rfl⟩ := by simpa using hc
        exact hscope
      · split at hc
        · cases hc
        · unfold startCalls at hc
          split at hc
          · cases hc
          · rename_i m₁ t₁ hstarted
            obtain ⟨hm₁, ht₁⟩ := hm.started hstarted
            unfold detachedCalls turnCallsWith at hc
            split at hc
            · cases hc
            · rename_i module' hmodule
              have hhome : t₁.scope = u.scope := ht₁.home (by simp [Thread.isPlaceholder, hmodule])
              exact (ih (hm₁.setRunning _) hc).trans (hhome.trans hscope)
    · split at hc
      · rename_i m₁ t₁ hstep
        have hacts := acts_step (acts_turn hhost tame_hostRule) hhost tame_hostRule stirs_execWith
          hm.executing hstep
        exact (ih (hm.acts hacts).1 hc).trans (hacts.goes.thread.1.scope.trans hscope)
      · cases hc

/-- A visit calls for the map it is in. -/
theorem scope_of_visitCalls {i j : Nat} (hm : Orderly sources now true m)
    (hc : c ∈ m.visitCalls host fuel scope i j) : c.scope = scope := by
  unfold visitCalls at hc
  split at hc
  · cases hc
  · rename_i m₁ t₁ hvisited
    obtain ⟨hm₁, ht₁⟩ := hm.visited hvisited
    unfold detachedCalls turnCalls turnCallsWith at hc
    split at hc
    · cases hc
    · rename_i module hmodule
      have hhome : t₁.scope = scope := ht₁.home (by simp [Thread.isPlaceholder, hmodule])
      exact (scope_of_loopCalls hhost (hm₁.setRunning _) hc).trans hhome

/-- The visits to a module scope call for its map. -/
theorem scope_of_threadCalls {i j n : Nat} (hm : Orderly sources now true m)
    (hc : c ∈ threadCalls host fuel scope i n j m) : c.scope = scope := by
  induction n generalizing j m with
  | zero => cases hc
  | succ n ih =>
    unfold threadCalls at hc
    rcases List.mem_append.1 hc with hc | hc
    · exact scope_of_visitCalls hhost hm hc
    · have hkept : ∀ {v m₁}, m.visit (turn host fuel) scope i j = some (v, m₁) →
          Orderly sources now true m₁ := fun h =>
        hm.ticks (ticks_visit (acts_turn hhost tame_hostRule) hm.executing h)
      split at hc
      · rename_i hvisit
        exact ih (hkept hvisit) hc
      · rename_i hvisit
        exact ih (hkept hvisit) hc
      · cases hc

/-- **A map is visited** for calls of its own threads. -/
theorem scope_of_moduleCalls {i n : Nat} (hm : Orderly sources now true m)
    (hc : c ∈ moduleCalls host fuel scope n i m) : c.scope = scope := by
  induction n generalizing i m with
  | zero => cases hc
  | succ n ih =>
    unfold moduleCalls at hc
    split at hc
    · cases hc
    · split at hc
      · rcases List.mem_append.1 hc with hc | hc
        · exact scope_of_threadCalls hhost hm hc
        · split at hc
          · cases hc
          · rename_i hthreads
            exact ih (hm.ticks (ticks_visitThreads tame_hostRule (acts_turn hhost tame_hostRule)
              hm.executing hthreads)) hc
      · cases hc

end

/-! ## What happens below a global scope -/

/-- What happened on the way from `m` to `m'`, the newest first. -/
def news (m m' : Machine) : List Event := m'.story.take (m'.story.length - m.story.length)

/-- The news are what the story has more. -/
theorem news_eq {events : List Event} (h : m'.story = events ++ m.story) : m.news m' = events := by
  rw [news, h, List.length_append, Nat.add_sub_cancel, List.take_left]

/-- The same news are told on both sides. -/
theorem SameNews.news_eq (h : SameNews m m₁ m' m₁') : m.news m₁ = m'.news m₁' := by
  obtain ⟨events, hm, hm'⟩ := h
  rw [Machine.news_eq hm, Machine.news_eq hm']

/-- What happens in the visits to the maps below some global scopes, the newest first. -/
def eventsBelow (turn : Turn) (fuel : Nat) (below : Word → Bool) : List ScopeId → Machine → List Event
  | [], _ => []
  | id :: rest, m =>
    if m.scopes.isActive id then
      match visitModules turn id fuel 0 m with
      | none => []
      | some m' => eventsBelow turn fuel below rest m' ++ if below id.global then m.news m' else []
    else eventsBelow turn fuel below rest m

/-- What happens below a global scope in a tick that begins at rest, the newest first. -/
def tickEventsBelow (host : Host) (fuel : Nat) (g : Word) (m : Machine) : List Event :=
  eventsBelow (turn host fuel) fuel (· == g) m.scopes.mapIds
    { m with executing := true, tick := m.tick + 1 }

/-- All that happens happens in the visits to maps. -/
theorem story_visitMaps {ids : List ScopeId} (hm : m.executing = true)
    (h : visitMaps (turn quietHost fuel) fuel ids m = some m₁) :
    m₁.story = eventsBelow (turn quietHost fuel) fuel (fun _ => true) ids m ++ m.story := by
  induction ids generalizing m with
  | nil =>
    cases h
    rfl
  | cons id rest ih =>
    unfold visitMaps at h
    split at h
    · rename_i hactive
      split at h
      · cases h
      · rename_i m₂ hmodules
        have hticks := ticks_visitModules tame_never (acts_turn (obeys_quietHost Never) tame_never) hm
          hmodules
        obtain ⟨events, htrace⟩ := hticks.trace
        have hstory : m₂.story = events.map Event.plain ++ m.story := by
          rw [story, ← htrace, List.map_append]
          rfl
        simp only [eventsBelow, if_pos hactive, hmodules, if_true]
        rw [ih ((hticks.executing tame_never).trans hm) h, hstory, news_eq hstory, List.append_assoc]
    · rename_i hactive
      simp only [eventsBelow, if_neg hactive]
      exact ih hm h

/-- Where all calls are of built-in functions, the host has no say in what happens. -/
theorem eventsBelow_eq_of_calls {host : Host} {below : Word → Bool} {ids : List ScopeId}
    (h : ∀ c ∈ mapCalls host fuel ids m, c.IsBuiltin) :
    eventsBelow (turn host fuel) fuel below ids m =
      eventsBelow (turn quietHost fuel) fuel below ids m := by
  induction ids generalizing m with
  | nil => rfl
  | cons id rest ih =>
    unfold mapCalls at h
    simp only [eventsBelow]
    split at h
    · rename_i hactive
      simp only [if_pos hactive]
      obtain ⟨hmodules, hcalls⟩ := visitModules_eq_of_calls fun c hc => h c (List.mem_append_left _ hc)
      rw [hmodules] at h ⊢
      cases hrun : visitModules (turn quietHost fuel) id fuel 0 m with
      | none => rfl
      | some m₂ =>
        rw [hrun] at h
        simp only [ih fun c hc => h c (List.mem_append_right _ hc)]
    · rename_i hactive
      simp only [if_neg hactive]
      exact ih h

/-- Visits to maps below other global scopes are left out: they change nothing that scripts below `g`
see. -/
theorem exists_next {ids : List ScopeId} (told : Bool) (hm : Orderly sources now true m)
    (h : visitMaps (turn quietHost fuel) fuel ids m = some m₁) : ∃ rest m₀,
      Orderly sources now true m₀ ∧
      m₀.cleared.view .contents (.only g told now) = m.cleared.view .contents (.only g told now) ∧
      rest.filter (·.global == g) = ids.filter (·.global == g) ∧ (∀ id ∈ rest.head?, id.global = g) ∧
      visitMaps (turn quietHost fuel) fuel rest m₀ = some m₁ ∧
      eventsBelow (turn quietHost fuel) fuel (· == g) rest m₀ =
        eventsBelow (turn quietHost fuel) fuel (· == g) ids m ∧
      ∀ c ∈ mapCalls quietHost fuel rest m₀, c ∈ mapCalls quietHost fuel ids m := by
  induction ids generalizing m with
  | nil => exact ⟨[], m, hm, rfl, rfl, nofun, h, rfl, fun _ hc => hc⟩
  | cons id rest ih =>
    by_cases hg : id.global = g
    · exact ⟨id :: rest, m, hm, rfl, rfl, by simpa using hg, h, rfl, fun _ hc => hc⟩
    · have hfilter : (id :: rest).filter (·.global == g) = rest.filter (·.global == g) :=
        List.filter_cons_of_neg (by simpa using hg)
      rw [hfilter]
      unfold visitMaps at h
      split at h
      · rename_i hactive
        split at h
        · cases h
        · rename_i m₂ hmodules
          obtain ⟨hconfined, -⟩ := confined_visitModules hm.settled hmodules
          have hticks := ticks_visitModules tame_hostRule
            (acts_turn (obeys_quietHost (HostRule sources)) tame_hostRule) hm.executing hmodules
          have hm₂ := hm.ticks hticks
          have hview : m₂.cleared.view .contents (.only g told now) =
              m.cleared.view .contents (.only g told now) :=
            view_elsewhere (hconfined.globals g (Ne.symm hg)) (sameStock_visitModules hmodules)
              (hm₂.tick.trans hm.tick.symm) (hm₂.executing.trans hm.executing.symm)
          obtain ⟨rest', m₀, hm₀, hview', hids, hhead, hrun, hevents, hcalls⟩ := ih hm₂ h
          refine ⟨rest', m₀, hm₀, hview'.trans hview, hids, hhead, hrun, ?_, fun c hc => ?_⟩
          · have hother : (id.global == g) = false := by simpa using hg
            rw [hevents]
            simp only [eventsBelow, if_pos hactive, hmodules, hother, Bool.false_eq_true, if_false,
              List.append_nil]
          · simp only [mapCalls, if_pos hactive, hmodules]
            exact List.mem_append_right _ (hcalls c hc)
      · rename_i hactive
        simp only [eventsBelow, mapCalls, if_neg hactive]
        exact ih hm h

end Machine

/-- What the call tells a thread below the global scope does not come from elsewhere. -/
def Call.Insular (g : Word) (c : Call) : Prop :=
  c.IsBuiltin ∧ (c.scope.global = g → c.callee ≠ .builtin .random)

instance (g : Word) (c : Call) : Decidable (c.Insular g) := instDecidableAnd

namespace Duo

open Machine

variable {sources sources' : Nat → Bytes} {g : Word} {now now' fuel fuel' : Nat} {id : ScopeId}
  {m m' m₁ m₁' : Machine}

/-- Two machines with one global scope in sight. -/
noncomputable def below (g : Word) (sources sources' : Nat → Bytes) : Duo where
  lens := .contents
  left := .only g false 0
  right := .only g false 0
  leftSources := sources
  rightSources := sources'
  host := quietHost
  obeysLeft := obeys_quietHost _
  obeysRight := obeys_quietHost _

/-- **A map below the global scope** is visited alike. -/
theorem follows_mapBelow (hg : id.global = g)
    (hm : ((below g sources sources').during true (now + 1) (now' + 1)).Aligned true m m')
    (h : visitModules (turn quietHost fuel) id fuel 0 m = some m₁)
    (h' : visitModules (turn quietHost fuel') id fuel' 0 m' = some m₁')
    (hcalls : ∀ c ∈ moduleCalls quietHost fuel id fuel 0 m, c.Insular g)
    (hcalls' : ∀ c ∈ moduleCalls quietHost fuel' id fuel' 0 m', c.Insular g) :
    ((below g sources sources').during true (now + 1) (now' + 1)).Aligned true m₁ m₁' ∧
      m.news m₁ = m'.news m₁' := by
  have hfair : ∀ {D : Duo} {x : Machine} {n k : Nat} {s : Nat → Bytes}, Orderly s k true x →
      (∀ c ∈ moduleCalls quietHost n id n 0 x, c.Insular g) →
      ∀ c ∈ moduleCalls quietHost n id n 0 x, D.Fair c := by
    intro D x n k s hx hinsular c hc
    obtain ⟨⟨f, hf⟩, hrandom⟩ := hinsular c hc
    rw [scope_of_moduleCalls (obeys_quietHost _) hx hc, hf] at hrandom
    rw [Fair, hf]
    rintro rfl
    exact absurd rfl (hrandom hg)
  -- both are followed by the second machine without a trace, with fuel enough for either
  obtain ⟨y, hy, hleft⟩ := follows_visitModules ⟨rfl, rfl, Nat.succ_pos _, Nat.succ_pos _⟩ ⟨hg, hg⟩
    (Nat.le_max_left fuel fuel') (Nat.le_max_left fuel fuel') hm.paired (hfair hm.left hcalls) h
  obtain ⟨y', hy', hright⟩ := follows_visitModules ⟨rfl, rfl, Nat.succ_pos _, Nat.succ_pos _⟩ ⟨hg, hg⟩
    (Nat.le_max_right fuel fuel') (Nat.le_max_right fuel fuel') (paired_cleared hm.right).back
    (hfair hm.right hcalls') h'
  cases hy.symm.trans hy'
  obtain ⟨haligned, hevents⟩ := aligned_of_paired hleft hright.back
  exact ⟨haligned, (sameNews_of_events hevents).news_eq⟩

/-- Whether a map below the global scope is active is in sight. -/
theorem isActive_below (hg : id.global = g)
    (hm : ((below g sources sources').during true (now + 1) (now' + 1)).Aligned true m m') :
    m.scopes.isActive id = m'.scopes.isActive id := by
  have hsame := congrArg (fun x : Machine => x.scopes.isActive id) hm.view
  have hseen : ∀ (x : Machine) n, (x.cleared.view .contents (.only g true n)).scopes.isActive id =
      x.scopes.isActive id := fun x n => isActive_view x.cleared hg
  exact (hseen m _).symm.trans (hsame.trans (hseen m' _))

/-- A row of maps that has none below the global scope, and does not begin with another one, is empty. -/
theorem eq_nil_of_filter {ids : List ScopeId} (hhead : ∀ id ∈ ids.head?, id.global = g)
    (h : ids.filter (·.global == g) = []) : ids = [] := by
  cases ids with
  | nil => rfl
  | cons id rest => simp [hhead id rfl] at h

/-- A row of maps that does not begin with one elsewhere begins with the first below the global scope. -/
theorem exists_cons_of_filter {ids others : List ScopeId} (hhead : ∀ id ∈ ids.head?, id.global = g)
    (h : ids.filter (·.global == g) = id :: others) :
    ∃ rest, ids = id :: rest ∧ id.global = g ∧ rest.filter (·.global == g) = others := by
  cases ids with
  | nil => cases h
  | cons first rest =>
    have hg := hhead first rfl
    rw [List.filter_cons_of_pos (by simpa using hg)] at h
    cases h
    exact ⟨rest, rfl, hg, rfl⟩

/-- **Visits to all maps** do the same below the global scope. -/
theorem follows_mapsBelow {picked ids ids' : List ScopeId}
    (hids : ids.filter (·.global == g) = picked) (hids' : ids'.filter (·.global == g) = picked)
    (hm : ((below g sources sources').during true (now + 1) (now' + 1)).Aligned true m m')
    (h : visitMaps (turn quietHost fuel) fuel ids m = some m₁)
    (h' : visitMaps (turn quietHost fuel') fuel' ids' m' = some m₁')
    (hcalls : ∀ c ∈ mapCalls quietHost fuel ids m, c.Insular g)
    (hcalls' : ∀ c ∈ mapCalls quietHost fuel' ids' m', c.Insular g) :
    ((below g sources sources').during true (now + 1) (now' + 1)).Aligned true m₁ m₁' ∧
      eventsBelow (turn quietHost fuel) fuel (· == g) ids m =
        eventsBelow (turn quietHost fuel') fuel' (· == g) ids' m' := by
  induction picked generalizing ids ids' m m' with
  | nil =>
    obtain ⟨rest, m₀, hm₀, hview, hrest, hhead, hrun, hevents, -⟩ :=
      exists_next (g := g) true hm.left h
    obtain ⟨rest', m₀', hm₀', hview', hrest', hhead', hrun', hevents', -⟩ :=
      exists_next (g := g) true hm.right h'
    cases eq_nil_of_filter hhead (hrest.trans hids)
    cases eq_nil_of_filter hhead' (hrest'.trans hids')
    cases hrun
    cases hrun'
    exact ⟨⟨hview.trans (hm.view.trans hview'.symm), hm₀, hm₀'⟩, hevents.symm.trans hevents'⟩
  | cons id others ih =>
    obtain ⟨rest, m₀, hm₀, hview, hrest, hhead, hrun, hevents, hmem⟩ :=
      exists_next (g := g) true hm.left h
    obtain ⟨rest', m₀', hm₀', hview', hrest', hhead', hrun', hevents', hmem'⟩ :=
      exists_next (g := g) true hm.right h'
    obtain ⟨post, rfl, hg, hpost⟩ := exists_cons_of_filter hhead (hrest.trans hids)
    obtain ⟨post', rfl, -, hpost'⟩ := exists_cons_of_filter hhead' (hrest'.trans hids')
    have hnext : ((below g sources sources').during true (now + 1) (now' + 1)).Aligned true m₀ m₀' :=
      ⟨hview.trans (hm.view.trans hview'.symm), hm₀, hm₀'⟩
    have hactive := isActive_below hg hnext
    rw [← hevents, ← hevents']
    replace hcalls := fun c hc => hcalls c (hmem c hc)
    replace hcalls' := fun c hc => hcalls' c (hmem' c hc)
    by_cases hon : m₀.scopes.isActive id = true
    · have hon' := hactive ▸ hon
      simp only [visitMaps, eventsBelow, mapCalls, if_pos hon, if_pos hon'] at hrun hrun' hcalls hcalls' ⊢
      cases hmodules : visitModules (turn quietHost fuel) id fuel 0 m₀ with
      | none =>
        rw [hmodules] at hrun
        cases hrun
      | some m₂ =>
        cases hmodules' : visitModules (turn quietHost fuel') id fuel' 0 m₀' with
        | none =>
          rw [hmodules'] at hrun'
          cases hrun'
        | some m₂' =>
          rw [hmodules] at hrun hcalls
          rw [hmodules'] at hrun' hcalls'
          obtain ⟨haligned, hnews⟩ := follows_mapBelow hg hnext hmodules hmodules'
            (fun c hc => hcalls c (List.mem_append_left _ hc))
            fun c hc => hcalls' c (List.mem_append_left _ hc)
          obtain ⟨hlast, hothers⟩ := ih hpost hpost' haligned hrun hrun'
            (fun c hc => hcalls c (List.mem_append_right _ hc))
            fun c hc => hcalls' c (List.mem_append_right _ hc)
          exact ⟨hlast, by simp only [hothers, hnews]⟩
    · have hoff' := hactive ▸ hon
      simp only [visitMaps, eventsBelow, mapCalls, if_neg hon, if_neg hoff'] at hrun hrun' hcalls hcalls' ⊢
      exact ih hpost hpost' hnext hrun hrun' hcalls hcalls'

end Duo

namespace Machine

variable {sources sources' : Nat → Bytes} {g : Word} {fuel fuel' : Nat} {host host' : Host}
  {m m' m₁ m₁' : Machine}

/-- **Global scopes do not interfere.**  Let two machines at rest be alike below a global scope, and
differ as they may otherwise: in other global scopes, the locks of strings, the registry, the generator
and the number of ticks.  Let both go through a tick in which scripts call built-in functions only, and
those below the global scope do not ask for random numbers.  Then the machines are alike below the
global scope again, and the same has happened there, in the same order. -/
theorem Reached.exec_isolated {L L' : Machine → Prop} (hm : Reached sources L m)
    (hm' : Reached sources' L' m') (hrest : m.executing = false) (hrest' : m'.executing = false)
    (halike : AlikeBelow g m m') (hcalls : ∀ c ∈ m.tickCalls host fuel, c.Insular g)
    (hcalls' : ∀ c ∈ m'.tickCalls host' fuel', c.Insular g) (hexec : m.exec host fuel = some m₁)
    (hexec' : m'.exec host' fuel' = some m₁') :
    AlikeBelow g m₁ m₁' ∧ m.tickEventsBelow host fuel g = m'.tickEventsBelow host' fuel' g := by
  obtain ⟨hquiet, hsame⟩ := exec_eq_of_calls hrest fun c hc => (hcalls c hc).1
  obtain ⟨hquiet', hsame'⟩ := exec_eq_of_calls hrest' fun c hc => (hcalls' c hc).1
  have hevents : m.tickEventsBelow host fuel g = m.tickEventsBelow quietHost fuel g :=
    eventsBelow_eq_of_calls fun c hc => (hcalls c hc).1
  have hevents' : m'.tickEventsBelow host' fuel' g = m'.tickEventsBelow quietHost fuel' g :=
    eventsBelow_eq_of_calls fun c hc => (hcalls' c hc).1
  rw [hquiet] at hexec
  rw [hquiet'] at hexec'
  rw [hsame] at hcalls
  rw [hsame'] at hcalls'
  rw [hevents, hevents']
  have haligned : ((Duo.below g sources sources').during false m.tick m'.tick).Aligned false m m' :=
    ⟨view_only_eq_iff.2 ⟨halike, hrest.trans hrest'.symm⟩, ⟨hm.consistent, hm.settled, rfl, hrest⟩,
      ⟨hm'.consistent, hm'.settled, rfl, hrest'⟩⟩
  have hbegun := haligned.begins (Vantage.genuine_only _ _ _) (Vantage.genuine_only _ _ _)
  have hids : m.scopes.mapIds.filter (·.global == g) = m'.scopes.mapIds.filter (·.global == g) := by
    have hview := congrArg (fun x : Machine => x.scopes.mapIds) haligned.view
    have hfilter : ∀ (x : Machine) n, (x.cleared.view .contents (.only g false n)).scopes.mapIds =
        x.scopes.mapIds.filter (·.global == g) := fun x n =>
      (ScopeTree.mapIds_recast ..).trans ScopeTree.mapIds_only
    exact (hfilter m _).symm.trans (hview.trans (hfilter m' _))
  unfold Machine.exec execWith at hexec hexec'
  rw [if_neg (by simp [hrest])] at hexec
  rw [if_neg (by simp [hrest'])] at hexec'
  obtain ⟨x, hmaps, rfl⟩ := Option.map_eq_some_iff.1 hexec
  obtain ⟨x', hmaps', rfl⟩ := Option.map_eq_some_iff.1 hexec'
  obtain ⟨hlast, hsame⟩ := Duo.follows_mapsBelow hids rfl hbegun hmaps hmaps' hcalls hcalls'
  exact ⟨(view_only_eq_iff.1 hlast.ends.view).1, hsame⟩

/-- The unit is added to two maps, its script is started in both, and stopped in one. -/
def staging : List HostAct :=
  [.addModules {} [{ name := "sleeping" }], .ask (.start {} (.number 1) [] {}),
    .addModules { map := 1 } [{ name := "sleeping" }],
    .ask (.start { map := 1 } (.number 1) [] {}), .ask (.stop { map := 1 } (.number 1))]

/-- A tick passes, and the script is started below another global scope. -/
def crowding : List HostAct :=
  [.exec, .addModules { global := 1 } [{ name := "sleeping" }],
    .ask (.start { global := 1 } (.number 1) [] {})]

/-- What is done with the machine that has the unit. -/
def supplied (acts : List HostAct) : Machine :=
  ((performAll quietHost 9 acts suppliedMachine).map (·.2)).getD suppliedMachine

/-- The machine with one global scope. -/
def stagedMachine : Machine :=
  { supplied staging with hooks := { installed := [.threadStop] } }

/-- The machine with two global scopes, another generator and a string locked. -/
def crowdedMachine : Machine :=
  { supplied (crowding ++ staging) with
    hooks := { installed := [.threadStop] }
    rng := 7
    strings := (supplied (crowding ++ staging)).strings.lock 0 }

/-- A thread falls asleep and another one is gone, whatever there is below the other global scope. -/
theorem Reached.exec_isolated_staged :
    Reached (fun _ => sleepingUnit.write) (fun _ => False) stagedMachine ∧
    Reached (fun _ => sleepingUnit.write) (fun _ => False) crowdedMachine ∧
    (crowdedMachine.scopes.global? 1).isSome = true ∧ (stagedMachine.scopes.global? 1).isSome = false ∧
    ∃ m m', stagedMachine.exec quietHost 9 = some m ∧ crowdedMachine.exec quietHost 12 = some m' ∧
      m.scopes.global? 0 ≠ stagedMachine.scopes.global? 0 ∧ AlikeBelow 0 m m' ∧
      (stagedMachine.tickEventsBelow quietHost 9 0).length = 2 ∧
      stagedMachine.tickEventsBelow quietHost 9 0 = crowdedMachine.tickEventsBelow quietHost 12 0 := by
  obtain ⟨hruns, hruns', hrest, hrest', hsettings, hcode, hbuiltins, hfuncs, hslots, htree,
      hcalls, hcalls', hexec, hexec', hchanged, hother, hone, hlength⟩ :
      (performAll quietHost 9 staging suppliedMachine).isSome = true ∧
      (performAll quietHost 9 (crowding ++ staging) suppliedMachine).isSome = true ∧
      stagedMachine.executing = false ∧ crowdedMachine.executing = false ∧
      stagedMachine.settings = crowdedMachine.settings ∧
      stagedMachine.codeTable = crowdedMachine.codeTable ∧
      stagedMachine.builtins = crowdedMachine.builtins ∧
      stagedMachine.hostFuncs = crowdedMachine.hostFuncs ∧
      (stagedMachine.strings.slots.map fun e => e.map (·.bytes)) =
        (crowdedMachine.strings.slots.map fun e => e.map (·.bytes)) ∧
      (stagedMachine.scopes.global? 0).map (GlobalScope.recast (fun _ => 0) fun _ => 0) =
        (crowdedMachine.scopes.global? 0).map (GlobalScope.recast (fun _ => 0) fun _ => 0) ∧
      (∀ c ∈ stagedMachine.tickCalls quietHost 9, c.Insular 0) ∧
      (∀ c ∈ crowdedMachine.tickCalls quietHost 12, c.Insular 0) ∧
      (stagedMachine.exec quietHost 9).isSome = true ∧
      (crowdedMachine.exec quietHost 12).isSome = true ∧
      ((stagedMachine.exec quietHost 9).map fun m =>
        decide (m.scopes.global? 0 = stagedMachine.scopes.global? 0)) = some false ∧
      (crowdedMachine.scopes.global? 1).isSome = true ∧
      (stagedMachine.scopes.global? 1).isSome = false ∧
      (stagedMachine.tickEventsBelow quietHost 9 0).length = 2 := by decide +kernel
  have hreached : ∀ acts, (performAll quietHost 9 acts suppliedMachine).isSome = true →
      Reached (fun _ => sleepingUnit.write) (fun _ => False) (supplied acts) := by
    intro acts hruns
    obtain ⟨⟨answers, m⟩, hm⟩ := Option.isSome_iff_exists.1 hruns
    rw [supplied, hm]
    exact reached_suppliedMachine.of_performAll (obeys_quietHost _) hm
  have hstaged : Reached (fun _ => sleepingUnit.write) (fun _ => False) stagedMachine :=
    (hreached staging hruns).operate (.equip (supplied staging) _ _ _ _ _ _ _)
  have hcrowded : Reached (fun _ => sleepingUnit.write) (fun _ => False) crowdedMachine :=
    (hreached _ hruns').operate (.adjust (supplied (crowding ++ staging)) _ 7 _ _ _ _ trivial (.inl rfl)
      (.inr ⟨0, .inl rfl⟩))
  have hcontents : ∀ (t : StringTable) i,
      t.bytes? i = ((t.slots.map fun e => e.map (·.bytes))[i.toNat]?).join := by
    intro t i
    rw [StringTable.bytes?, StringTable.get?, Array.getElem?_map]
    cases t.slots[i.toNat]? with
    | none => rfl
    | some e => cases e <;> rfl
  have halike : AlikeBelow 0 stagedMachine crowdedMachine :=
    ⟨hsettings, rfl, hcode, hbuiltins, hfuncs, fun i => by rw [hcontents, hslots, ← hcontents], htree⟩
  obtain ⟨m, hm⟩ := Option.isSome_iff_exists.1 hexec
  obtain ⟨m', hm'⟩ := Option.isSome_iff_exists.1 hexec'
  obtain ⟨hafter, hevents⟩ :=
    Reached.exec_isolated hstaged hcrowded hrest hrest' halike hcalls hcalls' hm hm'
  rw [hm] at hchanged
  exact ⟨hstaged, hcrowded, hother, hone, m, m', hm, hm', by simpa using hchanged, hafter, hlength, hevents⟩

end Machine

end ScriptMachine
