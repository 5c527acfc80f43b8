import Mathlib.Data.List.Sigma
import ScriptMachine.Proofs.Machine.Census
import ScriptMachine.Proofs.Machine.Coherence
import ScriptMachine.Proofs.Machine.Unaided

/-!
# What happens to threads and what is reported of it

Each thing that a machine can do is followed by the census: the pieces of scripts (`Stirs.counted`),
taking a thread out of the tree for its turn and putting it back (`Counted.detach`, `Counted.reattach`),
removing and delaying threads (`Counted.reap`, `Counted.wait`) and freeing scopes (`Counted.free`).  A
thread that comes back and does not find its placeholder is reported as stopped then; the free that took
the placeholder away did not report it.
-/

namespace ScriptMachine

/-! ## Threads with their seats -/

/-- The threads of a map with their seats. -/
def MapScope.roll (id : ScopeId) (map : MapScope) : List (Seat × Thread) :=
  map.modules.zipIdx.flatMap fun (x, i) => x.threads.map fun t => (⟨id, i, t.id⟩, t)

/-- The threads of a hub with their seats. -/
def HubScope.roll (g h : Word) (hub : HubScope) : List (Seat × Thread) :=
  hub.maps.entries.flatMap fun (k, map) => map.roll ⟨g, h, k⟩

/-- The threads of a global scope with their seats. -/
def GlobalScope.roll (g : Word) (x : GlobalScope) : List (Seat × Thread) :=
  x.hubs.entries.flatMap fun (h, hub) => hub.roll g h

/-- The threads of the roll are those of the map. -/
theorem MapScope.map_snd_roll (id : ScopeId) (map : MapScope) : (map.roll id).map Prod.snd = map.threads := by
  rw [roll, List.map_flatMap, MapScope.threads]
  conv_rhs => rw [← List.zipIdx_map_fst 0 map.modules, List.flatMap_map]
  exact List.flatMap_congr fun p _ => by simp [Function.comp_def]

/-- The threads of the roll are those of the hub. -/
theorem HubScope.map_snd_roll (g h : Word) (hub : HubScope) : (hub.roll g h).map Prod.snd = hub.threads := by
  rw [roll, List.map_flatMap, HubScope.threads, OrdMap.values, List.flatMap_map]
  exact List.flatMap_congr fun p _ => p.2.map_snd_roll _

/-- The threads of the roll are those of the global scope. -/
theorem GlobalScope.map_snd_roll (g : Word) (x : GlobalScope) : (x.roll g).map Prod.snd = x.threads := by
  rw [roll, List.map_flatMap, GlobalScope.threads, OrdMap.values, List.flatMap_map]
  exact List.flatMap_congr fun p _ => p.2.map_snd_roll ..

/-- Who is on the roll of a map. -/
theorem MapScope.mem_roll {id : ScopeId} {map : MapScope} {s : Seat} {t : Thread} :
    (s, t) ∈ map.roll id ↔ s.scope = id ∧ t.id = s.id ∧
      ∃ x, map.modules[s.moduleIndex]? = some x ∧ t ∈ x.threads := by
  rw [roll, List.mem_flatMap]
  constructor
  · rintro ⟨⟨x, i⟩, hx, ht⟩
    obtain ⟨u, hu, heq⟩ := List.mem_map.1 ht
    cases heq
    exact ⟨rfl, rfl, x, List.mem_zipIdx_iff_getElem?.1 hx, hu⟩
  · rintro ⟨rfl, hid, x, hx, ht⟩
    refine ⟨(x, s.moduleIndex), List.mem_zipIdx_iff_getElem?.2 hx, List.mem_map.2 ⟨t, ht, ?_⟩⟩
    rw [hid]

/-- Who is on the roll of a hub. -/
theorem HubScope.mem_roll {g h : Word} {hub : HubScope} {s : Seat} {t : Thread} :
    (s, t) ∈ hub.roll g h ↔ (s.scope.global = g ∧ s.scope.hub = h) ∧
      ∃ map, hub.maps.find? s.scope.map = some map ∧ (s, t) ∈ map.roll s.scope := by
  rw [roll, List.mem_flatMap]
  constructor
  · rintro ⟨⟨k, map⟩, hmap, ht⟩
    obtain ⟨hscope, hrest⟩ := MapScope.mem_roll.1 ht
    have hmap' := OrdMap.mem_entries.1 hmap
    refine ⟨by rw [hscope]; exact ⟨rfl, rfl⟩, map, by rw [hscope]; exact hmap', ?_⟩
    exact MapScope.mem_roll.2 ⟨rfl, hrest⟩
  · rintro ⟨⟨rfl, rfl⟩, map, hmap, ht⟩
    exact ⟨(s.scope.map, map), OrdMap.mem_entries.2 hmap, ht⟩

/-- Who is on the roll of a global scope. -/
theorem GlobalScope.mem_roll {g : Word} {x : GlobalScope} {s : Seat} {t : Thread} :
    (s, t) ∈ x.roll g ↔ s.scope.global = g ∧
      ∃ hub, x.hubs.find? s.scope.hub = some hub ∧ (s, t) ∈ hub.roll g s.scope.hub := by
  rw [roll, List.mem_flatMap]
  constructor
  · rintro ⟨⟨h, hub⟩, hhub, ht⟩
    obtain ⟨⟨hg, rfl⟩, -⟩ := HubScope.mem_roll.1 ht
    exact ⟨hg, hub, OrdMap.mem_entries.1 hhub, ht⟩
  · rintro ⟨rfl, hub, hhub, ht⟩
    exact ⟨(s.scope.hub, hub), OrdMap.mem_entries.2 hhub, ht⟩

/-- Threads whose lists know them by their ids have different seats. -/
theorem MapScope.nodup_roll {map : MapScope} (id : ScopeId)
    (h : ∀ x ∈ map.modules, (x.threads.map (·.id)).Nodup) : ((map.roll id).map Prod.fst).Nodup := by
  rw [roll, List.map_flatMap]
  refine List.nodup_flatMap.2 ⟨fun p hp => ?_, ?_⟩
  · have hmem : p.1 ∈ map.modules := List.mem_of_getElem? (List.mem_zipIdx_iff_getElem?.1 hp)
    have hseats : (p.1.threads.map fun t => ((⟨id, p.2, t.id⟩ : Seat), t)).map Prod.fst =
        (p.1.threads.map (·.id)).map fun k => ⟨id, p.2, k⟩ := by
      rw [List.map_map, List.map_map]
      rfl
    rw [hseats]
    exact (h p.1 hmem).map fun a b hab => congrArg Seat.id hab
  · have hindices := List.pairwise_map.1 (List.nodup_zipIdx_map_snd map.modules)
    refine hindices.imp fun {p q} hne s hs hs' => hne ?_
    obtain ⟨⟨_, t⟩, ht, rfl⟩ := List.mem_map.1 hs
    obtain ⟨⟨_, t'⟩, ht', heq⟩ := List.mem_map.1 hs'
    obtain ⟨u, -, hu⟩ := List.mem_map.1 ht
    obtain ⟨u', -, hu'⟩ := List.mem_map.1 ht'
    cases hu
    cases hu'
    exact (congrArg Seat.moduleIndex heq).symm

/-- No seat is twice on the roll of a hub. -/
theorem HubScope.nodup_roll {hub : HubScope} (g h : Word)
    (hmaps : ∀ k map, hub.maps.find? k = some map → ((map.roll ⟨g, h, k⟩).map Prod.fst).Nodup) :
    ((hub.roll g h).map Prod.fst).Nodup := by
  rw [roll, List.map_flatMap]
  refine List.nodup_flatMap.2 ⟨fun p hp => hmaps p.1 p.2 (OrdMap.mem_entries.1 hp), ?_⟩
  refine (List.pairwise_map.1 hub.maps.nodup_keys).imp fun {p q} hne s hs hs' => hne ?_
  obtain ⟨⟨_, t⟩, ht, rfl⟩ := List.mem_map.1 hs
  obtain ⟨⟨_, t'⟩, ht', heq⟩ := List.mem_map.1 hs'
  cases heq
  have hscope := (MapScope.mem_roll.1 ht).1
  rw [(MapScope.mem_roll.1 ht').1] at hscope
  exact (congrArg ScopeId.map hscope).symm

/-- No seat is twice on the roll of a global scope. -/
theorem GlobalScope.nodup_roll {x : GlobalScope} (g : Word)
    (hhubs : ∀ h hub, x.hubs.find? h = some hub → ((hub.roll g h).map Prod.fst).Nodup) :
    ((x.roll g).map Prod.fst).Nodup := by
  rw [roll, List.map_flatMap]
  refine List.nodup_flatMap.2 ⟨fun p hp => hhubs p.1 p.2 (OrdMap.mem_entries.1 hp), ?_⟩
  refine (List.pairwise_map.1 x.hubs.nodup_keys).imp fun {p q} hne s hs hs' => hne ?_
  obtain ⟨⟨_, t⟩, ht, rfl⟩ := List.mem_map.1 hs
  obtain ⟨⟨_, t'⟩, ht', heq⟩ := List.mem_map.1 hs'
  cases heq
  have hhub := (HubScope.mem_roll.1 ht).1.2
  rw [(HubScope.mem_roll.1 ht').1.2] at hhub
  exact hhub.symm

namespace Machine

open Thread

/-- The host asks to be told of the beginnings and the ends of threads. -/
structure Watched (m : Machine) : Prop where
  start : m.hooks.has .threadStart = true
  stop : m.hooks.has .threadStop = true

/-- The census fits the machine and the threads that run, the innermost first. -/
def Counted (m : Machine) (stack : List Thread) (c : Census) : Prop := c.Fits m.sitter? stack m.reports

variable {m m' : Machine} {c c' : Census} {stack : List Thread} {scope : ScopeId} {i j : Nat}
  {t t' u u' : Thread}

/-- Whether threads are watched is seen from the services. -/
theorem Watched.of_tools (h : m.Watched) (htools : m'.tools = m.tools) : m'.Watched := by
  have hhooks : m'.hooks = m.hooks := congrArg (fun x => x.2.1) htools
  exact ⟨by rw [hhooks]; exact h.start, by rw [hhooks]; exact h.stop⟩

/-- A stop is told where threads are watched. -/
theorem Watched.reports_stop (h : m.Watched) (t : Thread) :
    (m.report .threadStop (.threadStop t)).reports = .threadStop t :: m.reports := by
  rw [report, if_pos h.stop]
  rfl

/-- The count looks at threads and reports only. -/
theorem Counted.of_eq (h : m.Counted stack c) (hthreads : m'.threadsAt = m.threadsAt)
    (hreports : m'.reports = m.reports) : m'.Counted stack c := by
  have hsit : m'.sitter? = m.sitter? := by
    funext s
    rw [sitter?, sitter?, hthreads]
  rw [Counted, hsit, hreports]
  exact h

/-- The threads of coherent machines differ by their seats. -/
theorem Coherent.distinct (hm : m.Coherent) : m.Distinct := by
  intro scope i
  rw [threadsAt, ScopeTree.module?_eq]
  cases hmap : m.scopes.map? scope with
  | none => exact .nil
  | some map =>
    cases hx : map.modules[i]? with
    | none => simp [hx]
    | some x => simpa [hx] using (hm scope map hmap).distinct x (List.mem_of_getElem? hx)

/-! ## The pieces of scripts -/

/-- A new thread is none that stands in for another. -/
theorem real_of_make? {id : Word} {x : LoadedModule} {args : List Word} {info : ThreadInfo}
    (h : Thread.make? id x scope i j args info = some t) :
    t.isPlaceholder = false ∧ t.state ≠ .inactive := by
  obtain ⟨script, -, rfl⟩ := Option.map_eq_some_iff.1 h
  exact ⟨rfl, nofun⟩

/-- A new thread sits in a new seat. -/
theorem Coherent.sitter?_spawn {map : MapScope} {place : ModuleScope} {args : List Word}
    {info : ThreadInfo} (hm : m.Coherent) (hmap : m.scopes.map? scope = some map)
    (hplace : map.modules[i]? = some place)
    (ht : Thread.make? map.nextThreadId place.module scope i j args info = some t) (takesName : Bool) :
    m.sitter? ⟨scope, i, t.id⟩ = none ∧ (m.spawn scope i j args info takesName).2.sitter? =
      Function.update m.sitter? ⟨scope, i, t.id⟩ (some t) := by
  have hmodule : m.scopes.module? scope i = some place := by
    rw [ScopeTree.module?_eq, hmap]
    exact hplace
  have hthreads : m.threadsAt scope i = place.threads := by
    rw [threadsAt, hmodule]
    rfl
  have hnone : m.sitter? ⟨scope, i, t.id⟩ = none := by
    refine List.find?_eq_none.2 fun u hu hid => ?_
    rw [hthreads] at hu
    have hlt := (hm scope map hmap).below place (List.mem_of_getElem? hplace) u hu
    rw [eq_of_beq hid, make?_id ht] at hlt
    exact UInt32.lt_irrefl _ hlt
  refine ⟨hnone, ?_⟩
  have hat := threadsAt_modifyMap (i := i) (g := (· ++ [t])) (spawn_scopes hmap hplace ht takesName)
    (fun h => by cases hmodule.symm.trans h) fun map' hmap' => by
      cases hmap.symm.trans hmap'
      exact withThread_modules ..
  funext s
  obtain ⟨id, n, k⟩ := s
  rw [sitter?, hat]
  by_cases hs : (⟨id, n, k⟩ : Seat) = ⟨scope, i, t.id⟩
  · cases hs
    rw [Function.update_self, if_pos ⟨rfl, rfl⟩, List.find?_append,
      show (m.threadsAt scope i).find? _ = none from hnone]
    simp
  · rw [Function.update_of_ne hs]
    split
    · rename_i hplace'
      obtain ⟨rfl, rfl⟩ := hplace'
      have hne : (t.id == k) = false := by
        rw [beq_eq_false_iff_ne]
        rintro rfl
        exact hs rfl
      rw [List.find?_append]
      simp [hne, sitter?]
    · rfl

/-- A new thread is counted. -/
theorem Counted.spawn {map : MapScope} {place : ModuleScope} {args : List Word} {info : ThreadInfo}
    (h : m.Counted stack c) (hm : m.Coherent) (hwatched : m.Watched)
    (hmap : m.scopes.map? scope = some map) (hplace : map.modules[i]? = some place)
    (ht : Thread.make? map.nextThreadId place.module scope i j args info = some t) (takesName : Bool) :
    ∃ c', c.Steps c' ∧ (m.spawn scope i j args info takesName).2.Counted stack c' := by
  obtain ⟨hnone, hsit⟩ := hm.sitter?_spawn hmap hplace ht takesName
  obtain ⟨hreal, hawake⟩ := real_of_make? ht
  have hreports : (m.spawn scope i j args info takesName).2.reports = .threadStart t :: m.reports := by
    have hfind : ((withThread map i t takesName).modules[i]?).bind (·.thread? map.nextThreadId) =
        some t := by
      have hself : (m.spawn scope i j args info takesName).2.sitter? ⟨scope, i, t.id⟩ = some t := by
        rw [hsit, Function.update_self]
      rw [sitter?, threads_spawn hmap hplace ht] at hself
      rw [withThread_modules, ← make?_id ht]
      simpa [hplace, ModuleScope.thread?] using hself
    rw [spawn_eq hmap hplace ht]
    simp only [hfind]
    rw [report, if_pos (by exact hwatched.start)]
    rfl
  obtain ⟨c', hsteps, hfits⟩ := Census.Fits.start h hnone hreal hawake
  refine ⟨c', hsteps, ?_⟩
  rw [Counted, hsit, hreports]
  exact hfits

/-- Variables leave threads alone. -/
theorem threadsAt_modifyVars (m : Machine) (level : Level) (id : ScopeId) (n : Nat) (f : Vars → Vars) :
    ({ m with scopes := m.scopes.modifyVars level id n f } : Machine).threadsAt = m.threadsAt := by
  funext scope i
  rw [threadsAt, threadsAt, ScopeTree.module?_eq, ScopeTree.module?_eq, ScopeTree.map?_modifyVars]
  split
  · rename_i hid
    rw [hid.2]
    cases m.scopes.map? id with
    | none => rfl
    | some map =>
      simp only [Option.map_some, Option.bind_some, MapScope.modifyModule, List.getElem?_modify]
      cases map.modules[i]? with
      | none => rfl
      | some x =>
        by_cases hn : n = i <;> simp [hn]
  · rfl

/-- **The pieces of scripts.** -/
theorem Stirs.counted (hstirs : m.Stirs m') (hm : m.Coherent) (hled : m.Led)
    (hfresh : ¬ m'.Exhausted) (hwatched : m.Watched) (h : m.Counted stack c) :
    ∃ c', c.Steps c' ∧ m'.Counted stack c' := by
  induction hstirs generalizing c with
  | refl m => exact ⟨c, .refl c, h⟩
  | trans h₁ h₂ ih ih' =>
    have hfresh₁ := fun he => hfresh (Exhausted.mono h₂.evolves.trace he)
    obtain ⟨c₁, hsteps, hc₁⟩ := ih hm hled hfresh₁ hwatched h
    obtain ⟨c₂, hsteps', hc₂⟩ := ih' (hm.evolve hled h₁.evolves hfresh₁)
      (hled.evolve h₁.evolves.scopes) hfresh (hwatched.of_tools h₁.tools) hc₁
    exact ⟨c₂, hsteps.trans hsteps', hc₂⟩
  | note m he => exact ⟨c, .refl c, h.of_eq rfl (reports_emit m he)⟩
  | aside => exact ⟨c, .refl c, h.of_eq rfl rfl⟩
  | vars m level id n f => exact ⟨c, .refl c, h.of_eq (threadsAt_modifyVars ..) rfl⟩
  | @restate m scope i f hf =>
    have hnil : f [] = [] := List.forall₂_nil_left_iff.1 (hf [])
    have hat : ∀ id n, ({ m with scopes := m.scopes.modifyModule scope i fun s =>
        { s with threads := f s.threads } } : Machine).threadsAt id n =
        if id = scope ∧ n = i then f (m.threadsAt id n) else m.threadsAt id n :=
      threadsAt_modifyMap rfl (fun _ => hnil) fun map _ => rfl
    refine ⟨c, .refl c, Census.Fits.restate h fun s => ?_⟩
    rw [sitter?, sitter?, hat]
    split
    · exact find?_restates (hf _) s.id
    · exact find?_restates (List.forall₂_same.2 fun t _ => .refl t) s.id
  | spawn hmap hplace ht hname => exact h.spawn hm hwatched hmap hplace ht _
  | stray hmap hslot hstray => exact absurd (hled _ _ hmap _ _ hslot) hstray

/-! ## Taking threads out and putting them back -/

/-- Another thread takes a seat. -/
theorem Rewrites.sitter?_eq_update {g : List Thread → List Thread} {w : Word} {v : Thread}
    (h : m.Rewrites scope i g m')
    (hg : g (m.threadsAt scope i) =
      (m.threadsAt scope i).modify ((m.threadsAt scope i).findIdx (·.id == w)) fun _ => v)
    (hv : v.id = w) (hu : m.sitter? ⟨scope, i, w⟩ = some u) :
    m'.sitter? = Function.update m.sitter? ⟨scope, i, w⟩ (some v) := by
  funext s
  rw [h.sitter? hg fun _ _ => hv, Function.update_apply]
  split
  · rename_i hs
    rw [hs, hu]
    rfl
  · rfl

/-- A thread is taken out of the tree to run. -/
theorem Counted.detach (h : m.Counted stack c) (hm : m.Distinct) {k : List Thread → Nat}
    (hu : (m.threadsAt scope i)[k (m.threadsAt scope i)]? = some u) (hreal : u.isPlaceholder = false)
    (hsame : u.Same u') (hawake : u'.state ≠ .inactive) :
    ∃ c', c.Steps c' ∧ (m.detach scope i k u.id).Counted (u' :: stack) c' := by
  have hsit := (rewrites_detach m scope i k u.id).sitter?_eq_update (w := u.id) (v := placeholder u.id)
    (by rw [hm.findIdx_eq hu]) rfl (hm.sitter? hu)
  obtain ⟨c', hsteps, hfits⟩ :=
    Census.Fits.take h (hm.sitter? hu) hreal hsame hawake (p := placeholder u.id) rfl
  exact ⟨c', hsteps, by rw [Counted, hsit]; exact hfits⟩

/-- A thread that ran takes its place again, or is gone. -/
theorem Counted.reattach (h : m.Counted (u :: stack) c) (hwatched : m.Watched) (scope : ScopeId)
    (i : Nat) : ∃ c', c.Steps c' ∧ (m.reattach scope i u).Counted stack c' := by
  rcases reattach_cases m scope i u with
    ⟨s, k, p, v, hs, hk, hid, hplace, hrestates, heq, hindex⟩ | ⟨-, -, hscopes, text, heq⟩
  · have hthreads : m.threadsAt scope i = s.threads := by
      rw [threadsAt, hs]
      rfl
    have hp : m.sitter? ⟨scope, i, u.id⟩ = some p := by
      rw [sitter?, hthreads, List.find?_eq_getElem?_findIdx, ← hindex]
      exact hk
    have hrewrites : m.Rewrites scope i (fun ts => ts.modify (ts.findIdx (·.id == u.id)) fun _ => v)
        (m.reattach scope i u) := by
      rw [heq]
      exact rewrites_modifyMap (List.modify_nil ..) rfl rfl (fun _ => rfl) (fun _ => rfl) fun _ => rfl
    have hsit := hrewrites.sitter?_eq_update rfl hrestates.stays.id hp
    obtain ⟨c', hsteps, hfits⟩ := Census.Fits.put h hp hplace hrestates
    refine ⟨c', hsteps, ?_⟩
    rw [Counted, hsit, heq]
    exact hfits
  · obtain ⟨c', hsteps, hfits⟩ := Census.Fits.lose h
    refine ⟨c', hsteps, ?_⟩
    have hsit : (m.reattach scope i u).sitter? = m.sitter? := by
      funext s
      rw [sitter?, sitter?, threadsAt_congr hscopes]
    have hreports : (m.reattach scope i u).reports =
        .threadStop { u with state := .stopped } :: m.reports := by
      rw [heq, report, if_pos (by exact hwatched.stop)]
      rfl
    rw [Counted, hsit, hreports]
    exact hfits

/-! ## What the scheduler does -/

/-- A thread that has ended leaves the tree. -/
theorem Counted.reap (h : m.Counted stack c) (hm : m.Distinct) (hwatched : m.Watched)
    (hu : (m.threadsAt scope i)[j]? = some u) (hreal : u.isPlaceholder = false)
    (hend : u.state.isFinished = true) : ∃ c', c.Steps c' ∧ (m.reap scope i j).Counted stack c' := by
  have hsit : (m.reap scope i j).sitter? = Function.update m.sitter? ⟨scope, i, u.id⟩ none := by
    funext s
    rw [hm.sitter?_reap hu, Function.update_apply]
  have hreports : (m.reap scope i j).reports = .threadStop u :: m.reports := by
    rw [getElem?_threadsAt] at hu
    simp only [Machine.reap, hu]
    rw [report, if_pos (by exact hwatched.stop)]
    rfl
  -- a thread that is not inactive has stopped
  obtain ⟨l, -, hhas⟩ := Census.Fits.has h (hm.sitter? hu) hreal
  have hstate : u.state = .stopped := by
    have hawake := hhas.awake
    cases hs : u.state <;> simp_all [ThreadState.isFinished]
  obtain ⟨c', hsteps, hfits⟩ := Census.Fits.stop h (hm.sitter? hu) hreal (.refl u) hstate
  refine ⟨c', hsteps, ?_⟩
  rw [Counted, hsit, hreports]
  exact hfits

/-- A thread waits on. -/
theorem Counted.wait (h : m.Counted stack c) (hm : m.Distinct) (hu : (m.threadsAt scope i)[j]? = some u)
    (hreal : u.isPlaceholder = false) (hsame : u.Same u') (hawake : u'.state ≠ .inactive) :
    (m.modifyThreadAt scope i j fun _ => u').Counted stack c := by
  have hsit := (rewrites_modifyThreadAt m scope i j fun _ => u').sitter?_eq_update
    (by rw [hm.findIdx_eq hu]) hsame.id (hm.sitter? hu)
  rw [Counted, hsit]
  exact Census.Fits.renew h (hm.sitter? hu) hreal hsame hawake

/-! ## Scopes that go -/

/-- Who sits in a seat is the thread there with its id. -/
theorem mem_threadsAt_iff (hm : m.Distinct) {s : Seat} :
    m.sitter? s = some t ↔ t ∈ m.threadsAt s.scope s.moduleIndex ∧ t.id = s.id := by
  refine ⟨mem_of_sitter?, fun ⟨ht, hid⟩ => ?_⟩
  obtain ⟨k, hk⟩ := List.getElem?_of_mem ht
  have hsit := hm.sitter? hk
  rw [hid] at hsit
  exact hsit

/-- The stops of threads are told one after another, but for placeholders. -/
theorem reports_stopThreads (hwatched : m.Watched) (threads : List Thread) :
    (m.stopThreads threads).reports = (threads.filter (!·.isPlaceholder)).foldl
      (fun reports t => .threadStop { t with state := .stopped } :: reports) m.reports := by
  unfold stopThreads
  generalize threads.filter (!·.isPlaceholder) = ts
  induction ts generalizing m with
  | nil => rfl
  | cons t ts ih =>
    rw [List.foldl_cons, List.foldl_cons, ih (hwatched.of_tools (report_tools ..)),
      hwatched.reports_stop]

/-- **Scopes go** with everything below them, and the ends of their threads are reported. -/
theorem Counted.freed {freed : ScopeId → Prop} [DecidablePred freed] {gone : List (Seat × Thread)}
    {tree : ScopeTree} (h : m.Counted stack c) (hwatched : m.Watched)
    (hmaps : ∀ id, tree.map? id = if freed id then none else m.scopes.map? id)
    (hgone : ∀ s t, (s, t) ∈ gone ↔ freed s.scope ∧ m.sitter? s = some t)
    (hnodup : (gone.map Prod.fst).Nodup) (strings : StringTable) (text : String) :
    ∃ c', c.Steps c' ∧ (({ m with scopes := tree, strings }.stopThreads (gone.map Prod.snd)).log .debug
      text).Counted stack c' := by
  obtain ⟨c', hsteps, hfits⟩ := Census.Fits.clear h (fun p hp => ((hgone p.1 p.2).1 hp).2) hnodup
  refine ⟨c', hsteps, ?_⟩
  have hsit : ({ m with scopes := tree, strings } : Machine).sitter? =
      fun s => if s ∈ gone.map Prod.fst then none else m.sitter? s := by
    funext s
    by_cases hs : freed s.scope
    · have hnone : ({ m with scopes := tree, strings } : Machine).sitter? s = none := by
        rw [sitter?, threadsAt, ScopeTree.module?_eq, hmaps, if_pos hs]
        rfl
      rw [hnone]
      split
      · rfl
      · rename_i hnot
        cases hold : m.sitter? s with
        | none => rfl
        | some t => exact absurd (List.mem_map.2 ⟨(s, t), (hgone s t).2 ⟨hs, hold⟩, rfl⟩) hnot
    · rw [if_neg]
      · rw [sitter?, sitter?, threadsAt, threadsAt, ScopeTree.module?_eq, ScopeTree.module?_eq, hmaps,
          if_neg hs]
      · intro hmem
        obtain ⟨⟨_, t⟩, ht, rfl⟩ := List.mem_map.1 hmem
        exact hs ((hgone _ t).1 ht).1
  have hwatched' : ({ m with scopes := tree, strings } : Machine).Watched := ⟨hwatched.start, hwatched.stop⟩
  have hcleared : ({ m with scopes := tree, strings }.stopThreads (gone.map Prod.snd)).Counted stack c' := by
    have hsit' : ({ m with scopes := tree, strings }.stopThreads (gone.map Prod.snd)).sitter? =
        ({ m with scopes := tree, strings } : Machine).sitter? := by
      funext s
      rw [sitter?, sitter?, threadsAt_congr (stopThreads_scopes ..)]
    rw [Counted, hsit', hsit, reports_stopThreads hwatched']
    exact hfits
  exact hcleared.of_eq rfl (reports_emit _ rfl)

/-- Who sits in a map. -/
theorem Distinct.mem_roll (hm : m.Distinct) {id : ScopeId} {map : MapScope}
    (hmap : m.scopes.map? id = some map) (s : Seat) (t : Thread) :
    (s, t) ∈ map.roll id ↔ s.scope = id ∧ m.sitter? s = some t := by
  rw [MapScope.mem_roll, mem_threadsAt_iff hm]
  refine and_congr_right fun hscope => ?_
  rw [threadsAt, hscope, ScopeTree.module?_eq, hmap, Option.bind_some, and_comm]
  cases map.modules[s.moduleIndex]? <;> simp

/-- No seat is twice on the roll of a map. -/
theorem Distinct.nodup_roll (hm : m.Distinct) {id : ScopeId} {map : MapScope}
    (hmap : m.scopes.map? id = some map) : ((map.roll id).map Prod.fst).Nodup := by
  refine map.nodup_roll id fun x hx => ?_
  obtain ⟨i, hi⟩ := List.getElem?_of_mem hx
  have hids := hm id i
  rw [threadsAt, ScopeTree.module?_eq, hmap, Option.bind_some, hi] at hids
  exact hids

/-- Who sits in a seat is in a map. -/
theorem exists_map_of_sitter? {s : Seat} (h : m.sitter? s = some t) :
    ∃ map, m.scopes.map? s.scope = some map := by
  rw [sitter?, threadsAt, ScopeTree.module?_eq] at h
  cases hmap : m.scopes.map? s.scope with
  | none => simp [hmap] at h
  | some map => exact ⟨map, rfl⟩

/-- Who sits in a hub. -/
theorem Distinct.mem_hub_roll (hm : m.Distinct) {g k : Word} {hub : HubScope}
    (hhub : m.scopes.hub? g k = some hub) (s : Seat) (t : Thread) :
    (s, t) ∈ hub.roll g k ↔ (s.scope.global = g ∧ s.scope.hub = k) ∧ m.sitter? s = some t := by
  rw [HubScope.mem_roll]
  refine and_congr_right fun ⟨hg, hk⟩ => ?_
  have hmaps : m.scopes.map? s.scope = hub.maps.find? s.scope.map := by
    rw [ScopeTree.map?, hg, hk, hhub]
    rfl
  rw [← hmaps]
  constructor
  · rintro ⟨map, hmap, ht⟩
    exact ((hm.mem_roll hmap s t).1 ht).2
  · intro ht
    obtain ⟨map, hmap⟩ := exists_map_of_sitter? ht
    exact ⟨map, hmap, (hm.mem_roll hmap s t).2 ⟨rfl, ht⟩⟩

/-- No seat of a hub of the machine is twice on its roll. -/
theorem Distinct.nodup_hub_roll (hm : m.Distinct) {g k : Word} {hub : HubScope}
    (hhub : m.scopes.hub? g k = some hub) : ((hub.roll g k).map Prod.fst).Nodup := by
  refine hub.nodup_roll g k fun n map hmap => hm.nodup_roll ?_
  rw [ScopeTree.map?, hhub]
  exact hmap

/-- Who sits in a global scope. -/
theorem Distinct.mem_global_roll (hm : m.Distinct) {g : Word} {x : GlobalScope}
    (hx : m.scopes.global? g = some x) (s : Seat) (t : Thread) :
    (s, t) ∈ x.roll g ↔ s.scope.global = g ∧ m.sitter? s = some t := by
  rw [GlobalScope.mem_roll]
  refine and_congr_right fun hg => ?_
  have hhubs : m.scopes.hub? g s.scope.hub = x.hubs.find? s.scope.hub := by
    rw [ScopeTree.hub?, hx]
    rfl
  rw [← hhubs]
  constructor
  · rintro ⟨hub, hhub, ht⟩
    exact ((hm.mem_hub_roll hhub s t).1 ht).2
  · intro ht
    obtain ⟨map, hmap⟩ := exists_map_of_sitter? ht
    rw [ScopeTree.map?, hg] at hmap
    obtain ⟨hub, hhub, -⟩ := Option.bind_eq_some_iff.1 hmap
    exact ⟨hub, hhub, (hm.mem_hub_roll hhub s t).2 ⟨⟨hg, rfl⟩, ht⟩⟩

/-- No seat of a global scope of the machine is twice on its roll. -/
theorem Distinct.nodup_global_roll (hm : m.Distinct) {g : Word} {x : GlobalScope}
    (hx : m.scopes.global? g = some x) : ((x.roll g).map Prod.fst).Nodup := by
  refine x.nodup_roll g fun k hub hhub => hm.nodup_hub_roll ?_
  rw [ScopeTree.hub?, hx]
  exact hhub

/-- **Freeing a scope** ends its threads. -/
theorem Counted.free (h : m.Counted stack c) (hm : m.Distinct) (hwatched : m.Watched) (level : Level)
    (id : ScopeId) : ∃ c', c.Steps c' ∧ (m.free level id).2.Counted stack c' := by
  have hmap : ∃ c', c.Steps c' ∧ (m.freeMap id).2.Counted stack c' := by
    unfold freeMap
    split
    · exact ⟨c, .refl c, h⟩
    · rename_i map hmap
      rw [← map.map_snd_roll id]
      exact h.freed hwatched (ScopeTree.map?_eraseMap id) (hm.mem_roll hmap) (hm.nodup_roll hmap) _ _
  cases level with
  | global =>
    simp only [Machine.free, freeGlobal]
    split
    · exact ⟨c, .refl c, h⟩
    · rename_i x hx
      rw [← x.map_snd_roll id.global]
      exact h.freed hwatched (ScopeTree.map?_eraseGlobal id.global) (hm.mem_global_roll hx)
        (hm.nodup_global_roll hx) _ _
  | hub =>
    simp only [Machine.free, freeHub]
    split
    · exact ⟨c, .refl c, h⟩
    · rename_i hub hhub
      rw [← hub.map_snd_roll id.global id.hub]
      exact h.freed hwatched (ScopeTree.map?_eraseHub id.global id.hub) (hm.mem_hub_roll hhub)
        (hm.nodup_hub_roll hhub) _ _
  | module => exact hmap
  | thread => exact hmap

/-! ## What leaves threads alone -/

/-- The threads in the tree and the reports stay as they are. -/
structure Spares (m m' : Machine) : Prop where
  threads : m'.threadsAt = m.threadsAt
  reports : m'.reports = m.reports

theorem Spares.refl (m : Machine) : m.Spares m := ⟨rfl, rfl⟩

theorem Spares.trans {m'' : Machine} (h : m.Spares m') (h' : m'.Spares m'') : m.Spares m'' :=
  ⟨h'.threads.trans h.threads, h'.reports.trans h.reports⟩

/-- Threads are spared where the tree is the same. -/
theorem Spares.of_scopes (hscopes : m'.scopes = m.scopes) (hreports : m'.reports = m.reports) :
    m.Spares m' :=
  ⟨threadsAt_congr hscopes, hreports⟩

/-- Maps stay, or are new and have no threads. -/
theorem Spares.of_map? (hmaps : ∀ id, m'.scopes.map? id = m.scopes.map? id ∨
      (m.scopes.map? id = none ∧ m'.scopes.map? id = some {})) (hreports : m'.reports = m.reports) :
    m.Spares m' := by
  refine ⟨funext fun id => funext fun i => ?_, hreports⟩
  rw [threadsAt, threadsAt, ScopeTree.module?_eq, ScopeTree.module?_eq]
  rcases hmaps id with heq | ⟨hnone, hnew⟩
  · rw [heq]
  · rw [hnone, hnew]
    rfl

/-- Where threads are spared, the count stays. -/
theorem Spares.counted (hm : m.Spares m') (h : m.Counted stack c) : m'.Counted stack c :=
  h.of_eq hm.threads hm.reports

theorem spares_ensureGlobal (m : Machine) (g : Word) : m.Spares (m.ensureGlobal g) := by
  unfold ensureGlobal
  split
  · exact .refl m
  · rename_i hnone
    have hnone : m.scopes.global? g = none := by simpa using hnone
    exact .of_map? (fun id => .inl (ScopeTree.map?_insertGlobal hnone id)) (reports_emit m rfl)

theorem spares_ensureHub (m : Machine) (g k : Word) : m.Spares (m.ensureHub g k) := by
  refine (spares_ensureGlobal m g).trans ?_
  simp only [ensureHub]
  split
  · exact .refl _
  · rename_i hnone
    have hnone : (m.ensureGlobal g).scopes.hub? g k = none := by simpa using hnone
    exact .of_map? (fun id => .inl (ScopeTree.map?_insertHub hnone id)) (reports_emit _ rfl)

theorem spares_ensureMap (m : Machine) (id : ScopeId) : m.Spares (m.ensureMap id) := by
  refine (spares_ensureHub m id.global id.hub).trans ?_
  simp only [ensureMap]
  split
  · exact .refl _
  · rename_i hnone
    have hnone : (m.ensureHub id.global id.hub).scopes.map? id = none := by simpa using hnone
    refine .of_map? (fun id' => ?_) (reports_emit _ rfl)
    have hmap := ScopeTree.map?_insertMap (s := (m.ensureHub id.global id.hub).scopes) id id'
    split at hmap
    · rename_i hid
      subst hid
      cases hhub : (m.ensureHub id'.global id'.hub).scopes.hub? id'.global id'.hub with
      | none =>
        rw [hhub] at hmap
        exact .inl (hmap.trans hnone.symm)
      | some hub =>
        rw [hhub] at hmap
        exact .inr ⟨hnone, hmap⟩
    · exact .inl hmap

theorem spares_ensure (m : Machine) (level : Level) (id : ScopeId) : m.Spares (m.ensure level id) := by
  cases level with
  | global => exact spares_ensureGlobal m id.global
  | hub => exact spares_ensureHub m id.global id.hub
  | module => exact spares_ensureMap m id
  | thread => exact spares_ensureMap m id

theorem spares_setActive (m : Machine) (level : Level) (id : ScopeId) (active : Bool) :
    m.Spares (m.setActive level id active) := by
  refine (spares_ensure m level id).trans ?_
  have hmap : (m.ensure level id).Spares { m.ensure level id with
      scopes := (m.ensure level id).scopes.modifyMap id fun x => { x with active } } := by
    refine ⟨funext fun id' => funext fun i => ?_, rfl⟩
    rw [threadsAt_modifyMap (i := i) (g := fun ts => ts) rfl (fun _ => rfl) fun map _ => ?_]
    · split <;> rfl
    · exact (List.modify_id ..).symm
  cases level with
  | global =>
    refine .of_map? (fun id' => .inl ?_) rfl
    exact ScopeTree.map?_modifyGlobal_of_hubs (f := fun x => { x with active }) _ (fun _ => rfl) id'
  | hub =>
    refine .of_map? (fun id' => .inl ?_) rfl
    exact ScopeTree.map?_modifyHub_of_maps (f := fun x => { x with active }) _ (fun _ => rfl) id'
  | module => exact hmap
  | thread => exact hmap

/-- New module scopes have no threads. -/
theorem spares_registerAll (m : Machine) (scope : ScopeId) (modules : List LoadedModule) :
    m.Spares (m.registerAll scope modules).2 := by
  induction modules generalizing m with
  | nil => exact .refl m
  | cons x rest ih =>
    unfold registerAll
    split
    · exact .refl m
    · rename_i map hmap
      refine Spares.trans ?_ (ih { m with scopes := m.scopes.modifyMap scope fun _ => (map.addModule x).2 })
      refine ⟨funext fun id => funext fun i => ?_, rfl⟩
      rw [threadsAt, threadsAt, ScopeTree.module?_eq, ScopeTree.module?_eq, ScopeTree.map?_modifyMap]
      split
      · rename_i hid
        subst hid
        rw [hmap, Option.map_some, Option.bind_some, Option.bind_some, MapScope.addModule]
        split
        · rfl
        · simp only
          rw [List.getElem?_append]
          split
          · rfl
          · rename_i hlen
            rw [List.getElem?_eq_none (Nat.le_of_not_lt hlen)]
            cases i - map.modules.length <;> rfl
      · rfl

theorem spares_collectStrings (m : Machine) : m.Spares m.collectStrings.2 := by
  refine .of_scopes (collectStrings_scopes m) ?_
  unfold collectStrings
  split
  · rfl
  · exact (reports_emit _ rfl).trans ((reports_emit _ rfl).trans (reports_report m .references rfl))

theorem spares_save (m : Machine) : m.Spares m.save.2 := by
  refine .of_scopes (save_scopes m) ?_
  unfold save
  split
  · rfl
  · simp only
    split
    · split <;> rfl
    · rfl

end Machine

end ScriptMachine
