import ScriptMachine.Proofs.Machine.Coherence
import ScriptMachine.Proofs.Scope.Order

/-!
# Turns and ticks keep the order

Scripts that call built-in functions only leave the scopes where they are, and every map in order
(`Machine.Ordered`) and larger than before (`Machine.Widens`).  A thread that is out of the tree for its
turn therefore finds its placeholder again at the very place it was taken from
(`Machine.Ordered.reattach`), and a tick, which also removes threads that have ended, keeps the order
(`Ticks.ordered`).

The host does not interfere: what it may do is given by the rule `Never`.
-/

namespace ScriptMachine

/-- No change is allowed. -/
def Never : ChangeRule := fun _ _ _ _ => False

namespace MapScope

variable {R : Nat → Nat → Thread → Thread → Prop} {id : ScopeId} {m m' : MapScope}

/-- No placeholder stands in the map. -/
def Filled (m : MapScope) : Prop := ∀ s ∈ m.modules, ∀ t ∈ s.threads, t.isPlaceholder = false

/-- Where threads stay what they are, no placeholder comes into being. -/
theorem Extends.filled (h : m.Extends R m')
    (hR : ∀ {i k t t'}, R i k t t' → t.isPlaceholder = false → t'.isPlaceholder = false)
    (hm : m.Filled) : m'.Filled := by
  intro s' hs' t' ht'
  obtain ⟨i, hi⟩ := List.getElem?_of_mem hs'
  have hlt : i < m.modules.length := h.length ▸ (List.getElem?_eq_some_iff.1 hi).1
  obtain ⟨s'', hs'', hext⟩ := h.module i _ (List.getElem?_eq_getElem hlt)
  cases hi.symm.trans hs''
  obtain ⟨k, hk⟩ := List.getElem?_of_mem ht'
  by_cases hlen : m.modules[i].threads.length ≤ k
  · exact (hext.new k t' hlen hk).2
  · have hold := List.getElem?_eq_getElem (Nat.lt_of_not_le hlen)
    obtain ⟨t'', ht'', hr⟩ := hext.old k _ hold
    cases hk.symm.trans ht''
    exact hR hr (hm _ (List.getElem_mem hlt) _ (List.mem_of_getElem? hold))

/-- Slots of a map in order lead to scripts. -/
theorem Ordered.leads (h : m.Ordered id) {name : ScriptName} {slot : ScriptSlot}
    (hslot : m.slots.find? name = some slot) : m.Leads slot := by
  obtain ⟨q, x, hq, hx, -⟩ := h.declared.leads name slot hslot
  rw [plan, List.getElem?_map] at hq
  obtain ⟨s, hs, rfl⟩ := Option.map_eq_some_iff.1 hq
  exact ⟨s, hs, (Array.getElem?_eq_some_iff.1 hx).1⟩

/-- Threads of a module are put into states. -/
theorem Ordered.restate (h : m.Ordered id) (i : Nat) {f : List Thread → List Thread}
    (hf : ∀ ts, List.Forall₂ Thread.Restates ts (f ts)) :
    (m.modifyModule i fun s => { s with threads := f s.threads }).Ordered id ∧
      m.Grows (m.modifyModule i fun s => { s with threads := f s.threads }) := by
  constructor
  · refine h.of_plan (plan_modifyModule_of_eq (fun _ => rfl) fun s _ => ?_) rfl rfl
    have hroles : ∀ {ts ts' : List Thread}, List.Forall₂ Thread.Restates ts ts' →
        ts'.map Thread.role = ts.map Thread.role := by
      intro ts ts' hts
      induction hts with
      | nil => rfl
      | cons hr _ ih => rw [List.map_cons, List.map_cons, ih, hr.same.role_eq]
    exact hroles (hf s.threads)
  · refine .modifyThreads (fun _ => rfl) (fun _ _ t => .refl t) fun s _ => ?_
    have hlen := (hf s.threads).length_eq
    refine ⟨hlen.symm, fun k t ht => ?_⟩
    obtain ⟨hk, rfl⟩ := List.getElem?_eq_some_iff.1 ht
    exact ⟨_, List.getElem?_eq_getElem (hlen ▸ hk), (hf s.threads).get hk (hlen ▸ hk)⟩

/-- A thread that resumes at the end of its list was not there before: those that were stay what they
are. -/
theorem Grows.trans_resumes {m'' : MapScope} {i : Nat} {s s' : ModuleScope} {v w : Thread}
    (h : m.Grows m') (hs : m.modules[i]? = some s) (hs' : m'.modules[i]? = some s')
    (hv : s'.threads[s.threads.length]? = some v) (hsame : v.Same w)
    (h' : m'.Extends (Resumes i s.threads.length w) m'') : m.Grows m'' := by
  refine Extends.trans h h' (fun n k x t t' t'' hx ht hr hr' => ?_) fun n k x t' t'' hx ht' hr' => ?_
  · refine hr.trans ?_
    rw [Resumes, if_neg] at hr'
    · exact hr'
    · rintro ⟨rfl, rfl⟩
      cases hs.symm.trans hx
      exact Nat.lt_irrefl _ (List.getElem?_eq_some_iff.1 ht).1
  · rw [Resumes] at hr'
    split at hr'
    · rename_i hnk
      obtain ⟨rfl, rfl⟩ := hnk
      cases hs'.symm.trans hx
      cases hv.symm.trans ht'
      rw [hr']
      exact ⟨hsame.id, hsame.isPlaceholder_eq⟩
    · exact ⟨hr'.same.id, hr'.same.isPlaceholder_eq⟩

/-- Variables of a module change. -/
theorem Ordered.modifyVars (h : m.Ordered id) (i : Nat) (f : Vars → Vars) :
    (m.modifyModule i fun s => { s with vars := f s.vars }).Ordered id ∧
      m.Grows (m.modifyModule i fun s => { s with vars := f s.vars }) :=
  ⟨h.of_plan (plan_modifyModule_of_eq (fun _ => rfl) fun _ _ => rfl) rfl rfl,
    .modifyThreads (fun _ => rfl) (fun _ _ t => .refl t) fun _ _ =>
      ⟨rfl, fun _ t ht => ⟨t, ht, .refl t⟩⟩⟩

end MapScope

namespace Machine

open MapScope Thread

/-- Every map is in order. -/
def Ordered (m : Machine) : Prop := ∀ id map, m.scopes.map? id = some map → map.Ordered id

/-- No placeholder stands in the tree. -/
def Filled (m : Machine) : Prop := ∀ id map, m.scopes.map? id = some map → map.Filled

/-- Scopes stay, and so do the threads of every map, related by `R`; others come behind them. -/
structure WidensBy (R : ScopeId → Nat → Nat → Thread → Thread → Prop) (m m' : Machine) : Prop where
  tick : m'.tick = m.tick
  shape : m'.scopes.shape = m.scopes.shape
  maps : ∀ id map, m.scopes.map? id = some map →
    ∃ map', m'.scopes.map? id = some map' ∧ map.Extends (R id) map'

/-- Scopes stay, and every map grows. -/
abbrev Widens (m m' : Machine) : Prop := m.WidensBy (fun _ _ _ => Thread.Restates) m'

variable {R : ScopeId → Nat → Nat → Thread → Thread → Prop} {m m' m'' : Machine} {t t' : Thread}

/-- A machine that stays as it is widens. -/
theorem Widens.refl (m : Machine) : m.Widens m :=
  ⟨rfl, rfl, fun _ map hmap => ⟨map, hmap, MapScope.Grows.refl map⟩⟩

theorem Widens.trans (h : m.Widens m') (h' : m'.Widens m'') : m.Widens m'' := by
  refine ⟨h'.tick.trans h.tick, h'.shape.trans h.shape, fun id map hmap => ?_⟩
  obtain ⟨map', hmap', hgrows⟩ := h.maps id map hmap
  obtain ⟨map'', hmap'', hgrows'⟩ := h'.maps id map' hmap'
  exact ⟨map'', hmap'', MapScope.Grows.trans hgrows hgrows'⟩

/-- The order is one of the tree. -/
theorem Ordered.of_scopes (h : m.Ordered) (hscopes : m'.scopes = m.scopes) : m'.Ordered :=
  fun id map hmap => h id map (hscopes ▸ hmap)

/-- A tree that stays as it is widens. -/
theorem Widens.of_scopes (htick : m'.tick = m.tick) (hscopes : m'.scopes = m.scopes) :
    m.Widens m' :=
  ⟨htick, hscopes ▸ rfl, fun _ map hmap => ⟨map, hscopes ▸ hmap, MapScope.Grows.refl map⟩⟩

/-- One map changes. -/
theorem Ordered.modifyMap {scope : ScopeId} {f : MapScope → MapScope} (h : m.Ordered)
    (hscopes : m'.scopes = m.scopes.modifyMap scope f)
    (hf : ∀ map, m.scopes.map? scope = some map → (f map).Ordered scope) : m'.Ordered := by
  intro id map hmap
  rw [hscopes] at hmap
  exact ScopeTree.forall_modifyMap h hf id map hmap

/-- One map is extended. -/
theorem WidensBy.modifyMap {scope : ScopeId} {f : MapScope → MapScope} (htick : m'.tick = m.tick)
    (hscopes : m'.scopes = m.scopes.modifyMap scope f)
    (hR : ∀ id map, id ≠ scope → m.scopes.map? id = some map → map.Extends (R id) map)
    (hf : ∀ map, m.scopes.map? scope = some map → map.Extends (R scope) (f map)) :
    m.WidensBy R m' := by
  refine ⟨htick, ?_, fun id map hmap => ?_⟩
  · rw [hscopes]
    exact ScopeTree.shape_modifyMap fun map hmap => (hf map hmap).active
  · rw [hscopes, ScopeTree.map?_modifyMap]
    split
    · rename_i hid
      subst hid
      exact ⟨f map, by rw [hmap]; rfl, hf map hmap⟩
    · rename_i hid
      exact ⟨map, hmap, hR id map hid hmap⟩

/-! ## The pieces of scripts -/

/-- **The pieces of scripts** keep the order and let maps grow, while ids do not go round. -/
theorem Stirs.orderly (h : m.Stirs m') (hm : m.Ordered) (hfresh : ¬ m'.Exhausted) :
    m'.Ordered ∧ m.Widens m' := by
  have hone : ∀ {m m' : Machine} {scope : ScopeId} {f : MapScope → MapScope}, m.Ordered →
      m'.tick = m.tick → m'.scopes = m.scopes.modifyMap scope f →
      (∀ map, m.scopes.map? scope = some map → (f map).Ordered scope ∧ map.Grows (f map)) →
      m'.Ordered ∧ m.Widens m' := fun hm htick hscopes hf =>
    ⟨hm.modifyMap hscopes fun map hmap => (hf map hmap).1,
      .modifyMap htick hscopes (fun _ map _ _ => MapScope.Grows.refl map) fun map hmap => (hf map hmap).2⟩
  induction h with
  | refl m => exact ⟨hm, .refl m⟩
  | trans _ h₂ ih ih' =>
    obtain ⟨hm₂, hwidens⟩ := ih hm fun he => hfresh (he.mono h₂.evolves.trace)
    obtain ⟨hm₃, hwidens'⟩ := ih' hm₂ hfresh
    exact ⟨hm₃, hwidens.trans hwidens'⟩
  | note => exact ⟨hm.of_scopes rfl, .of_scopes rfl rfl⟩
  | aside => exact ⟨hm.of_scopes rfl, .of_scopes rfl rfl⟩
  | vars m level id i f =>
    cases level with
    | module => exact hone hm rfl rfl fun map hmap => (hm id map hmap).modifyVars i f
    | thread => exact ⟨hm.of_scopes rfl, .of_scopes rfl rfl⟩
    | hub =>
      have hmaps : ∀ id', (m.scopes.modifyVars .hub id i f).map? id' = m.scopes.map? id' := by
        intro id'
        rw [ScopeTree.map?_modifyVars]
        simp
      exact ⟨fun id' map hmap => hm id' map (hmaps id' ▸ hmap), rfl, ScopeTree.shape_modifyVars ..,
        fun id' map hmap => ⟨map, (hmaps id').trans hmap, MapScope.Grows.refl map⟩⟩
    | global =>
      have hmaps : ∀ id', (m.scopes.modifyVars .global id i f).map? id' = m.scopes.map? id' := by
        intro id'
        rw [ScopeTree.map?_modifyVars]
        simp
      exact ⟨fun id' map hmap => hm id' map (hmaps id' ▸ hmap), rfl, ScopeTree.shape_modifyVars ..,
        fun id' map hmap => ⟨map, (hmaps id').trans hmap, MapScope.Grows.refl map⟩⟩
  | restate m scope i hf => exact hone hm rfl rfl fun map hmap => (hm scope map hmap).restate i hf
  | @spawn m map place scope i j args info takesName v hmap hplace ht hname =>
    have hlast : map.nextThreadId ≠ 0xFFFFFFFF := fun h =>
      hfresh (exhausted_spawn hmap hplace ht takesName h)
    have hreal : v.isPlaceholder = false := by
      have hmodule := (owned_of_make? ht).fits.module
      cases hx : v.module with
      | none => rw [hx] at hmodule; cases hmodule
      | some x => rw [isPlaceholder, hx]; rfl
    refine hone hm (evolves_spawn hmap hplace ht takesName).tick (spawn_scopes hmap hplace ht takesName)
      fun map' hmap' => ?_
    cases hmap.symm.trans hmap'
    exact ⟨(hm scope map hmap).withThread hplace ht hlast hname,
      grows_withThread (make?_id ht) hreal hlast takesName⟩
  | stray hmap hslot hstray => exact absurd ((hm _ _ hmap).leads hslot) hstray

/-! ## Taking threads out and putting them back -/

/-- The thread at this place is now `v`; all others are as they were but for their states. -/
def After (scope : ScopeId) (i k : Nat) (v : Thread) (id : ScopeId) :
    Nat → Nat → Thread → Thread → Prop :=
  if id = scope then Resumes i k v else fun _ _ => Thread.Restates

section

variable {scope : ScopeId} {i : Nat} {s : ModuleScope} {u u' : Thread} {j : List Thread → Nat}
  (hs : m.scopes.module? scope i = some s) (hu : s.threads[j s.threads]? = some u) (hm : m.Ordered)
include hs

/-- What is seen of the map while the thread is out. -/
theorem map?_detach : ∃ map, m.scopes.map? scope = some map ∧ map.modules[i]? = some s ∧
    (m.detach scope i j u.id).scopes.map? scope = some (map.modifyModule i fun x =>
      { x with threads := x.threads.modify (j s.threads) fun _ => placeholder u.id }) := by
  obtain ⟨map, hmap, hat⟩ := Option.bind_eq_some_iff.1 hs
  refine ⟨map, hmap, hat, ?_⟩
  simp only [Machine.detach, ScopeTree.modifyModule, ScopeTree.map?_modifyMap, if_true, hmap,
    Option.map_some]
  exact congrArg some (modifyModule_congr hat rfl)

include hu hm

/-- Taking a thread out leaves the order. -/
theorem Ordered.detach : (m.detach scope i j u.id).Ordered := by
  refine hm.modifyMap rfl fun map hmap => ?_
  obtain ⟨map', hmap', hat⟩ := Option.bind_eq_some_iff.1 hs
  cases hmap.symm.trans hmap'
  rw [modifyModule_congr (g := fun x =>
    { x with threads := x.threads.modify (j s.threads) fun _ => placeholder u.id }) hat rfl]
  exact (hm scope map hmap).detach hat hu

/-- **A thread that ran is put back** where it was taken from, and the machine is in order. -/
theorem Ordered.reattach (hwidens : (m.detach scope i j u.id).Widens m') (hm' : m'.Ordered)
    (hsame : u.Same u') : ∃ v, Stays u' v ∧ (m'.reattach scope i u').Ordered ∧
      m.WidensBy (After scope i (j s.threads) v) (m'.reattach scope i u') := by
  obtain ⟨map, hmap, hat, hout⟩ := map?_detach (u := u) (j := j) hs
  obtain ⟨map', hmap', hgrows⟩ := hwidens.maps scope _ hout
  obtain ⟨s', hs', hx, p, hp, hid, hplace⟩ := MapScope.Grows.placeholder hat hu hgrows
  have hs'' : m'.scopes.module? scope i = some s' := by
    rw [ScopeTree.module?_eq, hmap']
    exact hs'
  have hk : s'.threads.findIdx (·.id == u'.id) = j s.threads := by
    rw [hsame.id, ← hid]
    exact findIdx_id_eq ((hm' scope map' hmap').staffed.nodup_ids hs') hp
  rcases reattach_cases m' scope i u' with
    ⟨s₀, k, p₀, v, hs₀, -, -, -, hrestates, heq, -⟩ | ⟨hreal, -⟩
  · have hstays := hrestates.stays
    have hplaced : ∀ map₀, m'.scopes.map? scope = some map₀ → (map₀.modifyModule i fun x =>
        { x with threads := x.threads.modify (x.threads.findIdx (·.id == u'.id)) fun _ => v }) =
        map'.modifyModule i fun x => { x with threads := x.threads.modify (j s.threads) fun _ => v } := by
      intro map₀ hmap₀
      cases hmap'.symm.trans hmap₀
      exact modifyModule_congr hs' (by rw [hk])
    rw [heq]
    refine ⟨v, hstays, hm'.modifyMap rfl fun map₀ hmap₀ => ?_, hwidens.tick, ?_,
      fun id map₀ hmap₀ => ?_⟩
    · rw [hplaced map₀ hmap₀]
      exact MapScope.Ordered.resume hat hu hgrows (hm scope map hmap) (hm' scope map' hmap')
        (hsame.trans hstays.same)
    · exact (ScopeTree.shape_modifyModule ..).trans
        (hwidens.shape.trans (ScopeTree.shape_modifyModule ..))
    · simp only [ScopeTree.modifyModule, ScopeTree.map?_modifyMap]
      by_cases hscope : id = scope
      · subst hscope
        cases hmap.symm.trans hmap₀
        refine ⟨_, by rw [if_pos rfl, hmap', Option.map_some, hplaced map' hmap'], ?_⟩
        rw [After, if_pos rfl]
        exact .resume hat hu hgrows
      · rw [if_neg hscope, After, if_neg hscope]
        refine hwidens.maps id map₀ ?_
        simp only [Machine.detach, ScopeTree.modifyModule, ScopeTree.map?_modifyMap, if_neg hscope]
        exact hmap₀
  · have hfind : s'.threads.find? (·.id == u'.id) = some p := by
      rw [List.find?_eq_getElem?_findIdx, hk]
      exact hp
    rw [hreal s' p hs'' hfind] at hplace
    cases hplace

end

/-! ## Turns -/

/-- The trace only grows in a turn. -/
theorem Acts.trace (h : Acts Never m t m' t') : m.trace <:+ m'.trace := by
  induction h with
  | stir h => exact h.evolves.trace
  | proceed _ => exact List.suffix_refl _
  | host h => exact h.elim
  | trans _ _ ih ih' => exact ih.trans ih'
  | @result m m' t u u' v map place scope i j args info takesName hmap hplace hv hname hu hid _ ih =>
    have hback := trace_reattach { m' with executing := m.executing } scope i u'
    exact ((evolves_spawn hmap hplace hv takesName).trace.trans ih).trans hback

section

variable {map : MapScope} {place : ModuleScope} {scope : ScopeId} {i j : Nat} {u v w : Thread}
  {args : List Word} {info : ThreadInfo} {takesName : Bool}

/-- A name that leads somewhere leads to a script that can be started. -/
theorem Ordered.exists_make? (hm : m.Ordered) {name : ScriptName} {slot : ScriptSlot}
    (hslot : m.resolveScript? scope name = some slot) (args : List Word) (info : ThreadInfo) :
    ∃ map place v, m.scopes.map? scope = some map ∧ map.slots.find? name = some slot ∧
      map.modules[slot.moduleIndex]? = some place ∧
      Thread.make? map.nextThreadId place.module scope slot.moduleIndex slot.scriptIndex args info =
        some v := by
  obtain ⟨map, hmap, hfind⟩ := Option.bind_eq_some_iff.1 hslot
  obtain ⟨place, hplace, hlt⟩ := (hm scope map hmap).leads hfind
  have hscript : (map.script? slot.moduleIndex slot.scriptIndex).isSome = true := by
    simp [MapScope.script?, hplace, hlt]
  obtain ⟨v, hv⟩ := Machine.exists_make? hplace hscript map.nextThreadId scope args info
  exact ⟨map, place, v, hmap, hfind, hplace, hv⟩

/-- A thread that is started for its result stands at the end of its list, in order, and is taken out
in order. -/
theorem Ordered.started (hm : m.Ordered) (hmap : m.scopes.map? scope = some map)
    (hplace : map.modules[i]? = some place)
    (hv : Thread.make? map.nextThreadId place.module scope i j args info = some v)
    (hname : takesName = true → map.Single i j)
    (hu : (place.threads ++ [v]).find? (·.id == u.id) = some u) (hid : u.id = v.id)
    (hfresh : ¬ (m.spawn scope i j args info takesName).2.Exhausted) :
    u = v ∧ (place.threads ++ [v]).findIdx (·.id == u.id) = place.threads.length ∧
      (m.spawn scope i j args info takesName).2.Ordered ∧
      ((m.spawn scope i j args info takesName).2.detach scope i
        (fun ts => ts.findIdx (·.id == u.id)) u.id).Ordered := by
  have hspawned := ((Stirs.spawn hmap hplace hv hname).orderly hm hfresh).1
  have hlast := module?_spawn hmap hplace hv takesName
  obtain ⟨map₁, hmap₁, hat₁⟩ := Option.bind_eq_some_iff.1 hlast
  have hend : (place.threads ++ [v])[place.threads.length]? = some v := by simp
  have hindex : (place.threads ++ [v]).findIdx (·.id == u.id) = place.threads.length := by
    rw [hid]
    exact findIdx_id_eq ((hspawned scope map₁ hmap₁).staffed.nodup_ids hat₁) hend
  have hat : (place.threads ++ [v])[(place.threads ++ [v]).findIdx (·.id == u.id)]? = some u :=
    List.find?_eq_getElem?_findIdx.symm.trans hu
  have hdetached := hspawned.detach (j := fun ts => ts.findIdx (·.id == u.id)) hlast hat
  refine ⟨?_, hindex, hspawned, hdetached⟩
  rw [hindex] at hat
  exact Option.some.inj (hat.symm.trans hend)

/-- Where the thread at the end of a list has had its turn, those that were there before are as they
were but for their states. -/
theorem Widens.trans_after (h : m.Widens m') (hmap : m.scopes.map? scope = some map)
    (hplace : map.modules[i]? = some place)
    (hlast : m'.scopes.module? scope i = some { place with threads := place.threads ++ [v] })
    (hsame : v.Same w) (h' : m'.WidensBy (After scope i place.threads.length w) m'') : m.Widens m'' := by
  obtain ⟨map₁, hmap₁, hat₁⟩ := Option.bind_eq_some_iff.1 hlast
  refine ⟨h'.tick.trans h.tick, h'.shape.trans h.shape, fun id map₀ hmap₀ => ?_⟩
  obtain ⟨map₂, hmap₂, hgrows⟩ := h.maps id map₀ hmap₀
  obtain ⟨map₃, hmap₃, hextends⟩ := h'.maps id map₂ hmap₂
  refine ⟨map₃, hmap₃, ?_⟩
  by_cases hscope : id = scope
  · subst hscope
    cases hmap.symm.trans hmap₀
    cases hmap₁.symm.trans hmap₂
    rw [After, if_pos rfl] at hextends
    exact MapScope.Grows.trans_resumes hgrows hplace hat₁ (by simp) hsame hextends
  · rw [After, if_neg hscope] at hextends
    exact MapScope.Grows.trans hgrows hextends

end

/-- **A turn keeps the order** and lets maps grow, and the thread stays the same. -/
theorem Acts.orderly (h : Acts Never m t m' t') (hm : m.Ordered) (hfresh : ¬ m'.Exhausted) :
    m'.Ordered ∧ m.Widens m' ∧ t.Proceeds t' := by
  induction h with
  | @stir m m' t h =>
    obtain ⟨hm', hwidens⟩ := h.orderly hm hfresh
    exact ⟨hm', hwidens, .refl t⟩
  | @proceed m t t' h => exact ⟨hm, .refl m, h⟩
  | host h => exact h.elim
  | trans h₁ h₂ ih ih' =>
    obtain ⟨hm₂, hwidens, hproceeds⟩ := ih hm fun he => hfresh (he.mono h₂.trace)
    obtain ⟨hm₃, hwidens', hproceeds'⟩ := ih' hm₂ hfresh
    exact ⟨hm₃, hwidens.trans hwidens', hproceeds.trans hproceeds'⟩
  | @result m m' t u u' v map place scope i j args info takesName hmap hplace hv hname hu hid h ih =>
    have hback := trace_reattach { m' with executing := m.executing } scope i u'
    have hfresh' : ¬ m'.Exhausted := fun he => hfresh (he.mono hback)
    have hspawned : ¬ (m.spawn scope i j args info takesName).2.Exhausted := fun he =>
      hfresh' (he.mono h.trace)
    have hlast := module?_spawn hmap hplace hv takesName
    have hwidens₁ := ((Stirs.spawn hmap hplace hv hname).orderly hm hspawned).2
    obtain ⟨rfl, hindex, hm₁, hdetached⟩ := hm.started hmap hplace hv hname hu hid hspawned
    obtain ⟨hm', hwidens, hproceeds⟩ := ih (hdetached.of_scopes rfl) hfresh'
    have hwidens' : ((m.spawn scope i j args info takesName).2.detach scope i
        (fun ts => ts.findIdx (·.id == u.id)) u.id).Widens { m' with executing := m.executing } :=
      ⟨hwidens.tick, hwidens.shape, hwidens.maps⟩
    have hsame : u.Same u' := (restated_noted u _).same.trans hproceeds.same
    -- the thread that has the turn is the new one, at the end of its list
    obtain ⟨w, hstays, hordered, hafter⟩ :=
      hm₁.reattach hlast (by rw [hindex]; simp) hwidens' (hm'.of_scopes rfl) hsame
    rw [hindex] at hafter
    exact ⟨hordered, hwidens₁.trans_after hmap hplace hlast (hsame.trans hstays.same) hafter, .refl t⟩

/-! ## Ticks -/

/-- Where threads stay what they are, no placeholder comes into being. -/
theorem WidensBy.filled (h : m.WidensBy R m')
    (hR : ∀ {id i k t t'}, R id i k t t' → t.isPlaceholder = false → t'.isPlaceholder = false)
    (hm : m.Filled) : m'.Filled := by
  intro id map' hmap'
  have hsome := ScopeTree.isSome_map?_eq_of_shape h.shape id
  rw [hmap', Option.isSome_some] at hsome
  obtain ⟨map, hmap⟩ := Option.isSome_iff_exists.1 hsome.symm
  obtain ⟨map'', hmap'', hextends⟩ := h.maps id map hmap
  cases hmap'.symm.trans hmap''
  exact hextends.filled hR (hm id map hmap)

/-- Where no thread was out of the tree, none is after it widened. -/
theorem Widens.filled (h : m.Widens m') (hm : m.Filled) : m'.Filled :=
  WidensBy.filled h (fun hr hreal => (Restates.same hr).isPlaceholder_eq.trans hreal) hm

/-- Threads of one module are among those that were there, or no placeholders. -/
theorem Filled.modifyMap {scope : ScopeId} {f : MapScope → MapScope} (h : m.Filled)
    (hscopes : m'.scopes = m.scopes.modifyMap scope f)
    (hf : ∀ map, m.scopes.map? scope = some map → (f map).Filled) : m'.Filled := by
  intro id map hmap
  rw [hscopes] at hmap
  exact ScopeTree.forall_modifyMap h hf id map hmap

/-- Removing a thread takes it from its list, and its name from it. -/
theorem reap_scopes {scope : ScopeId} {i j : Nat} {u : Thread}
    (hu : (m.scopes.module? scope i).bind (·.threads[j]?) = some u) :
    (m.reap scope i j).scopes = m.scopes.modifyMap scope fun map =>
      (map.modifyModule i fun s => { s with threads := s.threads.eraseIdx j }).releaseSlot u := by
  rw [reap, hu]
  exact report_scopes ..

/-- Giving up a name leaves modules and threads alone. -/
theorem releaseSlot_modules (map : MapScope) (u : Thread) : (map.releaseSlot u).modules = map.modules := by
  unfold releaseSlot
  split <;> rfl

/-- The thread at a place of the tree. -/
theorem exists_place {scope : ScopeId} {i j : Nat} {u : Thread}
    (hu : (m.scopes.module? scope i).bind (·.threads[j]?) = some u) : ∃ map s,
      m.scopes.map? scope = some map ∧ m.scopes.module? scope i = some s ∧ map.modules[i]? = some s ∧
      s.threads[j]? = some u := by
  obtain ⟨s, hs, hat⟩ := Option.bind_eq_some_iff.1 hu
  obtain ⟨map, hmap, hplace⟩ := Option.bind_eq_some_iff.1 hs
  exact ⟨map, s, hmap, hs, hplace, hat⟩

/-- Where no thread is out of the tree, all are real. -/
theorem Filled.real {scope : ScopeId} {i j : Nat} {u : Thread} (h : m.Filled)
    (hu : (m.scopes.module? scope i).bind (·.threads[j]?) = some u) : u.isPlaceholder = false := by
  obtain ⟨map, s, hmap, -, hplace, hat⟩ := exists_place hu
  exact h scope map hmap s (List.mem_of_getElem? hplace) u (List.mem_of_getElem? hat)

/-- The trace only grows in visits. -/
theorem Ticks.trace (h : Ticks Never m m') : m.trace <:+ m'.trace := by
  induction h with
  | stir h => exact h.evolves.trace
  | trans _ _ ih ih' => exact ih.trans ih'
  | reap _ _ => exact (evolves_reap ..).trace
  | wait _ _ => exact List.suffix_refl _
  | turn _ _ h => exact h.trace.trans (trace_reattach ..)

/-- **A tick keeps the order**, and leaves no placeholder behind. -/
theorem Ticks.orderly (h : Ticks Never m m') (hm : m.Ordered) (hfilled : m.Filled)
    (hfresh : ¬ m'.Exhausted) : m'.Ordered ∧ m'.Filled := by
  induction h with
  | stir h =>
    obtain ⟨hm', hwidens⟩ := h.orderly hm hfresh
    exact ⟨hm', hwidens.filled hfilled⟩
  | trans _ h₂ ih ih' =>
    obtain ⟨hm₂, hfilled₂⟩ := ih hm hfilled fun he => hfresh (he.mono h₂.trace)
    exact ih' hm₂ hfilled₂ hfresh
  | @reap m scope i j u hu hend =>
    obtain ⟨map, s, hmap, -, hplace, hat⟩ := exists_place hu
    constructor
    · refine hm.modifyMap (reap_scopes hu) fun map' hmap' => ?_
      cases hmap.symm.trans hmap'
      exact (hm scope map hmap).reap hplace hat (hfilled.real hu)
    · refine hfilled.modifyMap (reap_scopes hu) fun map' hmap' => ?_
      exact forall_threads_of_modify (f := fun ts => ts.eraseIdx j) (hfilled scope map' hmap')
        (fun s _ t ht => .inl (List.mem_of_mem_eraseIdx ht)) (releaseSlot_modules ..)
  | @wait m scope i j u hu hend =>
    obtain ⟨map, s, hmap, -, hplace, hat⟩ := exists_place hu
    have hsame := (restated_awake u m.tick).same
    constructor
    · refine hm.modifyMap rfl fun map' hmap' => ?_
      cases hmap.symm.trans hmap'
      exact (hm scope map hmap).goOn hplace hat hsame
    · refine hfilled.modifyMap rfl fun map' hmap' => ?_
      refine forall_threads_of_modify (f := fun ts => ts.modify j fun _ => _) (hfilled scope map' hmap')
        (fun s _ t ht => ?_) rfl
      rcases mem_modify ht with ht | rfl
      · exact .inl ht
      · exact .inr (hsame.isPlaceholder_eq.trans (hfilled.real hu))
  | @turn m m' scope i j u u' hu hend h =>
    have hfresh' : ¬ m'.Exhausted := fun he => hfresh (he.mono (trace_reattach ..))
    obtain ⟨map, s, hmap, hs, hplace, hat⟩ := exists_place hu
    obtain ⟨hm', hwidens, hproceeds⟩ := h.orderly (hm.detach (j := fun _ => j) hs hat) hfresh'
    have hsame := (restated_awake u m.tick).same.trans hproceeds.same
    obtain ⟨v, hstays, hordered, hafter⟩ := hm.reattach (j := fun _ => j) hs hat hwidens hm' hsame
    refine ⟨hordered, hafter.filled (fun {id n k t t'} hr hreal => ?_) hfilled⟩
    rw [After] at hr
    split at hr
    · rw [Resumes] at hr
      split at hr
      · rw [hr, (hsame.trans hstays.same).isPlaceholder_eq]
        exact hfilled.real hu
      · exact hr.same.isPlaceholder_eq.trans hreal
    · exact (Restates.same hr).isPlaceholder_eq.trans hreal

end Machine

end ScriptMachine
