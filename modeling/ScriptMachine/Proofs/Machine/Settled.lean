import ScriptMachine.Proofs.Machine.Coherence

/-!
# Threads stand in their own maps, and noted ticks lie in the past

The tick that is noted with a thread is never later than the tick the machine is at, so no thread can
look as if it had its turn in a tick that is still to come; and a thread that is no placeholder stands
in the map it was started in.  `Machine.Settled` says both.  This is kept by everything that happens,
and holds in all runs.
-/

namespace ScriptMachine

/-- The thread was started in this map, unless it is a placeholder, and has no tick noted that is later
than `now`. -/
structure Thread.Settled (t : Thread) (id : ScopeId) (now : Nat) : Prop where
  past : t.lastTick ≤ now
  home : t.isPlaceholder = false → t.scope = id

namespace Thread.Settled

variable {t t' : Thread} {id : ScopeId} {now : Nat}

/-- A thread that is settled now is settled later. -/
theorem mono {now' : Nat} (h : t.Settled id now) (hnow : now ≤ now') : t.Settled id now' :=
  ⟨Nat.le_trans h.past hnow, h.home⟩

/-- The thread does something, and has no later tick noted then. -/
theorem same (h : t.Settled id now) (hsame : t.Same t') (hpast : t'.lastTick ≤ now) :
    t'.Settled id now :=
  ⟨hpast, fun hreal => hsame.scope.trans (h.home (hsame.isPlaceholder_eq ▸ hreal))⟩

/-- A restated thread stays settled. -/
theorem restated (h : t.Settled id now) (hr : t.Restated now t') : t'.Settled id now := by
  refine h.same hr.same ?_
  rcases hr.tick with heq | hle
  · exact heq ▸ h.past
  · exact hle

/-- Placeholders are settled. -/
theorem placeholder (k : Word) : (placeholder k).Settled id now := ⟨Nat.zero_le _, nofun⟩

/-- A new thread. -/
theorem of_make? {k : Word} {x : LoadedModule} {i j : Nat} {args : List Word} {info : ThreadInfo}
    (h : Thread.make? k x id i j args info = some t) : t.Settled id now := by
  obtain ⟨s, -, rfl⟩ := Option.map_eq_some_iff.1 h
  exact ⟨Nat.zero_le _, fun _ => rfl⟩

end Thread.Settled

namespace MapScope

/-- All threads of the map are settled in it. -/
def Settled (id : ScopeId) (now : Nat) (m : MapScope) : Prop :=
  ∀ s ∈ m.modules, ∀ t ∈ s.threads, t.Settled id now

variable {known : LoadedModule → Prop} {now : Nat} {wraps : Prop} {id : ScopeId} {m m' : MapScope}

/-- A map that is settled now is settled later. -/
theorem Settled.mono {now' : Nat} (h : m.Settled id now) (hnow : now ≤ now') : m.Settled id now' :=
  fun s hs t ht => (h s hs t ht).mono hnow

/-- The threads of one module scope are replaced by threads that were there or are settled. -/
theorem Settled.modifyThreads {i : Nat} {f : List Thread → List Thread} (h : m.Settled id now)
    (hf : ∀ s ∈ m.modules, ∀ t ∈ f s.threads, t ∈ s.threads ∨ t.Settled id now)
    (hmodules : m'.modules = m.modules.modify i fun s => { s with threads := f s.threads }) :
    m'.Settled id now :=
  forall_threads_of_modify h hf hmodules

/-- Whatever a map goes through keeps its threads settled. -/
theorem Step.settled (h : Step known now wraps id m m') (hm : m.Settled id now) : m'.Settled id now := by
  induction h with
  | restate houtline hthreads hslots hnext =>
    intro s' hs' t' ht'
    obtain ⟨i, hi⟩ := List.getElem?_of_mem hs'
    obtain ⟨s, hs, hrestated⟩ := hthreads i s' hi
    obtain ⟨t, ht, hr⟩ := hrestated t' ht'
    exact (hm s (List.mem_of_getElem? hs) t ht).restated hr
  | @spawn m m' i j s args info t hs ht hmodules hslots hnext hwraps =>
    refine hm.modifyThreads (f := fun ts => ts ++ [t]) (fun s _ u hu => ?_) hmodules
    rcases List.mem_append.1 hu with hu | hu
    · exact .inl hu
    · rw [List.mem_singleton.1 hu]
      exact .inr (.of_make? ht)
  | skip hslot hstray => exact hm
  | reap i j hmodules hslots hnext =>
    exact hm.modifyThreads (f := fun ts => ts.eraseIdx j)
      (fun s _ t ht => .inl (List.mem_of_mem_eraseIdx ht)) hmodules
  | add hknown hmodules hslots hnext =>
    intro s hs t ht
    rw [hmodules] at hs
    rcases List.mem_append.1 hs with hs | hs
    · exact hm s hs t ht
    · rw [List.mem_singleton.1 hs] at ht
      cases ht
  | trans _ _ ih ih' => exact ih' (ih hm)

end MapScope

namespace Machine

open Thread

/-- All threads are settled in their maps. -/
def Settled (m : Machine) : Prop := ∀ id map, m.scopes.map? id = some map → map.Settled id m.tick

variable {c : Terms} {m m' : Machine} {t t' : Thread} {scope : ScopeId} {i : Nat}

/-- The thread at a place. -/
theorem Settled.thread {x : ModuleScope} (h : m.Settled) (hx : m.scopes.module? scope i = some x)
    (ht : t ∈ x.threads) : t.Settled scope m.tick := by
  obtain ⟨map, hmap, hplace⟩ := Option.bind_eq_some_iff.1 hx
  exact h scope map hmap x (List.mem_of_getElem? hplace) t ht

/-- What lets the tree advance leaves threads settled. -/
theorem Settled.advance {known : LoadedModule → Prop} (h : m.Settled) (hm : m.Advances known m') :
    m'.Settled := by
  refine hm.scopes.forall_maps (fun hstep hmap => hstep.settled hmap) (fun _ s hs => by cases hs) ?_
  rw [hm.tick]
  exact h

/-- Machines that evolve stay settled. -/
theorem Settled.evolve (h : m.Settled) (hm : m.Evolves m') : m'.Settled := by
  have hadvances : m.Advances (fun _ => False) m' := hm.advances
  exact h.advance hadvances

/-- Threads of one module scope are replaced. -/
theorem Settled.modifyThreads (h : m.Settled) (scope : ScopeId) (i : Nat)
    {f : List Thread → List Thread} (hf : ∀ ts, ∀ t ∈ f ts, t ∈ ts ∨ t.Settled scope m.tick) :
    ({ m with scopes := m.scopes.modifyModule scope i fun s =>
      { s with threads := f s.threads } } : Machine).Settled :=
  ScopeTree.forall_modifyMap h fun map hmap =>
    (h scope map hmap).modifyThreads (f := f) (fun s _ => hf s.threads) rfl

/-- Taking a thread out leaves the others settled. -/
theorem Settled.detach (h : m.Settled) (scope : ScopeId) (i : Nat) (j : List Thread → Nat) (id : Word) :
    (m.detach scope i j id).Settled := by
  refine h.modifyThreads scope i (f := fun ts => ts.modify (j ts) fun _ => placeholder id)
    fun ts t ht => ?_
  rcases mem_modify ht with ht | rfl
  · exact .inl ht
  · exact .inr (.placeholder id)

/-- Putting a settled thread back leaves all settled. -/
theorem Settled.reattach (h : m.Settled) (ht : t.Settled scope m.tick) (i : Nat) :
    (m.reattach scope i t).Settled ∧ (m.reattach scope i t).tick = m.tick := by
  rcases reattach_cases m scope i t with ⟨s, k, p, u, -, -, -, -, hrestates, heq, -⟩ | ⟨-, hm, -⟩
  · have hu : u.Settled scope m.tick := ht.restated (hrestates.restated _)
    have hmem : ∀ ts : List Thread, ∀ v ∈ ts.modify (ts.findIdx (·.id == t.id)) (fun _ => u),
        v ∈ ts ∨ v.Settled scope m.tick := by
      intro ts v hv
      rcases mem_modify hv with hv | hv
      · exact .inl hv
      · rw [hv]
        exact .inr hu
    have hback := h.modifyThreads scope i (f := fun ts => ts.modify _ fun _ => u) hmem
    rw [heq]
    exact ⟨hback, rfl⟩
  · exact ⟨h.evolve hm, hm.tick⟩

/-- **Turns** leave threads settled, those in the tree and the one that is out of it. -/
theorem Goes.settled (hgoes : Goes c.rule m t m' t') (hm : m.Settled) :
    m.tick ≤ m'.tick ∧ m'.Settled ∧ ∀ id, t.Settled id m.tick → t'.Settled id m'.tick := by
  induction hgoes with
  | evolve he => exact ⟨Nat.le_of_eq he.tick.symm, hm.evolve he, fun id ht => he.tick ▸ ht⟩
  | proceed hp =>
    exact ⟨Nat.le_refl _, hm, fun id ht => ht.same hp.same (hp.lastTick ▸ ht.past)⟩
  | host hA =>
    have hthread : ∀ {now} id, Thread.Settled _ id now → Thread.Settled _ id now :=
      fun id ht => ht.same hA.1.same (hA.1.lastTick ▸ ht.past)
    rcases hA.2 with rfl | hdeed
    · exact ⟨Nat.le_refl _, hm, hthread⟩
    · have hadvances := hdeed.advances
      rw [hadvances.tick]
      exact ⟨Nat.le_refl _, hm.advance hadvances, hthread⟩
  | busy _ hle =>
    exact ⟨hle, fun id map hmap => (hm id map hmap).mono hle, fun id ht => ht.mono hle⟩
  | trans _ _ ih ih' =>
    obtain ⟨htick, hsettled, hthread⟩ := ih hm
    obtain ⟨htick', hsettled', hthread'⟩ := ih' hsettled
    exact ⟨Nat.le_trans htick htick', hsettled', fun id ht => hthread' id (hthread id ht)⟩
  | @turn m m' t scope i x u u₁ u' j hx hu hu₁ hg ih =>
    obtain ⟨htick, hsettled, hthread⟩ := ih (hm.detach scope i j u.id)
    have hu₁' : u₁.Settled scope m.tick := (hm.thread hx (List.mem_of_getElem? hu)).restated hu₁
    obtain ⟨hback, hsame⟩ := hsettled.reattach (hthread scope hu₁') i
    rw [hsame]
    exact ⟨htick, hback, fun id ht => ht.mono htick⟩

/-- Threads that were loaded are settled. -/
theorem settled_of_load {s rest : Bytes} (hload : m.load s = (.ok rest, m')) : m'.Settled := by
  obtain ⟨strings, modules, m₁, hl⟩ := exists_loaded hload
  intro id map hmap s hs t ht
  have hread := hl.scopes id map hmap
  obtain ⟨i, hi⟩ := List.getElem?_of_mem hs
  refine ⟨?_, fun _ => (hread.intact i s hi t ht).scope⟩
  rw [hread.fresh s hs t ht]
  exact Nat.zero_le _

/-- **Threads are settled** in all runs. -/
theorem Regime.Run.settled {R : Regime} (h : R.Run m) : m.Settled := by
  induction h with
  | make settings => exact fun id map hmap => by cases hmap
  | handle _ hdo ih => exact ((hdo.goes (t := default)).settled ih).2.1
  | load _ hload _ _ => exact settled_of_load hload
  | reload _ _ _ hload _ _ _ => exact settled_of_load hload

end Machine

end ScriptMachine
