import ScriptMachine.Proofs.Machine.Consistency
import ScriptMachine.Proofs.Scope.Growth

/-!
# Threads keep their places

In a coherent map the threads of a module have different ids, all of them given already, and every
thread but the placeholders is owned by its place (`MapScope.Coherent`).  While ids do not go round,
coherence lasts, and a thread that is taken out for its turn finds its placeholder again
(`Goes.coherent`).  So a machine at rest holds no placeholder and all its threads fit their places,
unless a state was loaded that was not coherent (`Reached.intact`).
-/

namespace ScriptMachine

namespace MapScope

/-- Threads of a module have ids of their own, and fit their places. -/
structure Coherent (id : ScopeId) (m : MapScope) : Prop where
  distinct : ∀ s ∈ m.modules, (s.threads.map (·.id)).Nodup
  below : ∀ s ∈ m.modules, ∀ t ∈ s.threads, t.id < m.nextThreadId
  owned : ∀ (i : Nat) (s : ModuleScope), m.modules[i]? = some s →
    ∀ t ∈ s.threads, t.isPlaceholder = false → t.Owned s.module.toModule id i

/-- A placeholder with id `k` stands in the scope with number `i`, which is that of `x`. -/
def Holds (m : MapScope) (i : Nat) (x : Module) (k : Word) : Prop :=
  ∃ s : ModuleScope, m.modules[i]? = some s ∧ s.module.toModule = x ∧
    ∃ t ∈ s.threads, t.id = k ∧ t.isPlaceholder = true

/-- A map without modules is coherent. -/
theorem coherent_empty (id : ScopeId) : Coherent id {} := ⟨nofun, nofun, nofun⟩

variable {known : LoadedModule → Prop} {now : Nat} {wraps : Prop} {id : ScopeId} {m m' : MapScope}

/-- Maps of one outline have the same modules and thread ids at the same places. -/
theorem mem_outline {i : Nat} {s s' : ModuleScope} (houtline : m'.outline = m.outline)
    (hs : m.modules[i]? = some s) (hs' : m'.modules[i]? = some s') :
    s'.module = s.module ∧ s'.threads.map (·.id) = s.threads.map (·.id) := by
  have hi := congrArg (fun l => l[i]?) houtline
  simpa [outline, hs, hs'] using hi

/-- Threads go on in their places. -/
theorem Coherent.restate (hm : m.Coherent id) (houtline : m'.outline = m.outline)
    (hthreads : ∀ (i : Nat) (s' : ModuleScope), m'.modules[i]? = some s' →
      ∃ s : ModuleScope, m.modules[i]? = some s ∧
      ∀ t' ∈ s'.threads, ∃ t ∈ s.threads, t.Restated now t')
    (hnext : m'.nextThreadId = m.nextThreadId) : m'.Coherent id := by
  refine ⟨fun s' hs' => ?_, fun s' hs' t' ht' => ?_, fun i s' hs' t' ht' hreal => ?_⟩
  · obtain ⟨i, hi⟩ := List.getElem?_of_mem hs'
    obtain ⟨s, hs, -⟩ := hthreads i s' hi
    rw [(mem_outline houtline hs hi).2]
    exact hm.distinct s (List.mem_of_getElem? hs)
  · obtain ⟨i, hi⟩ := List.getElem?_of_mem hs'
    obtain ⟨s, hs, hrest⟩ := hthreads i s' hi
    obtain ⟨t, ht, hr⟩ := hrest t' ht'
    rw [hnext, hr.same.id]
    exact hm.below s (List.mem_of_getElem? hs) t ht
  · obtain ⟨s, hs, hrest⟩ := hthreads i s' hs'
    obtain ⟨t, ht, hr⟩ := hrest t' ht'
    rw [(mem_outline houtline hs hs').1]
    have howned := hm.owned i s hs t ht (by rw [← hr.same.isPlaceholder_eq]; exact hreal)
    exact howned.same hr.same (howned.framed.restated hr)

/-- A module scope of a map in which the threads of one module scope changed was there before, with its
threads or before they changed. -/
theorem exists_of_modify_threads {i n : Nat} {f : List Thread → List Thread} {s' : ModuleScope}
    (hmodules : m'.modules = m.modules.modify i fun s => { s with threads := f s.threads })
    (hs' : m'.modules[n]? = some s') : ∃ s, m.modules[n]? = some s ∧ s'.module = s.module ∧
      (s'.threads = s.threads ∨ n = i ∧ s'.threads = f s.threads) := by
  rw [hmodules, List.getElem?_modify] at hs'
  obtain ⟨s, hs, rfl⟩ := Option.map_eq_some_iff.1 hs'
  refine ⟨s, hs, ?_⟩
  split
  · rename_i hn
    exact ⟨rfl, .inr ⟨hn.symm, rfl⟩⟩
  · exact ⟨rfl, .inl rfl⟩

/-- What holds of all threads goes on to hold where those of one module scope are replaced by threads that
were there, or of which it holds. -/
theorem forall_threads_of_modify {P : Thread → Prop} {i : Nat} {f : List Thread → List Thread}
    (h : ∀ s ∈ m.modules, ∀ t ∈ s.threads, P t)
    (hf : ∀ s ∈ m.modules, ∀ t ∈ f s.threads, t ∈ s.threads ∨ P t)
    (hmodules : m'.modules = m.modules.modify i fun s => { s with threads := f s.threads }) :
    ∀ s ∈ m'.modules, ∀ t ∈ s.threads, P t := by
  intro s' hs' t ht
  obtain ⟨k, hk⟩ := List.getElem?_of_mem hs'
  obtain ⟨s, hs, -, heq | ⟨-, heq⟩⟩ := exists_of_modify_threads hmodules hk <;> rw [heq] at ht
  · exact h s (List.mem_of_getElem? hs) t ht
  · exact (hf s (List.mem_of_getElem? hs) t ht).elim (h s (List.mem_of_getElem? hs) t) fun ht => ht

/-- The threads of one module scope are replaced by threads that have ids of their own and fit the
place. -/
theorem Coherent.of_modify_threads {i : Nat} {f : List Thread → List Thread} (hm : m.Coherent id)
    (hmodules : m'.modules = m.modules.modify i fun s => { s with threads := f s.threads })
    (hnext : m.nextThreadId ≤ m'.nextThreadId)
    (hf : ∀ s : ModuleScope, m.modules[i]? = some s → ((f s.threads).map (·.id)).Nodup ∧
      ∀ t ∈ f s.threads, t.id < m'.nextThreadId ∧
        (t.isPlaceholder = false → t.Owned s.module.toModule id i)) : m'.Coherent id := by
  refine ⟨fun s' hs' => ?_, fun s' hs' t ht => ?_, fun n s' hs' t ht hreal => ?_⟩
  · obtain ⟨n, hn⟩ := List.getElem?_of_mem hs'
    obtain ⟨s, hs, -, heq | ⟨rfl, heq⟩⟩ := exists_of_modify_threads hmodules hn <;> rw [heq]
    · exact hm.distinct s (List.mem_of_getElem? hs)
    · exact (hf s hs).1
  · obtain ⟨n, hn⟩ := List.getElem?_of_mem hs'
    obtain ⟨s, hs, -, heq | ⟨rfl, heq⟩⟩ := exists_of_modify_threads hmodules hn <;> rw [heq] at ht
    · exact UInt32.lt_of_lt_of_le (hm.below s (List.mem_of_getElem? hs) t ht) hnext
    · exact ((hf s hs).2 t ht).1
  · obtain ⟨s, hs, hmodule, heq | ⟨rfl, heq⟩⟩ := exists_of_modify_threads hmodules hs' <;>
      rw [heq] at ht <;> rw [hmodule]
    · exact hm.owned n s hs t ht hreal
    · exact ((hf s hs).2 t ht).2 hreal

/-- A thread with the next id is added. -/
theorem Coherent.spawn {i : Nat} {s : ModuleScope} {t : Thread} (hm : m.Coherent id)
    (hs : m.modules[i]? = some s) (hid : t.id = m.nextThreadId)
    (howned : t.Owned s.module.toModule id i)
    (hmodules : m'.modules = m.modules.modify i fun s => { s with threads := s.threads ++ [t] })
    (hnext : m'.nextThreadId = m.takeThreadId.2.nextThreadId)
    (hlast : m.nextThreadId ≠ 0xFFFFFFFF) : m'.Coherent id := by
  have hlt : m.nextThreadId < m'.nextThreadId := by
    rw [hnext]
    exact lt_takeThreadId hlast
  have hbelow := hm.below s (List.mem_of_getElem? hs)
  refine hm.of_modify_threads (f := fun ts => ts ++ [t]) hmodules (UInt32.le_of_lt hlt) fun s₀ hs₀ => ?_
  cases hs.symm.trans hs₀
  refine ⟨?_, fun u hu => ?_⟩
  · rw [List.map_append, List.map_cons, List.map_nil, List.nodup_append]
    refine ⟨hm.distinct s (List.mem_of_getElem? hs), by simp, ?_⟩
    intro a ha b hb hab
    obtain ⟨u, hu, rfl⟩ := List.mem_map.1 ha
    have hold := hbelow u hu
    rw [hab, List.mem_singleton.1 hb, hid] at hold
    exact UInt32.lt_irrefl _ hold
  · rcases List.mem_append.1 hu with hu | hu
    · exact ⟨UInt32.lt_trans (hbelow u hu) hlt, hm.owned i s hs u hu⟩
    · cases List.mem_singleton.1 hu
      exact ⟨hid ▸ hlt, fun _ => howned⟩

/-- A thread is removed. -/
theorem Coherent.reap {i j : Nat} (hm : m.Coherent id)
    (hmodules : m'.modules = m.modules.modify i fun s => { s with threads := s.threads.eraseIdx j })
    (hnext : m'.nextThreadId = m.nextThreadId) : m'.Coherent id := by
  refine hm.of_modify_threads (f := fun ts => ts.eraseIdx j) hmodules (hnext ▸ UInt32.le_refl _)
    fun s hs => ?_
  have hmem := List.mem_of_getElem? hs
  have hsub : (s.threads.eraseIdx j).Sublist s.threads := List.eraseIdx_sublist ..
  exact ⟨(hm.distinct s hmem).sublist (hsub.map _), fun t ht =>
    ⟨hnext ▸ hm.below s hmem t (hsub.subset ht), hm.owned i s hs t (hsub.subset ht)⟩⟩

/-- A module is added. -/
theorem Coherent.add {module : LoadedModule} (hm : m.Coherent id)
    (hmodules : m'.modules = m.modules ++ [ModuleScope.make module])
    (hnext : m'.nextThreadId = m.nextThreadId) : m'.Coherent id := by
  refine ⟨fun s hs => ?_, fun s hs t ht => ?_, fun k s hs t ht hreal => ?_⟩
  · rw [hmodules] at hs
    rcases List.mem_append.1 hs with hs | hs
    · exact hm.distinct s hs
    · cases List.mem_singleton.1 hs
      exact List.nodup_nil
  · rw [hmodules] at hs
    rcases List.mem_append.1 hs with hs | hs
    · rw [hnext]
      exact hm.below s hs t ht
    · cases List.mem_singleton.1 hs
      cases ht
  · rw [hmodules, List.getElem?_append] at hs
    split at hs
    · exact hm.owned k s hs t ht hreal
    · cases List.mem_singleton.1 (List.mem_of_getElem? hs)
      cases ht

/-- **Coherence lasts** while ids do not go round. -/
theorem Step.coherent (h : Step known now wraps id m m') (hwraps : ¬ wraps) (hled : m.Led)
    (hm : m.Coherent id) : m'.Coherent id := by
  induction h with
  | restate houtline hthreads hslots hnext => exact hm.restate houtline hthreads hnext
  | spawn hs ht hmodules hslots hnext hlast =>
    refine hm.spawn hs ?_ (Thread.owned_of_make? ht) hmodules hnext fun h => hwraps (hlast h)
    exact Machine.make?_id ht
  | skip hslot hstray => exact absurd (hled _ _ hslot) hstray
  | reap i j hmodules hslots hnext => exact hm.reap hmodules hnext
  | add hknown hmodules hslots hnext => exact hm.add hmodules hnext
  | trans h _ ih ih' => exact ih' (h.led hled) (ih hled hm)

/-- No placeholder comes into being but by taking a thread out. -/
theorem Step.holds {i : Nat} {x : Module} {k : Word} (h : Step known now wraps id m m')
    (hk : m'.Holds i x k) : m.Holds i x k := by
  induction h with
  | restate houtline hthreads hslots hnext =>
    obtain ⟨s', hs', hx, t', ht', hid, hplace⟩ := hk
    obtain ⟨s, hs, hrest⟩ := hthreads i s' hs'
    obtain ⟨t, ht, hr⟩ := hrest t' ht'
    refine ⟨s, hs, (mem_outline houtline hs hs').1 ▸ hx, t, ht, hr.same.id.symm.trans hid, ?_⟩
    rw [← hr.same.isPlaceholder_eq]
    exact hplace
  | spawn hs ht hmodules hslots hnext hlast =>
    obtain ⟨s', hs', hx, t', ht', hid, hplace⟩ := hk
    obtain ⟨s₀, hs₀, hmodule, heq | ⟨-, heq⟩⟩ :=
      exists_of_modify_threads (f := fun ts => ts ++ [_]) hmodules hs' <;> rw [heq] at ht'
    · exact ⟨s₀, hs₀, hmodule ▸ hx, t', ht', hid, hplace⟩
    · rcases List.mem_append.1 ht' with ht' | ht'
      · exact ⟨s₀, hs₀, hmodule ▸ hx, t', ht', hid, hplace⟩
      · -- the new thread has a module
        cases List.mem_singleton.1 ht'
        have hmodule := (Thread.owned_of_make? ht).fits.module
        rw [Thread.isPlaceholder, Option.isNone_iff_eq_none] at hplace
        rw [hplace] at hmodule
        cases hmodule
  | skip hslot hstray => exact hk
  | reap i j hmodules hslots hnext =>
    obtain ⟨s', hs', hx, t', ht', hid, hplace⟩ := hk
    obtain ⟨s₀, hs₀, hmodule, heq | ⟨-, heq⟩⟩ :=
      exists_of_modify_threads (f := fun ts => ts.eraseIdx j) hmodules hs' <;> rw [heq] at ht'
    · exact ⟨s₀, hs₀, hmodule ▸ hx, t', ht', hid, hplace⟩
    · exact ⟨s₀, hs₀, hmodule ▸ hx, t', List.mem_of_mem_eraseIdx ht', hid, hplace⟩
  | add hknown hmodules hslots hnext =>
    obtain ⟨s', hs', hx, t', ht', hid, hplace⟩ := hk
    rw [hmodules, List.getElem?_append] at hs'
    split at hs'
    · exact ⟨s', hs', hx, t', ht', hid, hplace⟩
    · cases List.mem_singleton.1 (List.mem_of_getElem? hs')
      cases ht'
  | trans _ _ ih ih' => exact ih (ih' hk)

/-- Threads of one module change in place; those that are new there fit. -/
theorem Coherent.modifyThreads {i : Nat} {f : List Thread → List Thread} (hm : m.Coherent id)
    (hids : ∀ s : ModuleScope, m.modules[i]? = some s →
      (f s.threads).map (·.id) = s.threads.map (·.id))
    (hthreads : ∀ s : ModuleScope, m.modules[i]? = some s → ∀ t ∈ f s.threads,
      t.isPlaceholder = false → t ∈ s.threads ∨ t.Owned s.module.toModule id i) :
    (m.modifyModule i fun s => { s with threads := f s.threads }).Coherent id := by
  refine hm.of_modify_threads (f := f) rfl (UInt32.le_refl _) fun s hs =>
    ⟨?_, fun t ht => ⟨?_, fun hreal => ?_⟩⟩
  · rw [hids s hs]
    exact hm.distinct s (List.mem_of_getElem? hs)
  · have hmem : t.id ∈ s.threads.map (·.id) := hids s hs ▸ List.mem_map_of_mem ht
    obtain ⟨u, hu, hid⟩ := List.mem_map.1 hmem
    rw [← hid]
    exact hm.below s (List.mem_of_getElem? hs) u hu
  · rcases hthreads s hs t ht hreal with ht | howned
    · exact hm.owned i s hs t ht hreal
    · exact howned

end MapScope

section

variable {ts : List Thread} {k : Nat} {u v t : Thread}

/-- A thread is replaced by one with its id. -/
theorem map_id_modify (hk : ∀ u, ts[k]? = some u → u.id = v.id) :
    (ts.modify k fun _ => v).map (·.id) = ts.map (·.id) := by
  apply List.ext_getElem?
  intro n
  simp only [List.getElem?_map, List.getElem?_modify]
  cases hn : ts[n]? with
  | none => rfl
  | some w =>
    simp only [Option.map_some]
    split
    · rename_i heq
      subst heq
      rw [hk w hn]
      rfl
    · rfl

/-- What is in a list with one place changed was there or is new. -/
theorem mem_modify (h : t ∈ ts.modify k fun _ => v) : t ∈ ts ∨ t = v := by
  obtain ⟨n, hn⟩ := List.getElem?_of_mem h
  rw [List.getElem?_modify] at hn
  obtain ⟨w, hw, rfl⟩ := Option.map_eq_some_iff.1 hn
  split
  · exact .inr rfl
  · exact .inl (List.mem_of_getElem? hw)

/-- Where ids differ, a thread is known by its id. -/
theorem eq_of_id_eq (hids : (ts.map (·.id)).Nodup) (ht : t ∈ ts) (hu : u ∈ ts) (hid : t.id = u.id) :
    t = u := by
  obtain ⟨k, hk⟩ := List.getElem?_of_mem ht
  obtain ⟨n, hn⟩ := List.getElem?_of_mem hu
  have hlt : k < (ts.map (·.id)).length := by simpa using (List.getElem?_eq_some_iff.1 hk).1
  have hkn : k = n := by
    refine (List.getElem?_inj hlt hids).1 ?_
    rw [List.getElem?_map, List.getElem?_map, hk, hn, Option.map_some, Option.map_some, hid]
  subst hkn
  exact Option.some.inj (hk.symm.trans hn)

/-- Where ids differ, no thread but the new one has its id. -/
theorem eq_of_mem_modify (hids : (ts.map (·.id)).Nodup) (hk : ts[k]? = some u) (hv : u.id = v.id)
    (h : t ∈ ts.modify k fun _ => v) (hid : t.id = v.id) : t = v := by
  have hids' : ((ts.modify k fun _ => v).map (·.id)).Nodup := by
    rw [map_id_modify fun w hw => by cases hk.symm.trans hw; exact hv]
    exact hids
  have hmem : v ∈ ts.modify k fun _ => v := by
    refine List.mem_of_getElem? (i := k) ?_
    rw [List.getElem?_modify, hk]
    simp
  exact eq_of_id_eq hids' h hmem hid

end

namespace Machine

open Thread

/-- Every map is coherent. -/
def Coherent (m : Machine) : Prop := ∀ id map, m.scopes.map? id = some map → map.Coherent id

/-- A placeholder with id `k` stands in the scope of the module `x` at this place. -/
def Holds (m : Machine) (id : ScopeId) (i : Nat) (x : Module) (k : Word) : Prop :=
  ∃ map, m.scopes.map? id = some map ∧ map.Holds i x k

variable {m m' : Machine}

/-- What the tree goes through keeps it coherent, while ids are fresh. -/
theorem Coherent.evolve_scopes {known : LoadedModule → Prop} {now : Nat} {wraps : Prop} (h : m.Coherent)
    (hled : m.Led) (hm : m.scopes.Evolves known now wraps m'.scopes) (hfresh : ¬ wraps) :
    m'.Coherent := by
  have hboth := hm.forall_maps (P := fun id map => map.Led ∧ map.Coherent id)
    (fun hstep hmap => ⟨hstep.led hmap.1, hstep.coherent hfresh hmap.1 hmap.2⟩)
    (fun id => ⟨MapScope.led_empty, MapScope.coherent_empty id⟩)
    fun id map hmap => ⟨hled id map hmap, h id map hmap⟩
  exact fun id map hmap => (hboth id map hmap).2

/-- A machine that evolves stays coherent, while ids are fresh. -/
theorem Coherent.evolve (h : m.Coherent) (hled : ∀ id map, m.scopes.map? id = some map → map.Led)
    (hm : m.Evolves m') (hfresh : ¬ m'.Exhausted) : m'.Coherent :=
  h.evolve_scopes hled hm.scopes hfresh

/-- No placeholder comes into a tree that evolves. -/
theorem Holds.of_evolves {known : LoadedModule → Prop} {now : Nat} {wraps : Prop} {id : ScopeId} {i : Nat}
    {x : Module} {k : Word} (h : m'.Holds id i x k)
    (hm : m.scopes.Evolves known now wraps m'.scopes) : m.Holds id i x k := by
  obtain ⟨map', hmap', hk⟩ := h
  obtain ⟨map, hmap, hstep⟩ := hm id map' hmap'
  have hk := hstep.holds hk
  rcases hmap with hmap | rfl
  · exact ⟨map, hmap, hk⟩
  · obtain ⟨s, hs, -⟩ := hk
    cases hs

/-- No placeholder comes into a machine that evolves. -/
theorem Evolves.holds {id : ScopeId} {i : Nat} {x : Module} {k : Word} (hm : m.Evolves m')
    (h : m'.Holds id i x k) : m.Holds id i x k :=
  h.of_evolves hm.scopes

/-! ## Taking threads out and putting them back -/

section

variable {scope : ScopeId} {i : Nat} {x : ModuleScope} {u v : Thread} {j : List Thread → Nat}
  (hx : m.scopes.module? scope i = some x) (hu : x.threads[j x.threads]? = some u)

section

variable (hscopes : m'.scopes = m.scopes.modifyModule scope i fun s =>
  { s with threads := s.threads.modify (j s.threads) fun _ => v })
include hx hscopes

/-- A scope of a tree in which one thread was replaced is that scope, or it was there before. -/
theorem exists_of_replace {id : ScopeId} {n : Nat} {map' : MapScope} {s' : ModuleScope}
    (hmap' : m'.scopes.map? id = some map') (hs' : map'.modules[n]? = some s') :
    (id = scope ∧ n = i ∧ s' = { x with threads := x.threads.modify (j x.threads) fun _ => v }) ∨
      (¬ (id = scope ∧ n = i) ∧ ∃ map, m.scopes.map? id = some map ∧ map.modules[n]? = some s') := by
  rw [hscopes, ScopeTree.modifyModule, ScopeTree.map?_modifyMap] at hmap'
  split at hmap'
  · rename_i hscope
    subst hscope
    obtain ⟨map, hmap, rfl⟩ := Option.map_eq_some_iff.1 hmap'
    simp only [MapScope.modifyModule, List.getElem?_modify] at hs'
    obtain ⟨s, hs, rfl⟩ := Option.map_eq_some_iff.1 hs'
    by_cases hn : i = n
    · subst hn
      rw [ScopeTree.module?_eq, hmap] at hx
      cases Option.some.inj (hs.symm.trans hx)
      exact .inl ⟨rfl, rfl, if_pos rfl⟩
    · rw [if_neg hn]
      exact .inr ⟨fun h => hn h.2.symm, map, hmap, hs⟩
  · rename_i hscope
    exact .inr ⟨fun h => hscope h.1, map', hmap', hs'⟩

/-- The placeholders where one thread was replaced were there before, or it is the new thread. -/
theorem Holds.of_replace {id : ScopeId} {n : Nat} {y : Module} {k : Word} (h : m'.Holds id n y k) :
    m.Holds id n y k ∨
      (id = scope ∧ n = i ∧ y = x.module.toModule ∧ k = v.id ∧ v.isPlaceholder = true) := by
  obtain ⟨map', hmap', s', hs', rfl, t, ht, rfl, hplace⟩ := h
  obtain ⟨rfl, rfl, rfl⟩ | ⟨-, map, hmap, hs⟩ := exists_of_replace hx hscopes hmap' hs'
  · rcases mem_modify ht with ht | rfl
    · obtain ⟨map, hmap, hs⟩ := Option.bind_eq_some_iff.1 ((ScopeTree.module?_eq ..).symm.trans hx)
      exact .inl ⟨map, hmap, x, hs, rfl, t, ht, rfl, hplace⟩
    · exact .inr ⟨rfl, rfl, rfl, rfl, hplace⟩
  · exact .inl ⟨map, hmap, s', hs, rfl, t, ht, rfl, hplace⟩

include hu

/-- A thread is replaced by one with its id that belongs to the place. -/
theorem Coherent.replace (h : m.Coherent) (hid : v.id = u.id)
    (howned : v.isPlaceholder = false → v.Owned x.module.toModule scope i) : m'.Coherent := by
  intro id map' hmap'
  rw [hscopes] at hmap'
  refine ScopeTree.forall_modifyMap h (fun map hmap => ?_) id map' hmap'
  have hplace : ∀ s : ModuleScope, map.modules[i]? = some s → s = x := by
    intro s hs
    rw [ScopeTree.module?_eq, hmap] at hx
    exact Option.some.inj (hs.symm.trans hx)
  refine (h scope map hmap).modifyThreads (f := fun ts => ts.modify (j ts) fun _ => v)
    (fun s hs => ?_) (fun s hs t ht hreal => ?_)
  · cases hplace s hs
    refine map_id_modify fun w hw => ?_
    cases hu.symm.trans hw
    exact hid.symm
  · rcases mem_modify ht with ht | rfl
    · exact .inl ht
    · cases hplace s hs
      exact .inr (howned hreal)

/-- Where a thread has come back, no placeholder has its id. -/
theorem Coherent.not_holds_of_replace (h : m.Coherent) (hid : v.id = u.id)
    (hreal : v.isPlaceholder = false) (y : Module) : ¬ m'.Holds scope i y v.id := by
  rintro ⟨map', hmap', s', hs', -, t, ht, hidt, hplace⟩
  obtain ⟨-, -, rfl⟩ | ⟨hother, -⟩ := exists_of_replace hx hscopes hmap' hs'
  · obtain ⟨map, hmap, hs⟩ := Option.bind_eq_some_iff.1 ((ScopeTree.module?_eq ..).symm.trans hx)
    have htv : t = v := eq_of_mem_modify ((h scope map hmap).distinct x (List.mem_of_getElem? hs))
      hu hid.symm ht hidt
    rw [htv, hreal] at hplace
    cases hplace
  · exact hother ⟨rfl, rfl⟩

end

include hx

/-- Taking a thread out leaves its placeholder and those that were there. -/
theorem holds_detach {id : ScopeId} {n : Nat} {y : Module} {k : Word}
    (h : (m.detach scope i j u.id).Holds id n y k) :
    m.Holds id n y k ∨ (id = scope ∧ n = i ∧ y = x.module.toModule ∧ k = u.id) :=
  (h.of_replace hx rfl).imp_right fun ⟨hscope, hn, hy, hk, _⟩ => ⟨hscope, hn, hy, hk⟩

include hu

/-- Taking a thread out leaves a machine coherent. -/
theorem Coherent.detach (h : m.Coherent) : (m.detach scope i j u.id).Coherent :=
  h.replace hx hu rfl rfl nofun

end

/-- A thread that ran is put in the place of its placeholder; without one, it is gone. -/
theorem reattach_cases (m : Machine) (scope : ScopeId) (i : Nat) (t : Thread) :
    (∃ s k p t', m.scopes.module? scope i = some s ∧ s.threads[k]? = some p ∧ p.id = t.id ∧
      p.isPlaceholder = true ∧ t.Restates t' ∧
      m.reattach scope i t = { m with scopes := m.scopes.modifyModule scope i fun s =>
        { s with threads := s.threads.modify (s.threads.findIdx (·.id == t.id)) fun _ => t' } } ∧
      k = s.threads.findIdx (·.id == t.id)) ∨
    ((∀ s p, m.scopes.module? scope i = some s → s.threads.find? (·.id == t.id) = some p →
      p.isPlaceholder = false) ∧ m.Evolves (m.reattach scope i t) ∧
      (m.reattach scope i t).scopes = m.scopes ∧ ∃ text, m.reattach scope i t =
        (m.log .debug text).report .threadStop (.threadStop { t with state := .stopped })) := by
  unfold reattach
  simp only [ModuleScope.modifyThread, updateFirst_eq_modify]
  split
  · rename_i p hp
    obtain ⟨hplaced, hplace⟩ := Option.filter_eq_some_iff.1 hp
    obtain ⟨s, hs, hfind⟩ := Option.bind_eq_some_iff.1 hplaced
    have hid : p.id = t.id := by simpa using List.find?_some hfind
    have hk : s.threads[s.threads.findIdx (·.id == t.id)]? = some p := by
      rw [← List.find?_eq_getElem?_findIdx]
      exact hfind
    left
    split
    · exact ⟨s, _, p, _, hs, hk, hid, hplace, .inr ⟨_, by decide, rfl⟩, rfl, rfl⟩
    · split
      · exact ⟨s, _, p, t, hs, hk, hid, hplace, .inl rfl, rfl, rfl⟩
      · exact ⟨s, _, p, _, hs, hk, hid, hplace, .inr ⟨_, by decide, rfl⟩, rfl, rfl⟩
    · exact ⟨s, _, p, t, hs, hk, hid, hplace, .inl rfl, rfl, rfl⟩
  · rename_i hnone
    refine .inr ⟨fun s p hs hfind => ?_, (Evolves.log ..).trans (.report ..), ?_, _, rfl⟩
    · rw [hs] at hnone
      have : ¬ p.isPlaceholder = true := by
        simpa [ModuleScope.thread?, hfind] using hnone
      simpa using this
    · unfold report
      split <;> rfl

/-- Putting a thread back adds to the trace at most. -/
theorem trace_reattach (m : Machine) (scope : ScopeId) (i : Nat) (t : Thread) :
    m.trace <:+ (m.reattach scope i t).trace := by
  rcases reattach_cases m scope i t with ⟨s, k, p, t', -, -, -, -, -, heq, -⟩ | ⟨-, hm, -⟩
  · simp only [heq, List.suffix_refl]
  · exact hm.trace

/-- Where the thread that is found by an id is no placeholder, no placeholder has the id. -/
theorem Coherent.not_holds_of_find? (h : m.Coherent) {scope : ScopeId} {i : Nat} {k : Word}
    (hreal : ∀ s p, m.scopes.module? scope i = some s → s.threads.find? (·.id == k) = some p →
      p.isPlaceholder = false) (y : Module) : ¬ m.Holds scope i y k := by
  rintro ⟨map, hmap, s, hs, -, t, ht, hid, hplace⟩
  have hs' : m.scopes.module? scope i = some s := by
    rw [ScopeTree.module?_eq, hmap]
    exact hs
  cases hfind : s.threads.find? (·.id == k) with
  | none =>
    have hnot := List.find?_eq_none.1 hfind t ht
    simp [hid] at hnot
  | some p =>
    have hp : p.id = k := by simpa using List.find?_some hfind
    have hpt : p = t := eq_of_id_eq ((h scope map hmap).distinct s (List.mem_of_getElem? hs))
      (List.mem_of_find?_eq_some hfind) ht (hp.trans hid.symm)
    have hplace' := hreal s p hs' hfind
    rw [hpt, hplace] at hplace'
    cases hplace'

/-- **A thread is put back** where a placeholder of it stands, and no placeholder of it is left. -/
theorem Coherent.reattach (hm : m.Coherent) (scope : ScopeId) (i : Nat) (u : Thread)
    (howned : ∀ s p, m.scopes.module? scope i = some s → p ∈ s.threads → p.id = u.id →
      p.isPlaceholder = true → u.isPlaceholder = false → u.Owned s.module.toModule scope i) :
    (m.reattach scope i u).Coherent ∧ ∀ {id n y k}, (m.reattach scope i u).Holds id n y k →
      m.Holds id n y k ∧ (u.isPlaceholder = false → ¬ (id = scope ∧ n = i ∧ k = u.id)) := by
  rcases reattach_cases m scope i u with
    ⟨s, k, p, v, hs, hk, hid, hplace, hrestates, heq, rfl⟩ | ⟨hreal, -, hscopes, -⟩
  · have hv := hrestates.stays
    have hvp : v.id = p.id := hv.id.trans hid.symm
    have howned := howned s p hs (List.mem_of_getElem? hk) hid hplace
    have howned' : v.isPlaceholder = false → v.Owned s.module.toModule scope i := by
      intro hreal
      have hu := howned (hv.same.isPlaceholder_eq.symm.trans hreal)
      exact hu.same hv.same (hu.framed.stays hv)
    let j : List Thread → Nat := fun ts => ts.findIdx (·.id == u.id)
    have hscopes : (m.reattach scope i u).scopes = m.scopes.modifyModule scope i fun s =>
        { s with threads := s.threads.modify (j s.threads) fun _ => v } := by
      rw [heq]
    refine ⟨hm.replace (v := v) (j := j) hs hk hscopes hvp howned', fun {id n y k'} hheld => ⟨?_, ?_⟩⟩
    · obtain hold | ⟨rfl, rfl, rfl, rfl, -⟩ := hheld.of_replace (v := v) (j := j) hs hscopes
      · exact hold
      · obtain ⟨map, hmap, hat⟩ := Option.bind_eq_some_iff.1 ((ScopeTree.module?_eq ..).symm.trans hs)
        exact ⟨map, hmap, s, hat, rfl, p, List.mem_of_getElem? hk, hvp.symm, hplace⟩
    · rintro hreal ⟨rfl, rfl, rfl⟩
      rw [← hv.id] at hheld
      exact hm.not_holds_of_replace (v := v) (j := j) hs hk hscopes hvp
        (hv.same.isPlaceholder_eq.trans hreal) y hheld
  · refine ⟨fun id map hmap => hm id map (hscopes ▸ hmap), fun {id n y k} hheld => ?_⟩
    have hold : m.Holds id n y k := by
      obtain ⟨map, hmap, hrest⟩ := hheld
      exact ⟨map, hscopes ▸ hmap, hrest⟩
    refine ⟨hold, ?_⟩
    rintro - ⟨rfl, rfl, rfl⟩
    exact hm.not_holds_of_find? hreal y hold

/-- A thread that was taken out is put back; the placeholders that are left were there before. -/
theorem coherent_reattach {scope : ScopeId} {i : Nat} {x : ModuleScope} {u u' : Thread}
    (hx : m.scopes.module? scope i = some x) (hmem : u ∈ x.threads)
    (hpast : ∀ {id n y k}, m'.Holds id n y k →
      m.Holds id n y k ∨ (id = scope ∧ n = i ∧ y = x.module.toModule ∧ k = u.id))
    (hsame : u.Same u') (hframed : u.Framed → u'.Framed) (hm : m.Coherent) (hm' : m'.Coherent) :
    (m'.reattach scope i u').Coherent ∧
      ∀ {id n y k}, (m'.reattach scope i u').Holds id n y k → m.Holds id n y k := by
  obtain ⟨map, hmap, hat⟩ : ∃ map, m.scopes.map? scope = some map ∧ map.modules[i]? = some x :=
    Option.bind_eq_some_iff.1 hx
  obtain ⟨hcoherent, hholds⟩ := hm'.reattach scope i u'
    fun s p hs hp hid hplace hreal => by
      -- the place of the placeholder is the place the thread was taken from
      have hmodule : s.module.toModule = x.module.toModule := by
        obtain ⟨map', hmap', hs⟩ := Option.bind_eq_some_iff.1 ((ScopeTree.module?_eq ..).symm.trans hs)
        rcases hpast ⟨map', hmap', s, hs, rfl, p, hp, hid, hplace⟩ with ⟨map₀, hmap₀, s₀, hs₀, hy, -⟩ | h
        · cases hmap.symm.trans hmap₀
          cases hat.symm.trans hs₀
          exact hy.symm
        · exact h.2.2.1
      rw [hmodule]
      have howned := (hm scope map hmap).owned i x hat u hmem (hsame.isPlaceholder_eq.symm.trans hreal)
      exact howned.same hsame (hframed howned.framed)
  refine ⟨hcoherent, fun {id n y k} hk => ?_⟩
  obtain ⟨hheld, hother⟩ := hholds hk
  rcases hpast hheld with h | ⟨rfl, rfl, rfl, rfl⟩
  · exact h
  · -- then the thread itself is a placeholder
    cases hplace : u'.isPlaceholder with
    | false => exact absurd ⟨rfl, rfl, hsame.id.symm⟩ (hother hplace)
    | true =>
      exact ⟨map, hmap, x, hat, rfl, u, hmem, rfl, hsame.isPlaceholder_eq.symm.trans hplace⟩

/-! ## Runs -/

variable {c : Terms} {t t' : Thread}

/-- Messages are added to the trace, and none goes. -/
theorem Goes.trace (hgoes : Goes c.rule m t m' t') : m.trace <:+ m'.trace := by
  induction hgoes with
  | evolve hm => exact hm.trace
  | proceed _ => exact List.suffix_refl _
  | host hA =>
    rcases hA.2 with rfl | hdeed
    · exact List.suffix_refl _
    · exact hdeed.advances.trace
  | busy _ _ => exact List.suffix_refl _
  | trans _ _ ih ih' => exact ih.trans ih'
  | turn _ _ _ _ ih => exact ih.trans (trace_reattach ..)

/-- The thread that is out of the tree stays the same thread, and its frames stay in order. -/
theorem Goes.thread (hgoes : Goes c.rule m t m' t') : t.Same t' ∧ (t.Framed → t'.Framed) := by
  induction hgoes with
  | evolve _ => exact ⟨.refl _, fun h => h⟩
  | proceed hp => exact ⟨hp.same, hp.framed⟩
  | host hA => exact ⟨hA.1.same, fun h => h.stays hA.1⟩
  | busy _ _ => exact ⟨.refl _, fun h => h⟩
  | trans _ _ ih ih' => exact ⟨ih.1.trans ih'.1, fun h => ih'.2 (ih.2 h)⟩
  | turn _ _ _ _ _ => exact ⟨.refl _, fun h => h⟩

/-- **Turns keep a machine coherent**, and every thread that was taken out is put back. -/
theorem Goes.coherent (hgoes : Goes c.rule m t m' t') (h : m.Led) (hfresh : ¬ m'.Exhausted)
    (hm : m.Coherent) : m'.Coherent ∧ ∀ {id n y k}, m'.Holds id n y k → m.Holds id n y k := by
  induction hgoes with
  | evolve he => exact ⟨hm.evolve h he hfresh, he.holds⟩
  | proceed _ => exact ⟨hm, id⟩
  | host hA =>
    rcases hA.2 with rfl | hdeed
    · exact ⟨hm, id⟩
    · have hscopes := hdeed.advances.scopes
      exact ⟨hm.evolve_scopes h hscopes hfresh, fun hk => hk.of_evolves hscopes⟩
  | busy _ _ => exact ⟨hm, id⟩
  | trans h₁ h₂ ih ih' =>
    obtain ⟨hc, hheld⟩ := ih h (fun he => hfresh (he.mono h₂.trace)) hm
    obtain ⟨hc', hheld'⟩ := ih' (h₁.led h) hfresh hc
    exact ⟨hc', fun hk => hheld (hheld' hk)⟩
  | @turn m m' t scope i x u u₁ u' j hx hu hu₁ hg ih =>
    have hfresh' : ¬ m'.Exhausted := fun he => hfresh (he.mono (trace_reattach ..))
    obtain ⟨hc, hheld⟩ := ih (h.detach scope i j u.id) hfresh' (hm.detach hx hu)
    obtain ⟨hsame, hframed⟩ := hg.thread
    exact coherent_reattach hx (List.mem_of_getElem? hu) (fun hk => holds_detach hx (hheld hk))
      (hu₁.same.trans hsame) (fun hf => hframed (hf.restated hu₁)) hm hc

/-- Every thread of the machine fits its place. -/
def Intact (m : Machine) : Prop := ∀ id map, m.scopes.map? id = some map → map.Intact id

/-- A saved state brings threads that fit, and no placeholders. -/
theorem holds_of_load {s rest : Bytes} (hload : m.load s = (.ok rest, m')) :
    m.trace <:+ m'.trace ∧ ∀ id n y k, ¬ m'.Holds id n y k := by
  obtain ⟨strings, modules, m₁, hl⟩ := exists_loaded hload
  obtain ⟨n, s₁, rest₁, hfetch⟩ := hl.fetch
  refine ⟨(fetchModules_eq_ok hfetch).1.trace.trans hl.trace, ?_⟩
  rintro id n y k ⟨map, hmap, x, hx, -, t, ht, -, hplace⟩
  have hmodule := ((hl.scopes id map hmap).intact n x hx t ht).module
  rw [isPlaceholder, Option.isNone_iff_eq_none] at hplace
  rw [hplace] at hmodule
  cases hmodule

/-- No placeholder is left in the machine. -/
def Whole (m : Machine) : Prop := ∀ id n y k, ¬ m.Holds id n y k

/-- In a coherent machine without placeholders every thread fits its place. -/
theorem Coherent.intact (h : m.Coherent) (hwhole : m.Whole) : m.Intact := by
  intro id map hmap i s hs t ht
  refine ((h id map hmap).owned i s hs t ht ?_).fits
  cases hplace : t.isPlaceholder with
  | false => rfl
  | true => exact absurd ⟨map, hmap, s, hs, rfl, t, ht, rfl, hplace⟩ (hwhole id i s.module.toModule t.id)

section

variable {R : Regime}

/-- What a host does takes no message back. -/
theorem Regime.Handles.trace {occasion : Occasion} (h : R.Handles occasion m m') :
    m.trace <:+ m'.trace :=
  (h.goes (t := default)).trace

/-- **A run keeps a machine coherent**, and leaves no placeholder behind, if states that are loaded are
coherent and ids do not go round. -/
theorem Regime.Run.coherent (h : R.Run m) (htakes : ∀ m m', R.takes m m' → m'.Coherent)
    (hreturns : ∀ {X Y Y' : Machine} {bytes tail rest : Bytes}, R.returns X Y →
      (¬ X.Exhausted → X.Coherent ∧ X.Whole) → X.save.1 = .ok bytes →
      Y.load (bytes ++ tail) = (.ok rest, Y') → Y'.Coherent)
    (hfresh : ¬ m.Exhausted) : m.Coherent ∧ m.Whole := by
  induction h with
  | make settings => exact ⟨nofun, by rintro id n y k ⟨map, hmap, -⟩; cases hmap⟩
  | @handle occasion m m' h hdo ih =>
    have hgoes : Goes R.terms.rule m default m' default := hdo.goes
    obtain ⟨hm, hwhole⟩ := ih fun he => hfresh (he.mono hgoes.trace)
    obtain ⟨hc, hheld⟩ := hgoes.coherent h.led hfresh hm
    exact ⟨hc, fun id n y k hk => hwhole id n y k (hheld hk)⟩
  | load _ hload ht _ => exact ⟨htakes _ _ ht, (holds_of_load hload).2⟩
  | reload _ _ hsave hload hback ihX _ =>
    exact ⟨hreturns hback ihX hsave hload, (holds_of_load hload).2⟩

end

variable {sources : Nat → Bytes} {L : Machine → Prop}

/-- The machines that careful hosts run are coherent and whole, if loaded states are coherent. -/
theorem Reached.coherent (h : Reached sources L m) (hL : ∀ m, L m → m.Coherent)
    (hfresh : ¬ m.Exhausted) : m.Coherent ∧ m.Whole :=
  Regime.Run.coherent h (fun _ _ ht => hL _ ht.2.2) (fun hback _ _ _ => hback.elim) hfresh

/-- **At rest every thread fits its place**, if states that were loaded are coherent and ids did not
go round. -/
theorem Reached.intact (h : Reached sources L m) (hL : ∀ m, L m → m.Coherent)
    (hfresh : ¬ m.Exhausted) : m.Intact := by
  obtain ⟨hm, hwhole⟩ := h.coherent hL hfresh
  exact hm.intact hwhole

end Machine

end ScriptMachine
