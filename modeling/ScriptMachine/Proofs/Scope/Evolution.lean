import ScriptMachine.Proofs.Scope.Lookup
import ScriptMachine.Proofs.Thread.Moves

/-!
# What happens to a map

While no thread is taken out of a map or put back, five things can happen to it: its variables,
flags and the states of its threads change; a thread is added at the start of a script; an id is used
up; a thread is removed; or a module is added.  `MapScope.Step` lists them, and every function of the
machine that touches the scope tree is described by this list (`ScopeTree.Evolves`).
-/

namespace ScriptMachine

/-- Data of a thread change between its turns, or a tick up to `now` is noted. -/
structure Thread.Restated (now : Nat) (t t' : Thread) : Prop where
  stays : Stays { t with lastTick := t'.lastTick } t'
  tick : t'.lastTick = t.lastTick ∨ t'.lastTick ≤ now

namespace Thread.Restated

variable {now : Nat} {t t' t'' : Thread}

theorem refl (t : Thread) : Restated now t t := ⟨.refl t, .inl rfl⟩

/-- A thread that stays is restated. -/
theorem of_stays (h : Stays t t') : Restated now t t' := by
  refine ⟨?_, .inl h.lastTick⟩
  rw [h.lastTick]
  exact h

/-- A thread with another state is restated. -/
theorem setState (t : Thread) (s : ThreadState) : Restated now t { t with state := s } :=
  of_stays ((Stays.refl t).setState s)

end Thread.Restated

namespace MapScope

/-- The modules of a map, each with the ids of its threads. -/
def outline (m : MapScope) : List (LoadedModule × List Word) :=
  m.modules.map fun s => (s.module, s.threads.map (·.id))

/-- Script names lead to where they led; other threads may hold them. -/
def SlotsWithin (a b : OrdMap ScriptName ScriptSlot) : Prop :=
  ∀ name s', b.find? name = some s' →
    ∃ s, a.find? name = some s ∧ s'.moduleIndex = s.moduleIndex ∧ s'.scriptIndex = s.scriptIndex

theorem SlotsWithin.refl (a : OrdMap ScriptName ScriptSlot) : SlotsWithin a a :=
  fun _ s h => ⟨s, h, rfl, rfl⟩

/-- Another thread may take a name, or the thread that holds it may give it up. -/
theorem SlotsWithin.modify (a : OrdMap ScriptName ScriptSlot) (name : ScriptName)
    {f : ScriptSlot → ScriptSlot}
    (hf : ∀ s, (f s).moduleIndex = s.moduleIndex ∧ (f s).scriptIndex = s.scriptIndex) :
    SlotsWithin a (a.modify name f) := by
  intro name' s' h
  rw [OrdMap.find?_modify] at h
  split at h
  · obtain ⟨s, hs, rfl⟩ := Option.map_eq_some_iff.1 h
    exact ⟨s, hs, hf s⟩
  · exact ⟨s', h, rfl, rfl⟩

/-- Whether a slot leads to a script. -/
def Leads (m : MapScope) (slot : ScriptSlot) : Prop :=
  ∃ s, m.modules[slot.moduleIndex]? = some s ∧ slot.scriptIndex < s.module.scripts.size

/-- What can happen to the map `id`.  `known` says which modules may be added, ticks up to `now` may
be noted, and `wraps` holds if the ids go round. -/
inductive Step (known : LoadedModule → Prop) (now : Nat) (wraps : Prop) (id : ScopeId) :
    MapScope → MapScope → Prop
  | restate {m m' : MapScope} (houtline : m'.outline = m.outline)
      (hthreads : ∀ (i : Nat) (s' : ModuleScope), m'.modules[i]? = some s' →
        ∃ s : ModuleScope, m.modules[i]? = some s ∧
        ∀ t' ∈ s'.threads, ∃ t ∈ s.threads, t.Restated now t')
      (hslots : SlotsWithin m.slots m'.slots) (hnext : m'.nextThreadId = m.nextThreadId) :
    Step known now wraps id m m'
  | spawn {m m' : MapScope} {i j : Nat} {s args info t} (hs : m.modules[i]? = some s)
      (ht : Thread.make? m.nextThreadId s.module id i j args info = some t)
      (hmodules : m'.modules = m.modules.modify i fun s => { s with threads := s.threads ++ [t] })
      (hslots : SlotsWithin m.slots m'.slots)
      (hnext : m'.nextThreadId = m.takeThreadId.2.nextThreadId)
      (hwraps : m.nextThreadId = 0xFFFFFFFF → wraps) :
    Step known now wraps id m m'
  /-- An id is used up for a script that is not there. -/
  | skip {m : MapScope} {name slot} (hslot : m.slots.find? name = some slot) (hstray : ¬ m.Leads slot) :
    Step known now wraps id m m.takeThreadId.2
  | reap {m m' : MapScope} (i j : Nat)
      (hmodules : m'.modules = m.modules.modify i fun s =>
        { s with threads := s.threads.eraseIdx j })
      (hslots : SlotsWithin m.slots m'.slots) (hnext : m'.nextThreadId = m.nextThreadId) :
    Step known now wraps id m m'
  | add {m m' : MapScope} {module : LoadedModule} (hknown : known module)
      (hmodules : m'.modules = m.modules ++ [ModuleScope.make module])
      (hslots : ∀ name s', m'.slots.find? name = some s' →
        (∃ s, m.slots.find? name = some s ∧ s'.moduleIndex = s.moduleIndex ∧
          s'.scriptIndex = s.scriptIndex) ∨
        (s'.moduleIndex = m.modules.length ∧ s'.scriptIndex < module.scripts.size))
      (hnext : m'.nextThreadId = m.nextThreadId) :
    Step known now wraps id m m'
  | trans {m₁ m₂ m₃} (h : Step known now wraps id m₁ m₂) (h' : Step known now wraps id m₂ m₃) :
    Step known now wraps id m₁ m₃

namespace Step

variable {known known' : LoadedModule → Prop} {now now' : Nat} {wraps wraps' : Prop} {id : ScopeId}
  {m m' : MapScope}

theorem refl (m : MapScope) : Step known now wraps id m m :=
  .restate rfl (fun _ s hs => ⟨s, hs, fun t ht => ⟨t, ht, .refl t⟩⟩) (.refl _) rfl

/-- More is allowed with more known modules, later ticks and more reasons for ids to go round. -/
theorem mono (hknown : ∀ x, known x → known' x) (hnow : now ≤ now') (hwraps : wraps → wraps')
    (h : Step known now wraps id m m') : Step known' now' wraps' id m m' := by
  induction h with
  | restate houtline hthreads hslots hnext =>
    refine .restate houtline (fun i s' hs' => ?_) hslots hnext
    obtain ⟨s, hs, ht⟩ := hthreads i s' hs'
    refine ⟨s, hs, fun t' ht' => ?_⟩
    obtain ⟨t, hmem, hr⟩ := ht t' ht'
    exact ⟨t, hmem, hr.stays, hr.tick.imp_right fun h => Nat.le_trans h hnow⟩
  | spawn hs ht hmodules hslots hnext hw =>
    exact .spawn hs ht hmodules hslots hnext fun h => hwraps (hw h)
  | skip hslot hstray => exact .skip hslot hstray
  | reap i j hmodules hslots hnext => exact .reap i j hmodules hslots hnext
  | add hk hmodules hslots hnext => exact .add (hknown _ hk) hmodules hslots hnext
  | trans _ _ ih ih' => exact ih.trans ih'

/-- A map whose modules and threads stay, but for the variables. -/
theorem of_modules (hmodules : m'.modules.map (fun s => (s.module, s.threads)) =
      m.modules.map fun s => (s.module, s.threads))
    (hslots : SlotsWithin m.slots m'.slots) (hnext : m'.nextThreadId = m.nextThreadId) :
    Step known now wraps id m m' := by
  refine .restate ?_ (fun i s' hs' => ?_) hslots hnext
  · have := congrArg (List.map fun p : LoadedModule × List Thread => (p.1, p.2.map (·.id))) hmodules
    simpa [outline, Function.comp_def] using this
  · have hi := congrArg (fun l => l[i]?) hmodules
    simp only [List.getElem?_map, hs', Option.map_some] at hi
    obtain ⟨s, hs, heq⟩ := Option.map_eq_some_iff.1 hi.symm
    rw [Prod.mk.injEq] at heq
    exact ⟨s, hs, fun t ht => ⟨t, heq.2 ▸ ht, .refl t⟩⟩

/-- The threads of one module change in place. -/
theorem of_threads {i : Nat} {f : List Thread → List Thread}
    (hids : ∀ s, m.modules[i]? = some s → (f s.threads).map (·.id) = s.threads.map (·.id))
    (hthreads : ∀ s, m.modules[i]? = some s →
      ∀ t' ∈ f s.threads, ∃ t ∈ s.threads, t.Restated now t') :
    Step known now wraps id m (m.modifyModule i fun s => { s with threads := f s.threads }) := by
  refine .restate ?_ (fun k s' hs' => ?_) (.refl _) rfl
  · apply List.ext_getElem?
    intro k
    simp only [outline, modifyModule, List.getElem?_map, List.getElem?_modify]
    split
    · rename_i hk
      subst hk
      cases hs : m.modules[i]? with
      | none => rfl
      | some s => simp [hids s hs]
    · simp
  · simp only [modifyModule, List.getElem?_modify] at hs'
    obtain ⟨s, hs, heq⟩ := Option.map_eq_some_iff.1 hs'
    refine ⟨s, hs, fun t' ht' => ?_⟩
    split at heq
    · rename_i hk
      subst hk
      subst heq
      exact hthreads s hs t' ht'
    · subst heq
      exact ⟨t', ht', .refl t'⟩

/-- The modules of a map stay, and known ones are added behind them. -/
theorem modules (h : Step known now wraps id m m') :
    ∃ new, m'.modules.map (·.module) = m.modules.map (·.module) ++ new ∧ ∀ x ∈ new, known x := by
  have hstay : ∀ {m m' : MapScope} {i : Nat} {f : List Thread → List Thread},
      m'.modules = m.modules.modify i (fun s => { s with threads := f s.threads }) →
      m'.modules.map (·.module) = m.modules.map (·.module) ++ [] := by
    intro m m' i f hmodules
    apply List.ext_getElem?
    intro k
    rw [hmodules, List.append_nil, List.getElem?_map, List.getElem?_map, List.getElem?_modify]
    split <;> cases m.modules[k]? <;> rfl
  induction h with
  | restate houtline hthreads hslots hnext =>
    refine ⟨[], ?_, by simp⟩
    have := congrArg (List.map Prod.fst) houtline
    simpa [outline, Function.comp_def] using this
  | @spawn m m' i j s args info t hs ht hmodules =>
    exact ⟨[], hstay (f := fun ts => ts ++ [t]) hmodules, by simp⟩
  | skip hslot hstray => exact ⟨[], by simp [takeThreadId], by simp⟩
  | reap i j hmodules => exact ⟨[], hstay (f := fun ts => ts.eraseIdx j) hmodules, by simp⟩
  | @add m m' module hknown hmodules =>
    exact ⟨[module], by simp [hmodules, ModuleScope.make], by simpa using hknown⟩
  | trans _ _ ih ih' =>
    obtain ⟨new, heq, hnew⟩ := ih
    obtain ⟨new', heq', hnew'⟩ := ih'
    refine ⟨new ++ new', by rw [heq', heq, List.append_assoc], fun x hx => ?_⟩
    rcases List.mem_append.1 hx with hx | hx
    · exact hnew x hx
    · exact hnew' x hx

end Step

/-- A slot leads where it led, whatever comes behind. -/
theorem Leads.of_append {m m' : MapScope} {slot slot' : ScriptSlot} {new : List LoadedModule}
    (hmodules : m'.modules.map (·.module) = m.modules.map (·.module) ++ new) (h : m.Leads slot)
    (hmodule : slot'.moduleIndex = slot.moduleIndex) (hscript : slot'.scriptIndex = slot.scriptIndex) :
    m'.Leads slot' := by
  obtain ⟨s, hs, hlt⟩ := h
  have hk : (m'.modules.map (·.module))[slot.moduleIndex]? = some s.module := by
    have hlen : slot.moduleIndex < (m.modules.map (·.module)).length := by
      simpa using (List.getElem?_eq_some_iff.1 hs).1
    rw [hmodules, List.getElem?_append_left hlen, List.getElem?_map, hs]
    rfl
  rw [List.getElem?_map] at hk
  obtain ⟨s', hs', heq⟩ := Option.map_eq_some_iff.1 hk
  exact ⟨s', hmodule ▸ hs', by rw [hscript, heq]; exact hlt⟩

end MapScope

namespace ScopeTree

/-- Every map of the later tree was new, or a map of the earlier tree, and went on from there. -/
def Evolves (known : LoadedModule → Prop) (now : Nat) (wraps : Prop) (s s' : ScopeTree) : Prop :=
  ∀ id map', s'.map? id = some map' →
    ∃ map, (s.map? id = some map ∨ map = {}) ∧ MapScope.Step known now wraps id map map'

namespace Evolves

variable {known known' : LoadedModule → Prop} {now now' : Nat} {wraps wraps' : Prop}
  {s s' s'' : ScopeTree}

/-- A tree with fewer maps, and some new ones. -/
theorem of_map? (h : ∀ id map, s'.map? id = some map → s.map? id = some map ∨ map = {}) :
    Evolves known now wraps s s' := fun id map' hmap => ⟨map', h id map' hmap, .refl map'⟩

theorem refl (s : ScopeTree) : Evolves known now wraps s s := of_map? fun _ _ h => .inl h

theorem trans (h : Evolves known now wraps s s') (h' : Evolves known now wraps s' s'') :
    Evolves known now wraps s s'' := by
  intro id map'' hmap''
  obtain ⟨map', hmap', hstep'⟩ := h' id map'' hmap''
  rcases hmap' with hmap' | rfl
  · obtain ⟨map, hmap, hstep⟩ := h id map' hmap'
    exact ⟨map, hmap, hstep.trans hstep'⟩
  · exact ⟨{}, .inr rfl, hstep'⟩

/-- What is known may be more, the tick later, and ids may go round. -/
theorem mono (hknown : ∀ x, known x → known' x) (hnow : now ≤ now') (hwraps : wraps → wraps')
    (h : Evolves known now wraps s s') : Evolves known' now' wraps' s s' := by
  intro id map' hmap'
  obtain ⟨map, hmap, hstep⟩ := h id map' hmap'
  exact ⟨map, hmap, hstep.mono hknown hnow hwraps⟩

/-- **What holds of all maps** still does when the tree has evolved, if it holds of a new map and maps keep it
in all they go through. -/
theorem forall_maps {P : ScopeId → MapScope → Prop} (h : Evolves known now wraps s s')
    (hstep : ∀ {id map map'}, MapScope.Step known now wraps id map map' → P id map → P id map')
    (hnew : ∀ id, P id {}) (hs : ∀ id map, s.map? id = some map → P id map) :
    ∀ id map', s'.map? id = some map' → P id map' := by
  intro id map' hmap'
  obtain ⟨map, hmap, hmap''⟩ := h id map' hmap'
  refine hstep hmap'' ?_
  rcases hmap with hmap | rfl
  · exact hs id map hmap
  · exact hnew id

/-- One map changes. -/
theorem modifyMap (id : ScopeId) {f : MapScope → MapScope}
    (hf : ∀ map, s.map? id = some map → MapScope.Step known now wraps id map (f map)) :
    Evolves known now wraps s (s.modifyMap id f) := by
  intro id' map' hmap'
  rw [map?_modifyMap] at hmap'
  split at hmap'
  · rename_i hid
    subst hid
    obtain ⟨map, hmap, rfl⟩ := Option.map_eq_some_iff.1 hmap'
    exact ⟨map, .inl hmap, hf map hmap⟩
  · exact ⟨map', .inl hmap', .refl map'⟩

/-- Threads of one module change in place. -/
theorem modifyModule (id : ScopeId) (i : Nat) {f : List Thread → List Thread}
    (hids : ∀ x, s.module? id i = some x → (f x.threads).map (·.id) = x.threads.map (·.id))
    (hthreads : ∀ x, s.module? id i = some x →
      ∀ t' ∈ f x.threads, ∃ t ∈ x.threads, t.Restated now t') :
    Evolves known now wraps s
      (s.modifyModule id i fun x => { x with threads := f x.threads }) := by
  refine modifyMap id fun map hmap => .of_threads (fun x hx => hids x ?_) (fun x hx => hthreads x ?_)
  · rw [module?_eq, hmap]
    exact hx
  · rw [module?_eq, hmap]
    exact hx

/-- One thread of a module changes in place. -/
theorem modifyThread (id : ScopeId) (i : Nat) {j : List Thread → Nat} {f : Thread → Thread}
    (hf : ∀ x t, s.module? id i = some x → x.threads[j x.threads]? = some t → t.Restated now (f t)) :
    Evolves known now wraps s
      (s.modifyModule id i fun x => { x with threads := x.threads.modify (j x.threads) f }) := by
  refine modifyModule id i (f := fun ts => ts.modify (j ts) f) (fun x hx => ?_)
    (fun x hx t' ht' => ?_)
  · apply List.ext_getElem?
    intro k
    simp only [List.getElem?_map, List.getElem?_modify]
    split
    · rename_i hk
      subst hk
      cases ht : x.threads[j x.threads]? with
      | none => rfl
      | some t => simpa using (hf x t hx ht).stays.id
    · simp
  · obtain ⟨k, hk⟩ := List.getElem?_of_mem ht'
    rw [List.getElem?_modify] at hk
    obtain ⟨t, ht, rfl⟩ := Option.map_eq_some_iff.1 hk
    refine ⟨t, List.mem_of_getElem? ht, ?_⟩
    split
    · rename_i hj
      subst hj
      exact hf x t hx ht
    · exact .refl t

/-- Variables change. -/
theorem modifyVars (level : Level) (id : ScopeId) (i : Nat) (f : Vars → Vars) :
    Evolves known now wraps s (s.modifyVars level id i f) := by
  intro id' map' hmap'
  rw [map?_modifyVars] at hmap'
  split at hmap'
  · rename_i hid
    obtain ⟨map, hmap, rfl⟩ := Option.map_eq_some_iff.1 hmap'
    refine ⟨map, .inl (hid.2 ▸ hmap), .of_modules ?_ (.refl _) rfl⟩
    apply List.ext_getElem?
    intro k
    simp only [MapScope.modifyModule, List.getElem?_map, List.getElem?_modify]
    split <;> cases map.modules[k]? <;> rfl
  · exact ⟨map', .inl hmap', .refl map'⟩

end Evolves

end ScopeTree

end ScriptMachine
