import ScriptMachine.Proofs.Machine.Stirring
import ScriptMachine.Proofs.Thread.Framing

/-!
# How maps grow while scripts run

Scripts add threads behind those that are there, put threads into states, and hand script names to
threads they add; they remove nothing, and they neither make nor free scopes.  `MapScope.Extends`
says so of one map, place by place, and `ScopeTree.shape` is what stays of the tree: which scopes
there are, and which of them are active.
-/

namespace ScriptMachine

/-! ## The shape of a tree -/

/-- Which maps a hub has, and whether they are active. -/
def HubScope.shape (h : HubScope) : Bool × OrdMap Word Bool :=
  (h.active, h.maps.mapValues MapScope.active)

/-- Which scopes there are below a global scope, and whether they are active. -/
def GlobalScope.shape (g : GlobalScope) : Bool × OrdMap Word (Bool × OrdMap Word Bool) :=
  (g.active, g.hubs.mapValues HubScope.shape)

namespace ScopeTree

/-- Which scopes there are, and whether they are active. -/
def shape (s : ScopeTree) : OrdMap Word (Bool × OrdMap Word (Bool × OrdMap Word Bool)) :=
  s.globals.mapValues GlobalScope.shape

variable {s s' : ScopeTree}

/-- Global scopes that keep their shape leave that of the tree. -/
theorem shape_modifyGlobal {g : Word} {f : GlobalScope → GlobalScope}
    (hf : ∀ x, s.global? g = some x → (f x).shape = x.shape) : (s.modifyGlobal g f).shape = s.shape :=
  OrdMap.mapValues_modify_of_eq hf

/-- Hubs that keep their shape leave that of the tree. -/
theorem shape_modifyHub {g h : Word} {f : HubScope → HubScope}
    (hf : ∀ x, s.hub? g h = some x → (f x).shape = x.shape) :
    (s.modifyHub g h f).shape = s.shape := by
  refine shape_modifyGlobal fun x hx => ?_
  have hhubs : (x.hubs.modify h f).mapValues HubScope.shape = x.hubs.mapValues HubScope.shape := by
    refine OrdMap.mapValues_modify_of_eq fun y hy => hf y ?_
    rw [hub?, hx]
    exact hy
  simp only [GlobalScope.shape, hhubs]

/-- Whether maps are active is all of their shape. -/
theorem shape_modifyMap {id : ScopeId} {f : MapScope → MapScope}
    (hf : ∀ x, s.map? id = some x → (f x).active = x.active) :
    (s.modifyMap id f).shape = s.shape := by
  refine shape_modifyHub fun x hx => ?_
  have hmaps : (x.maps.modify id.map f).mapValues MapScope.active =
      x.maps.mapValues MapScope.active := by
    refine OrdMap.mapValues_modify_of_eq fun y hy => hf y ?_
    rw [map?, hx]
    exact hy
  simp only [HubScope.shape, hmaps]

/-- Module scopes are not in the shape. -/
theorem shape_modifyModule (s : ScopeTree) (id : ScopeId) (i : Nat) (f : ModuleScope → ModuleScope) :
    (s.modifyModule id i f).shape = s.shape :=
  shape_modifyMap fun _ _ => rfl

/-- Variables are not in the shape. -/
theorem shape_modifyVars (s : ScopeTree) (level : Level) (id : ScopeId) (i : Nat) (f : Vars → Vars) :
    (s.modifyVars level id i f).shape = s.shape := by
  cases level with
  | thread => rfl
  | module => exact shape_modifyModule ..
  | hub => exact shape_modifyHub fun _ _ => rfl
  | global => exact shape_modifyGlobal fun _ _ => rfl

/-- Which maps are active is known from the shape. -/
theorem isActive_eq_of_shape (h : s'.shape = s.shape) (id : ScopeId) :
    s'.isActive id = s.isActive id := by
  have heq : ∀ s : ScopeTree, s.isActive id = match s.shape.find? id.global with
      | none => false
      | some g => match g.2.find? id.hub with
        | none => false
        | some h => match h.2.find? id.map with
          | none => false
          | some m => g.1 && h.1 && m := by
    intro s
    simp only [isActive, global?, shape, OrdMap.find?_mapValues]
    cases s.globals.find? id.global with
    | none => rfl
    | some g =>
      simp only [Option.map_some, GlobalScope.shape, OrdMap.find?_mapValues]
      cases g.hubs.find? id.hub with
      | none => rfl
      | some h =>
        simp only [Option.map_some, HubScope.shape, OrdMap.find?_mapValues]
        cases h.maps.find? id.map <;> rfl
  rw [heq, heq, h]

/-- Which maps there are is known from the shape. -/
theorem isSome_map?_eq_of_shape (h : s'.shape = s.shape) (id : ScopeId) :
    (s'.map? id).isSome = (s.map? id).isSome := by
  have heq : ∀ s : ScopeTree, (s.map? id).isSome = (((s.shape.find? id.global).bind fun g =>
      g.2.find? id.hub).bind fun h => h.2.find? id.map).isSome := by
    intro s
    simp only [map?, hub?, global?, shape, OrdMap.find?_mapValues]
    cases s.globals.find? id.global with
    | none => rfl
    | some g =>
      simp only [Option.map_some, Option.bind_eq_bind, Option.bind_some, GlobalScope.shape,
        OrdMap.find?_mapValues]
      cases g.hubs.find? id.hub with
      | none => rfl
      | some h =>
        simp only [Option.map_some, Option.bind_some, HubScope.shape, OrdMap.find?_mapValues]
        cases h.maps.find? id.map <;> rfl
  rw [heq, heq, h]

end ScopeTree

/-! ## Maps that grow -/

/-- Threads of a module scope stay in their places, related by `R`; others come behind them, with ids
from `next` on. -/
structure ModuleScope.Extends (R : Nat → Thread → Thread → Prop) (next : Word) (s s' : ModuleScope) :
    Prop where
  module : s'.module = s.module
  old : ∀ k t, s.threads[k]? = some t → ∃ t', s'.threads[k]? = some t' ∧ R k t t'
  new : ∀ k t', s.threads.length ≤ k → s'.threads[k]? = some t' →
    next ≤ t'.id ∧ t'.isPlaceholder = false

/-- Module scopes stay, with more threads; script names lead where they led, and are held by the
threads that held them or by new ones. -/
structure MapScope.Extends (R : Nat → Nat → Thread → Thread → Prop) (m m' : MapScope) : Prop where
  active : m'.active = m.active
  next : m.nextThreadId ≤ m'.nextThreadId
  length : m'.modules.length = m.modules.length
  module : ∀ (i : Nat) (s : ModuleScope), m.modules[i]? = some s →
    ∃ s', m'.modules[i]? = some s' ∧ s.Extends (R i) m.nextThreadId s'
  slot : ∀ name slot', m'.slots.find? name = some slot' → ∃ slot, m.slots.find? name = some slot ∧
    slot'.moduleIndex = slot.moduleIndex ∧ slot'.scriptIndex = slot.scriptIndex ∧
    (slot'.thread = slot.thread ∨ ∃ k, slot'.thread = some k ∧ m.nextThreadId ≤ k)

/-- Every thread that was there is as it was, but for its state. -/
abbrev MapScope.Grows (m m' : MapScope) : Prop := MapScope.Extends (fun _ _ => Thread.Restates) m m'

theorem Thread.Restates.refl (t : Thread) : t.Restates t := .inl rfl

theorem Thread.Restates.trans {t t' t'' : Thread} (h : t.Restates t') (h' : t'.Restates t'') :
    t.Restates t'' := by
  rcases h' with rfl | ⟨state, hstate, rfl⟩
  · exact h
  · rcases h with rfl | ⟨_, -, rfl⟩
    · exact .inr ⟨state, hstate, rfl⟩
    · exact .inr ⟨state, hstate, rfl⟩

/-- The tick that is noted does not change with the state. -/
theorem Thread.Restates.lastTick_eq {t t' : Thread} (h : t.Restates t') : t'.lastTick = t.lastTick := by
  rcases h with rfl | ⟨_, -, rfl⟩ <;> rfl

/-- The delay does not change with the state. -/
theorem Thread.Restates.delay_eq {t t' : Thread} (h : t.Restates t') : t'.delay = t.delay := by
  rcases h with rfl | ⟨_, -, rfl⟩ <;> rfl

/-- Restating leaves a thread the same but for its state. -/
theorem Thread.Restates.same {t t' : Thread} (h : t.Restates t') : t.Same t' :=
  (h.restated 0).same

namespace MapScope

variable {R R' : Nat → Nat → Thread → Thread → Prop} {m m' m'' : MapScope}

/-- The module scopes stay in their places, and so do all threads. -/
theorem Extends.of_threads (hactive : m'.active = m.active) (hnext : m'.nextThreadId = m.nextThreadId)
    (hlength : m'.modules.length = m.modules.length) (hslots : m'.slots = m.slots)
    (hmodule : ∀ (i : Nat) (s : ModuleScope), m.modules[i]? = some s → ∃ s', m'.modules[i]? = some s' ∧
      s'.module = s.module ∧ s'.threads.length = s.threads.length ∧
      ∀ k t, s.threads[k]? = some t → ∃ t', s'.threads[k]? = some t' ∧ R i k t t') :
    m.Extends R m' := by
  refine ⟨hactive, by rw [hnext]; exact UInt32.le_refl _, hlength, fun i s hs => ?_,
    fun name slot hslot => ⟨slot, hslots ▸ hslot, rfl, rfl, .inl rfl⟩⟩
  obtain ⟨s', hs', hx, hlen, hold⟩ := hmodule i s hs
  refine ⟨s', hs', hx, hold, fun k t' hk ht' => ?_⟩
  have hlt := (List.getElem?_eq_some_iff.1 ht').1
  omega

theorem Extends.refl (hR : ∀ i k t, R i k t t) (m : MapScope) : m.Extends R m :=
  .of_threads rfl rfl rfl rfl fun i s hs =>
    ⟨s, hs, rfl, rfl, fun k t ht => ⟨t, ht, hR i k t⟩⟩

/-- What is left after two steps.  Threads that came with the first step have to stay what they are. -/
theorem Extends.trans {R'' : Nat → Nat → Thread → Thread → Prop} (h : m.Extends R m')
    (h' : m'.Extends R' m'')
    (hR : ∀ (i k : Nat) (s : ModuleScope) t t' t'', m.modules[i]? = some s → s.threads[k]? = some t →
      R i k t t' → R' i k t' t'' → R'' i k t t'')
    (hreal : ∀ (i k : Nat) (s' : ModuleScope) t' t'', m'.modules[i]? = some s' →
      s'.threads[k]? = some t' → R' i k t' t'' →
      t''.id = t'.id ∧ t''.isPlaceholder = t'.isPlaceholder) : m.Extends R'' m'' := by
  refine ⟨h'.active.trans h.active, UInt32.le_trans h.next h'.next, h'.length.trans h.length,
    fun i s hs => ?_, fun name slot'' hslot'' => ?_⟩
  · obtain ⟨s', hs', hext⟩ := h.module i s hs
    obtain ⟨s'', hs'', hext'⟩ := h'.module i s' hs'
    refine ⟨s'', hs'', hext'.module.trans hext.module, fun k t ht => ?_, fun k t'' hk ht'' => ?_⟩
    · obtain ⟨t', ht', hr⟩ := hext.old k t ht
      obtain ⟨t'', ht'', hr'⟩ := hext'.old k t' ht'
      exact ⟨t'', ht'', hR i k s t t' t'' hs ht hr hr'⟩
    · by_cases hlen : s'.threads.length ≤ k
      · obtain ⟨hid, hnot⟩ := hext'.new k t'' hlen ht''
        exact ⟨UInt32.le_trans h.next hid, hnot⟩
      · -- the thread came with the first step, and stayed
        have ht' := List.getElem?_eq_getElem (Nat.lt_of_not_le hlen)
        obtain ⟨u, hu, hr⟩ := hext'.old k _ ht'
        cases hu.symm.trans ht''
        obtain ⟨hid, hnot⟩ := hext.new k _ hk ht'
        obtain ⟨hid', hnot'⟩ := hreal i k s' _ _ hs' ht' hr
        exact ⟨hid' ▸ hid, hnot'.trans hnot⟩
  · obtain ⟨slot', hslot', hi', hj', hthread'⟩ := h'.slot name slot'' hslot''
    obtain ⟨slot, hslot, hi, hj, hthread⟩ := h.slot name slot' hslot'
    refine ⟨slot, hslot, hi'.trans hi, hj'.trans hj, ?_⟩
    rcases hthread' with heq | ⟨k, hk, hle⟩
    · rw [heq]
      exact hthread
    · exact .inr ⟨k, hk, UInt32.le_trans h.next hle⟩

theorem Grows.refl (m : MapScope) : m.Grows m := Extends.refl (fun _ _ t => Thread.Restates.refl t) m

theorem Grows.trans (h : m.Grows m') (h' : m'.Grows m'') : m.Grows m'' :=
  Extends.trans h h' (fun _ _ _ _ _ _ _ _ hr hr' => Thread.Restates.trans hr hr')
    fun _ _ _ _ _ _ _ hr => ⟨hr.same.id, hr.same.isPlaceholder_eq⟩

/-- The threads of one module scope change in place. -/
theorem Extends.modifyThreads {i : Nat} {f : ModuleScope → ModuleScope}
    (hmodule : ∀ s, (f s).module = s.module) (hR : ∀ i k t, R i k t t)
    (hf : ∀ s : ModuleScope, m.modules[i]? = some s → (f s).threads.length = s.threads.length ∧
      ∀ k t, s.threads[k]? = some t → ∃ t', (f s).threads[k]? = some t' ∧ R i k t t') :
    m.Extends R (m.modifyModule i f) := by
  refine .of_threads rfl rfl (List.length_modify ..) rfl fun n s hs => ?_
  by_cases hn : i = n
  · subst hn
    refine ⟨f s, ?_, hmodule s, hf s hs⟩
    simp [modifyModule, hs]
  · refine ⟨s, ?_, rfl, rfl, fun k t ht => ⟨t, ht, hR n k t⟩⟩
    simp [modifyModule, hs, hn]

/-- Unless it is the last one, an id is below the next. -/
theorem lt_next_of_ne {w : Word} (h : w ≠ 0xFFFFFFFF) : w < (if w + 1 = 0 then 1 else w + 1) := by
  have hlt := UInt32.toNat_lt w
  have hne : w.toNat ≠ 0xFFFFFFFF := fun h' => h (UInt32.toNat_inj.1 h')
  have hzero : w + 1 ≠ 0 := by
    intro h'
    have := congrArg UInt32.toNat h'
    simp only [UInt32.toNat_add] at this
    simp at this
    omega
  rw [if_neg hzero, UInt32.lt_iff_toNat_lt, UInt32.toNat_add]
  simp only [UInt32.reduceToNat]
  omega

/-- The next id is larger, unless it was the last one. -/
theorem lt_takeThreadId (hlast : m.nextThreadId ≠ 0xFFFFFFFF) :
    m.nextThreadId < m.takeThreadId.2.nextThreadId := lt_next_of_ne hlast

/-- A thread is added. -/
theorem grows_withThread {i : Nat} {t : Thread} (hid : t.id = m.nextThreadId)
    (hreal : t.isPlaceholder = false) (hlast : m.nextThreadId ≠ 0xFFFFFFFF) (takesName : Bool) :
    m.Grows (Machine.withThread m i t takesName) := by
  refine ⟨?_, ?_, ?_, fun n s hs => ?_, fun name slot' hslot' => ?_⟩
  · unfold Machine.withThread
    split <;> rfl
  · rw [Machine.withThread_nextThreadId]
    exact UInt32.le_of_lt (lt_takeThreadId hlast)
  · rw [Machine.withThread_modules, List.length_modify]
  · rw [Machine.withThread_modules, List.getElem?_modify, hs]
    refine ⟨_, rfl, ?_, fun k u hu => ?_, fun k u hk hu => ?_⟩
    · dsimp only
      split <;> rfl
    · refine ⟨u, ?_, .refl u⟩
      dsimp only
      split
      · exact (List.getElem?_append_left (List.getElem?_eq_some_iff.1 hu).1).trans hu
      · exact hu
    · dsimp only at hu
      split at hu
      · simp only [List.getElem?_append_right hk] at hu
        rw [List.mem_singleton.1 (List.mem_of_getElem? hu), hid]
        exact ⟨UInt32.le_refl _, hreal⟩
      · have := (List.getElem?_eq_some_iff.1 hu).1
        omega
  · unfold Machine.withThread at hslot'
    split at hslot'
    · simp only [OrdMap.find?_modify] at hslot'
      split at hslot'
      · obtain ⟨slot, hslot, rfl⟩ := Option.map_eq_some_iff.1 hslot'
        exact ⟨slot, hslot, rfl, rfl, .inr ⟨t.id, rfl, hid ▸ UInt32.le_refl _⟩⟩
      · exact ⟨slot', hslot', rfl, rfl, .inl rfl⟩
    · exact ⟨slot', hslot', rfl, rfl, .inl rfl⟩

end MapScope

end ScriptMachine
