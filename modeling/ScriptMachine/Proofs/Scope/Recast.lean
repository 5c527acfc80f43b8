import ScriptMachine.Proofs.Scope.Lookup

/-!
# What a tree is apart from serial numbers and ticks

Two machines that do the same need not have the same serial numbers for their modules, nor the same
ticks noted with their threads.  `recast σ g` gives every module of a tree the serial number that `σ`
has for its name, and puts every noted tick through `g`; all else stays.  A recast tree leads where
the tree leads, recast.
-/

namespace ScriptMachine

/-- The module with another serial number. -/
def LoadedModule.recast (σ : ModuleName → Nat) (x : LoadedModule) : LoadedModule :=
  { x with serial := σ x.name }

namespace Thread

/-- The thread with another serial number for its module and another noted tick. -/
def recast (σ : ModuleName → Nat) (g : Nat → Nat) (t : Thread) : Thread :=
  { t with module := t.module.map (LoadedModule.recast σ), lastTick := g t.lastTick }

end Thread

/-- The module scope with other serial numbers and noted ticks. -/
def ModuleScope.recast (σ : ModuleName → Nat) (g : Nat → Nat) (s : ModuleScope) : ModuleScope :=
  { s with module := s.module.recast σ, threads := s.threads.map (Thread.recast σ g) }

/-- The map with other serial numbers and noted ticks. -/
def MapScope.recast (σ : ModuleName → Nat) (g : Nat → Nat) (m : MapScope) : MapScope :=
  { m with modules := m.modules.map (ModuleScope.recast σ g) }

/-- The hub with other serial numbers and noted ticks. -/
def HubScope.recast (σ : ModuleName → Nat) (g : Nat → Nat) (h : HubScope) : HubScope :=
  { h with maps := h.maps.mapValues (MapScope.recast σ g) }

/-- The global scope with other serial numbers and noted ticks. -/
def GlobalScope.recast (σ : ModuleName → Nat) (g : Nat → Nat) (x : GlobalScope) : GlobalScope :=
  { x with hubs := x.hubs.mapValues (HubScope.recast σ g) }

/-- The tree with other serial numbers and noted ticks. -/
def ScopeTree.recast (σ : ModuleName → Nat) (g : Nat → Nat) (s : ScopeTree) : ScopeTree :=
  ⟨s.globals.mapValues (GlobalScope.recast σ g)⟩

variable (σ σ' : ModuleName → Nat) (g g' : Nat → Nat)

/-! ## Recasting twice -/

theorem LoadedModule.recast_recast (x : LoadedModule) : (x.recast σ').recast σ = x.recast σ := rfl

theorem Thread.recast_recast (t : Thread) :
    (t.recast σ' g').recast σ g = t.recast σ fun n => g (g' n) := by
  simp [Thread.recast, Function.comp_def, LoadedModule.recast_recast]

theorem ModuleScope.recast_recast (s : ModuleScope) :
    (s.recast σ' g').recast σ g = s.recast σ fun n => g (g' n) := by
  simp [ModuleScope.recast, Function.comp_def, LoadedModule.recast_recast, Thread.recast_recast]

theorem MapScope.recast_recast (m : MapScope) :
    (m.recast σ' g').recast σ g = m.recast σ fun n => g (g' n) := by
  simp [MapScope.recast, Function.comp_def, ModuleScope.recast_recast]

/-- Changing every value twice. -/
theorem OrdMap.mapValues_mapValues {κ α β γ : Type} [Ord κ] (f : α → β) (h : β → γ)
    (m : OrdMap κ α) : (m.mapValues f).mapValues h = m.mapValues fun a => h (f a) := by
  apply OrdMap.ext
  simp [Function.comp_def]

theorem HubScope.recast_recast (h : HubScope) :
    (h.recast σ' g').recast σ g = h.recast σ fun n => g (g' n) := by
  simp [HubScope.recast, OrdMap.mapValues_mapValues, MapScope.recast_recast]

theorem GlobalScope.recast_recast (x : GlobalScope) :
    (x.recast σ' g').recast σ g = x.recast σ fun n => g (g' n) := by
  simp [GlobalScope.recast, OrdMap.mapValues_mapValues, HubScope.recast_recast]

theorem ScopeTree.recast_recast (s : ScopeTree) :
    (s.recast σ' g').recast σ g = s.recast σ fun n => g (g' n) := by
  simp [ScopeTree.recast, OrdMap.mapValues_mapValues, GlobalScope.recast_recast]

/-! ## Looking into a recast tree -/

namespace ScopeTree

variable (s : ScopeTree)

theorem global?_recast (k : Word) :
    (s.recast σ g).global? k = (s.global? k).map (GlobalScope.recast σ g) :=
  OrdMap.find?_mapValues ..

theorem hub?_recast (k h : Word) :
    (s.recast σ g).hub? k h = (s.hub? k h).map (HubScope.recast σ g) := by
  simp only [hub?, global?_recast]
  cases s.global? k with
  | none => rfl
  | some x => exact OrdMap.find?_mapValues ..

theorem map?_recast (id : ScopeId) :
    (s.recast σ g).map? id = (s.map? id).map (MapScope.recast σ g) := by
  simp only [map?, hub?_recast]
  cases s.hub? id.global id.hub with
  | none => rfl
  | some x => exact OrdMap.find?_mapValues ..

end ScopeTree

end ScriptMachine
