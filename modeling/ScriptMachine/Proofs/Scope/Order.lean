import Mathlib.Data.List.InsertIdx
import Mathlib.Data.List.Nodup
import ScriptMachine.Proofs.Scope.Growth
import ScriptMachine.Proofs.Scope.Recast

/-!
# Script names and threads in order

A map is in order when two things hold.  Every script name leads to the first script of that name, in
the order in which the modules were registered (`MapScope.Declared`).  And the threads are staffed:
their ids grow along each module scope, no two threads of the map share one, all ids have been given
out, every thread stands in the module scope it belongs to, and a name is held by a thread that is
there and runs the script of that name (`MapScope.Staffed`).

Both look at the map's plan only: which modules it has, and for every thread the id and the post.  A
placeholder has no post, so a thread can be taken out for its turn and put back without the order
getting lost.
-/

namespace ScriptMachine

/-- What a thread was made for: the script and the place it belongs to. -/
structure Post where
  module : Module
  scope : ScopeId
  moduleIndex : Nat
  scriptIndex : Nat

/-- The post is one of the module `x` with number `i` in the map `id`. -/
structure Post.At (p : Post) (id : ScopeId) (i : Nat) (x : Module) : Prop where
  module : p.module = x
  scope : p.scope = id
  index : p.moduleIndex = i
  script : p.scriptIndex < x.scripts.size

/-- The post of a thread; a placeholder has none. -/
def Thread.post? (t : Thread) : Option Post :=
  t.module.map fun x => ⟨x.toModule, t.scope, t.moduleIndex, t.scriptIndex⟩

/-- The id and the post of a thread. -/
def Thread.role (t : Thread) : Word × Option Post := (t.id, t.post?)

/-- The role of a thread is what it runs and where. -/
theorem Thread.Same.role_eq {t t' : Thread} (h : t.Same t') : t'.role = t.role := by
  rw [Thread.role, Thread.role, Thread.post?, Thread.post?, h.id, h.module, h.scope, h.moduleIndex,
    h.scriptIndex]

/-- The role is seen without serial numbers and ticks. -/
theorem Thread.role_recast (t : Thread) (σ : ModuleName → Nat) (g : Nat → Nat) :
    (t.recast σ g).role = t.role := by
  rw [Thread.role, Thread.role, Thread.post?, Thread.post?, Thread.recast, Option.map_map]
  rfl

/-- The module of a scope, and the ids and posts of its threads. -/
def ModuleScope.plan (s : ModuleScope) : Module × List (Word × Option Post) :=
  (s.module.toModule, s.threads.map Thread.role)

namespace MapScope

/-- The modules of a map, with the ids and posts of their threads. -/
def plan (m : MapScope) : List (Module × List (Word × Option Post)) := m.modules.map ModuleScope.plan

/-- The plan is seen without serial numbers and ticks. -/
theorem plan_recast (m : MapScope) (σ : ModuleName → Nat) (g : Nat → Nat) :
    (m.recast σ g).plan = m.plan := by
  have hrole : Thread.role ∘ Thread.recast σ g = Thread.role := by
    funext t
    exact t.role_recast σ g
  simp only [plan, recast, List.map_map]
  refine List.map_congr_left fun s _ => ?_
  simp only [Function.comp_apply, ModuleScope.plan, ModuleScope.recast, List.map_map, hrole]
  rfl

/-- The name of every script leads to the first script of that name, and no other name leads
anywhere. -/
structure Declared (m : MapScope) : Prop where
  leads : ∀ name slot, m.slots.find? name = some slot → ∃ q x, m.plan[slot.moduleIndex]? = some q ∧
    q.1.scripts[slot.scriptIndex]? = some x ∧ x.name = name
  first : ∀ (i : Nat) q (j : Nat) x, m.plan[i]? = some q → q.1.scripts[j]? = some x →
    ∃ slot, m.slots.find? x.name = some slot ∧
      (slot.moduleIndex < i ∨ slot.moduleIndex = i ∧ slot.scriptIndex ≤ j)

/-- A thread with id `k` is where the slot leads.  If it is not out of the tree it runs the script of
the slot, and that script is not one to run several times at once. -/
def HeldBy (m : MapScope) (slot : ScriptSlot) (k : Word) : Prop :=
  ∃ q p x, m.plan[slot.moduleIndex]? = some q ∧ (k, p) ∈ q.2 ∧
    (∀ post, p = some post → post.scriptIndex = slot.scriptIndex) ∧
    q.1.scripts[slot.scriptIndex]? = some x ∧ x.multi = false

/-- Threads have ids of their own and stand where they belong, and names are held by threads that are
there. -/
structure Staffed (id : ScopeId) (m : MapScope) : Prop where
  increasing : ∀ q ∈ m.plan, (q.2.map Prod.fst).Pairwise (· < ·)
  apart : ∀ (i k : Nat) q q', m.plan[i]? = some q → m.plan[k]? = some q' →
    ∀ r ∈ q.2, ∀ r' ∈ q'.2, r.1 = r'.1 → i = k
  below : ∀ q ∈ m.plan, ∀ r ∈ q.2, r.1 < m.nextThreadId
  own : ∀ (i : Nat) q, m.plan[i]? = some q → ∀ r ∈ q.2, ∀ p, r.2 = some p → p.At id i q.1
  holder : ∀ name slot k, m.slots.find? name = some slot → slot.thread = some k → m.HeldBy slot k

/-- Names and threads are in order. -/
structure Ordered (id : ScopeId) (m : MapScope) : Prop where
  declared : m.Declared
  staffed : m.Staffed id

/-- A map without modules is in order. -/
theorem ordered_empty (id : ScopeId) : Ordered id {} :=
  ⟨⟨nofun, nofun⟩, ⟨nofun, nofun, nofun, nofun, nofun⟩⟩

variable {id : ScopeId} {m m' : MapScope} {i : Nat} {s : ModuleScope} {t u : Thread}

/-- The order is a matter of the plan, the slots and the next id. -/
theorem Ordered.of_plan (h : m.Ordered id) (hplan : m'.plan = m.plan) (hslots : m'.slots = m.slots)
    (hnext : m'.nextThreadId = m.nextThreadId) : m'.Ordered id := by
  obtain ⟨⟨hleads, hfirst⟩, ⟨hincreasing, hapart, hbelow, hown, hholder⟩⟩ := h
  refine ⟨⟨?_, ?_⟩, ⟨?_, ?_, ?_, ?_, ?_⟩⟩
  all_goals simp only [HeldBy, hplan, hslots, hnext] at *
  all_goals assumption

/-- The plan has a module at each place. -/
theorem getElem?_plan (hs : m.modules[i]? = some s) : m.plan[i]? = some s.plan := by
  rw [plan, List.getElem?_map, hs]
  rfl

/-- The plan has a role for each thread. -/
theorem getElem?_roles {k : Nat} (hu : s.threads[k]? = some u) : s.plan.2[k]? = some u.role := by
  rw [ModuleScope.plan, List.getElem?_map, hu]
  rfl

/-- A name leads to no script but one of that name. -/
theorem Declared.name_eq (h : m.Declared) (hs : m.modules[i]? = some s) {j : Nat} {x : Script}
    (hx : s.module.scripts[j]? = some x) {name : ScriptName} {slot : ScriptSlot}
    (hslot : m.slots.find? name = some slot) (hi : slot.moduleIndex = i) (hj : slot.scriptIndex = j) :
    name = x.name := by
  obtain ⟨q, y, hq, hy, hname⟩ := h.leads name slot hslot
  rw [hi, getElem?_plan hs] at hq
  cases hq
  rw [hj] at hy
  cases hy.symm.trans hx
  exact hname.symm

/-- A change of a module scope is what it does to the scope that is there. -/
theorem modifyModule_congr {f g : ModuleScope → ModuleScope} (hs : m.modules[i]? = some s)
    (h : f s = g s) : m.modifyModule i f = m.modifyModule i g := by
  have hmodules : m.modules.modify i f = m.modules.modify i g := by
    apply List.ext_getElem?
    intro n
    simp only [List.getElem?_modify]
    by_cases hn : i = n
    · subst hn
      simp [hs, h]
    · simp [hn]
  rw [modifyModule, modifyModule, hmodules]

/-- The plan of a map in which one module scope got other threads. -/
theorem plan_modifyModule {f : ModuleScope → ModuleScope}
    {g : List (Word × Option Post) → List (Word × Option Post)}
    (hmodule : ∀ s, (f s).module = s.module)
    (hroles : ∀ s : ModuleScope, m.modules[i]? = some s →
      (f s).threads.map Thread.role = g (s.threads.map Thread.role)) :
    (m.modifyModule i f).plan = m.plan.modify i fun q => (q.1, g q.2) := by
  apply List.ext_getElem?
  intro n
  simp only [plan, modifyModule, List.getElem?_map, List.getElem?_modify]
  cases hn : m.modules[n]? with
  | none => rfl
  | some s =>
    by_cases hi : i = n
    · subst hi
      simp [ModuleScope.plan, hmodule, hroles s hn]
    · simp [hi]

/-- The plan of a map whose threads keep their ids and posts. -/
theorem plan_modifyModule_of_eq {f : ModuleScope → ModuleScope}
    (hmodule : ∀ s, (f s).module = s.module)
    (hroles : ∀ s : ModuleScope, m.modules[i]? = some s →
      (f s).threads.map Thread.role = s.threads.map Thread.role) :
    (m.modifyModule i f).plan = m.plan := by
  rw [plan_modifyModule (g := id) hmodule hroles]
  exact List.modify_id ..

/-- Names lead where they led, whatever the threads are. -/
theorem Declared.of_slots (h : m.Declared) (hmodules : m'.plan.map Prod.fst = m.plan.map Prod.fst)
    (hslots : ∀ name, (m'.slots.find? name).map (fun s => (s.moduleIndex, s.scriptIndex)) =
      (m.slots.find? name).map fun s => (s.moduleIndex, s.scriptIndex)) : m'.Declared := by
  have hget : ∀ {a b : MapScope}, a.plan.map Prod.fst = b.plan.map Prod.fst →
      ∀ {n : Nat} {q}, a.plan[n]? = some q → ∃ q', b.plan[n]? = some q' ∧ q'.1 = q.1 := by
    intro a b hab n q hq
    have hn : (b.plan.map Prod.fst)[n]? = some q.1 := by
      rw [← hab, List.getElem?_map, hq]
      rfl
    rw [List.getElem?_map] at hn
    exact Option.map_eq_some_iff.1 hn
  have hfind : ∀ {a b : MapScope}, (∀ name, (a.slots.find? name).map
        (fun s => (s.moduleIndex, s.scriptIndex)) =
        (b.slots.find? name).map fun s => (s.moduleIndex, s.scriptIndex)) →
      ∀ {name slot}, a.slots.find? name = some slot → ∃ slot', b.slots.find? name = some slot' ∧
        slot'.moduleIndex = slot.moduleIndex ∧ slot'.scriptIndex = slot.scriptIndex := by
    intro a b hab name slot hslot
    have hname := hab name
    rw [hslot, Option.map_some] at hname
    obtain ⟨slot', hslot', heq⟩ := Option.map_eq_some_iff.1 hname.symm
    exact ⟨slot', hslot', congrArg Prod.fst heq, congrArg Prod.snd heq⟩
  refine ⟨fun name slot' hslot' => ?_, fun n q' j x hq' hx => ?_⟩
  · obtain ⟨slot, hslot, hi, hj⟩ := hfind hslots hslot'
    obtain ⟨q, x, hq, hx, hname⟩ := h.leads name slot hslot
    obtain ⟨q', hq', heq⟩ := hget hmodules.symm hq
    exact ⟨q', x, hi ▸ hq', by rw [heq, ← hj]; exact hx, hname⟩
  · obtain ⟨q, hq, heq⟩ := hget hmodules hq'
    obtain ⟨slot, hslot, hle⟩ := h.first n q j x hq (heq ▸ hx)
    obtain ⟨slot', hslot', hi, hj⟩ := hfind (fun name => (hslots name).symm) hslot
    exact ⟨slot', hslot', by rw [hi, hj]; exact hle⟩

/-- The modules of a plan in which one scope got other threads. -/
theorem map_fst_modify (l : List (Module × List (Word × Option Post))) (i : Nat)
    (g : List (Word × Option Post) → List (Word × Option Post)) :
    (l.modify i fun q => (q.1, g q.2)).map Prod.fst = l.map Prod.fst := by
  apply List.ext_getElem?
  intro n
  simp only [List.getElem?_map, List.getElem?_modify]
  cases l[n]? with
  | none => rfl
  | some q => by_cases hn : i = n <;> simp [hn]

/-- Another thread takes a name, or the thread that holds it gives it up. -/
theorem slotPlaces_modify (slots : OrdMap ScriptName ScriptSlot) (n : ScriptName)
    {f : ScriptSlot → ScriptSlot}
    (hf : ∀ s, (f s).moduleIndex = s.moduleIndex ∧ (f s).scriptIndex = s.scriptIndex)
    (name : ScriptName) :
    ((slots.modify n f).find? name).map (fun s => (s.moduleIndex, s.scriptIndex)) =
      (slots.find? name).map fun s => (s.moduleIndex, s.scriptIndex) := by
  rw [OrdMap.find?_modify]
  split
  · cases slots.find? name with
    | none => rfl
    | some s => simp [hf s]
  · rfl

/-- A scope of a plan in which one scope got other threads. -/
theorem exists_of_plan_modify {g : List (Word × Option Post) → List (Word × Option Post)}
    (hplan : m'.plan = m.plan.modify i fun q => (q.1, g q.2)) {n : Nat}
    {q' : Module × List (Word × Option Post)} (hq' : m'.plan[n]? = some q') :
    ∃ q, m.plan[n]? = some q ∧ q'.1 = q.1 ∧ ((i = n ∧ q'.2 = g q.2) ∨ (i ≠ n ∧ q'.2 = q.2)) := by
  rw [hplan, List.getElem?_modify] at hq'
  obtain ⟨q, hq, rfl⟩ := Option.map_eq_some_iff.1 hq'
  refine ⟨q, hq, ?_⟩
  by_cases hn : i = n <;> simp [hn]

/-- One scope gets other threads: each has an id that was there already or is new, and belongs
there. -/
theorem Staffed.modify (h : m.Staffed id)
    {g : List (Word × Option Post) → List (Word × Option Post)}
    (hplan : m'.plan = m.plan.modify i fun q => (q.1, g q.2))
    (hnext : m.nextThreadId ≤ m'.nextThreadId)
    (hincreasing : ∀ q, m.plan[i]? = some q → ((g q.2).map Prod.fst).Pairwise (· < ·))
    (hids : ∀ q, m.plan[i]? = some q → ∀ r ∈ g q.2,
      (∃ r₀ ∈ q.2, r₀.1 = r.1) ∨ (m.nextThreadId ≤ r.1 ∧ r.1 < m'.nextThreadId))
    (hown : ∀ q, m.plan[i]? = some q → ∀ r ∈ g q.2, ∀ p, r.2 = some p → p.At id i q.1)
    (hholder : ∀ name slot k, m'.slots.find? name = some slot → slot.thread = some k →
      m'.HeldBy slot k) : m'.Staffed id := by
  have hold : ∀ {n : Nat} {q'}, m'.plan[n]? = some q' → ∀ r ∈ q'.2, ∃ q, m.plan[n]? = some q ∧
      ((∃ r₀ ∈ q.2, r₀.1 = r.1) ∨ (m.nextThreadId ≤ r.1 ∧ r.1 < m'.nextThreadId ∧ i = n)) := by
    intro n q' hq' r hr
    obtain ⟨q, hq, -, ⟨rfl, heq⟩ | ⟨-, heq⟩⟩ := exists_of_plan_modify hplan hq'
    · refine ⟨q, hq, ?_⟩
      rcases hids q hq r (heq ▸ hr) with hr₀ | ⟨hle, hlt⟩
      · exact .inl hr₀
      · exact .inr ⟨hle, hlt, rfl⟩
    · exact ⟨q, hq, .inl ⟨r, heq ▸ hr, rfl⟩⟩
  -- an id that was there is not one of the new ones
  have hbelow : ∀ {n : Nat} {q}, m.plan[n]? = some q → ∀ r ∈ q.2, ¬ m.nextThreadId ≤ r.1 :=
    fun hq r hr => UInt32.not_le.2 (h.below _ (List.mem_of_getElem? hq) r hr)
  refine ⟨fun q' hq' => ?_, fun n k q' q'' hn hk r hr r' hr' heq => ?_, fun q' hq' r hr => ?_,
    fun n q' hn r hr p hp => ?_, hholder⟩
  · obtain ⟨n, hn⟩ := List.getElem?_of_mem hq'
    obtain ⟨q, hq, -, ⟨rfl, heq⟩ | ⟨-, heq⟩⟩ := exists_of_plan_modify hplan hn
    · rw [heq]
      exact hincreasing q hq
    · rw [heq]
      exact h.increasing q (List.mem_of_getElem? hq)
  · obtain ⟨q, hq, ⟨r₀, hr₀, hid₀⟩ | ⟨hle, -, rfl⟩⟩ := hold hn r hr <;>
      obtain ⟨q₁, hq₁, ⟨r₁, hr₁, hid₁⟩ | ⟨hle', -, hik⟩⟩ := hold hk r' hr'
    · exact h.apart n k q q₁ hq hq₁ r₀ hr₀ r₁ hr₁ (by rw [hid₀, hid₁, heq])
    · rw [← heq, ← hid₀] at hle'
      exact absurd hle' (hbelow hq r₀ hr₀)
    · rw [heq, ← hid₁] at hle
      exact absurd hle (hbelow hq₁ r₁ hr₁)
    · exact hik
  · obtain ⟨n, hn⟩ := List.getElem?_of_mem hq'
    obtain ⟨q, hq, ⟨r₀, hr₀, hid⟩ | ⟨-, hlt, -⟩⟩ := hold hn r hr
    · rw [← hid]
      exact UInt32.lt_of_lt_of_le (h.below q (List.mem_of_getElem? hq) r₀ hr₀) hnext
    · exact hlt
  · obtain ⟨q, hq, hx, ⟨rfl, heq⟩ | ⟨-, heq⟩⟩ := exists_of_plan_modify hplan hn
    · rw [hx]
      exact hown q hq r (heq ▸ hr) p hp
    · rw [hx]
      exact h.own n q hq r (heq ▸ hr) p hp

/-- Where the plan changes for other threads only, a name goes on to be held. -/
theorem HeldBy.modify {slot slot' : ScriptSlot} {k : Word}
    {g : List (Word × Option Post) → List (Word × Option Post)} (h : m.HeldBy slot k)
    (hplan : m'.plan = m.plan.modify i fun q => (q.1, g q.2))
    (hi : slot'.moduleIndex = slot.moduleIndex) (hj : slot'.scriptIndex = slot.scriptIndex)
    (hg : ∀ q p, slot.moduleIndex = i → m.plan[i]? = some q → (k, p) ∈ q.2 →
      ∃ p', (k, p') ∈ g q.2 ∧ ∀ post, p' = some post → p = some post ∨
        post.scriptIndex = slot.scriptIndex) : m'.HeldBy slot' k := by
  obtain ⟨q, p, x, hq, hmem, hpost, hx, hmulti⟩ := h
  by_cases hn : slot.moduleIndex = i
  · obtain ⟨p', hmem', hpost'⟩ := hg q p hn (hn ▸ hq) hmem
    refine ⟨(q.1, g q.2), p', x, ?_, hmem', fun post hp => ?_, hj ▸ hx, hmulti⟩
    · rw [hplan, hi, List.getElem?_modify, hq]
      simp [hn]
    · rw [hj]
      rcases hpost' post hp with hp | heq
      · exact hpost post hp
      · exact heq
  · refine ⟨q, p, x, ?_, hmem, fun post hp => (hpost post hp).trans hj.symm, hj ▸ hx, hmulti⟩
    rw [hplan, hi, List.getElem?_modify, hq]
    simp [Ne.symm hn]

/-! ## Adding and removing threads -/

/-- The role of a new thread. -/
theorem role_of_make? {k : Word} {x : LoadedModule} {scope : ScopeId} {j : Nat} {args : List Word}
    {info : ThreadInfo} (h : Thread.make? k x scope i j args info = some t) :
    t.role = (k, some ⟨x.toModule, scope, i, j⟩) ∧ ∃ script, x.scripts[j]? = some script ∧
      t.scriptName? = some script.name := by
  obtain ⟨script, hscript, rfl⟩ := Option.map_eq_some_iff.1 h
  refine ⟨rfl, script, hscript, ?_⟩
  have : (x.scripts[j]?).map (·.name) = some script.name := by rw [hscript]; rfl
  exact this

/-- A new thread has its role at the end. -/
theorem plan_withThread (m : MapScope) (i : Nat) (t : Thread) (takesName : Bool) :
    (Machine.withThread m i t takesName).plan = m.plan.modify i fun q => (q.1, q.2 ++ [t.role]) := by
  have hadd := plan_modifyModule (m := m) (i := i)
    (f := fun s => { s with threads := s.threads ++ [t] }) (g := (· ++ [t.role]))
    (fun _ => rfl) fun s _ => by simp
  rw [← hadd, plan, plan, Machine.withThread_modules]
  rfl

/-- The names of a map in which a thread may have taken the name of its script. -/
theorem slots_withThread {name : ScriptName} (hname : t.scriptName? = some name) (m : MapScope) (i : Nat)
    (takesName : Bool) : (Machine.withThread m i t takesName).slots =
      if takesName then m.slots.modify name fun s => { s with thread := some t.id } else m.slots := by
  unfold Machine.withThread
  rw [hname]
  cases takesName <;> rfl

/-- Where a new thread may have taken its name, a name leads where it led, and to a thread that had it or to
the new one. -/
theorem exists_slot_of_withThread {name name' : ScriptName} {slot' : ScriptSlot} {takesName : Bool}
    (hname : t.scriptName? = some name)
    (hslot' : (Machine.withThread m i t takesName).slots.find? name' = some slot') :
    ∃ slot, m.slots.find? name' = some slot ∧ (slot' = slot ∧ (takesName = true → name' ≠ name) ∨
      takesName = true ∧ name' = name ∧ slot' = { slot with thread := some t.id }) := by
  rw [slots_withThread hname] at hslot'
  cases takesName with
  | false => exact ⟨slot', hslot', .inl ⟨rfl, nofun⟩⟩
  | true =>
    rw [if_pos rfl, OrdMap.find?_modify] at hslot'
    split at hslot'
    · rename_i hcompare
      obtain ⟨slot, hslot, rfl⟩ := Option.map_eq_some_iff.1 hslot'
      exact ⟨slot, hslot, .inr ⟨rfl, Std.LawfulEqOrd.compare_eq_iff_eq.1 hcompare, rfl⟩⟩
    · rename_i hcompare
      exact ⟨slot', hslot', .inl ⟨rfl, fun _ heq => hcompare (Std.LawfulEqOrd.compare_eq_iff_eq.2 heq)⟩⟩

/-- The name that a thread of a script may take is the one that leads to the script. -/
theorem Declared.of_single (h : m.Declared) {j : Nat} {script : Script} {slot : ScriptSlot}
    (hsingle : m.Single i j) (hplace : m.modules[i]? = some s)
    (hscript : s.module.scripts[j]? = some script) (hslot : m.slots.find? script.name = some slot) :
    slot.moduleIndex = i ∧ slot.scriptIndex = j ∧ script.multi = false := by
  obtain ⟨name₀, slot₀, hslot₀, hi, hj, hmulti⟩ := hsingle
  cases h.name_eq hplace hscript hslot₀ hi hj
  cases hslot₀.symm.trans hslot
  refine ⟨hi, hj, hmulti script ?_⟩
  rw [script?, hplace]
  exact hscript

/-- With a new thread names are held by threads that are there. -/
theorem Ordered.heldBy_withThread (h : m.Ordered id) {j : Nat} {script : Script} {post : Post}
    (hplace : m.modules[i]? = some s) (hrole : t.role = (t.id, some post)) (hpost : post.scriptIndex = j)
    (hscript : s.module.scripts[j]? = some script) (hscriptName : t.scriptName? = some script.name)
    {takesName : Bool} (hname : takesName = true → m.Single i j) {name : ScriptName} {slot : ScriptSlot}
    {k : Word} (hslot : (Machine.withThread m i t takesName).slots.find? name = some slot)
    (hk : slot.thread = some k) : (Machine.withThread m i t takesName).HeldBy slot k := by
  have hplan := plan_withThread m i t takesName
  obtain ⟨slot₀, hslot₀, ⟨rfl, -⟩ | ⟨htakes, rfl, rfl⟩⟩ := exists_slot_of_withThread hscriptName hslot
  · -- a name that was held is held by the same thread, which is there as before
    exact (h.staffed.holder name slot k hslot₀ hk).modify (g := (· ++ [t.role])) hplan rfl rfl
      fun q p _ _ hmem => ⟨p, List.mem_append_left _ hmem, fun _ hp => .inl hp⟩
  · obtain ⟨hi, hj, hmulti⟩ := h.declared.of_single (hname htakes) hplace hscript hslot₀
    cases hk
    refine ⟨(s.plan.1, s.plan.2 ++ [t.role]), some post, script, ?_, ?_, fun post' hp => ?_, ?_, hmulti⟩
    · rw [hplan, hi, List.getElem?_modify, getElem?_plan hplace]
      simp
    · exact List.mem_append_right _ (List.mem_singleton.2 hrole.symm)
    · cases hp
      exact hpost.trans hj.symm
    · rw [hj]
      exact hscript

/-- **A new thread** stands behind the others, and may take the name of its script. -/
theorem Ordered.withThread (h : m.Ordered id) {j : Nat} {args : List Word} {info : ThreadInfo}
    (hplace : m.modules[i]? = some s)
    (ht : Thread.make? m.nextThreadId s.module id i j args info = some t)
    (hlast : m.nextThreadId ≠ 0xFFFFFFFF) {takesName : Bool}
    (hname : takesName = true → m.Single i j) : (Machine.withThread m i t takesName).Ordered id := by
  obtain ⟨hrole, script, hscript, hscriptName⟩ := role_of_make? ht
  have hid : t.id = m.nextThreadId := congrArg Prod.fst hrole
  have hplan := plan_withThread m i t takesName
  have hlt := lt_takeThreadId hlast
  rw [← Machine.withThread_nextThreadId m i t takesName] at hlt
  refine ⟨h.declared.of_slots (by rw [hplan]; exact map_fst_modify _ _ (· ++ [t.role])) fun name => ?_,
    h.staffed.modify (g := (· ++ [t.role])) hplan (UInt32.le_of_lt hlt) (fun q hq => ?_)
      (fun q hq r hr => ?_) (fun q hq r hr p hp => ?_) fun name slot k hslot hk =>
        h.heldBy_withThread hplace (hrole.trans (by rw [hid])) rfl hscript hscriptName hname hslot hk⟩
  · rw [slots_withThread hscriptName]
    split
    · exact slotPlaces_modify _ _ (f := fun s => { s with thread := some t.id }) (fun _ => ⟨rfl, rfl⟩) name
    · rfl
  · rw [List.map_append, List.pairwise_append]
    refine ⟨h.staffed.increasing q (List.mem_of_getElem? hq), List.pairwise_singleton .., ?_⟩
    intro a ha b hb
    obtain ⟨r, hr, rfl⟩ := List.mem_map.1 ha
    have hb : b = m.nextThreadId := by simpa [hrole] using hb
    rw [hb]
    exact h.staffed.below q (List.mem_of_getElem? hq) r hr
  · rcases List.mem_append.1 hr with hr | hr
    · exact .inl ⟨r, hr, rfl⟩
    · rw [List.mem_singleton.1 hr, hrole]
      exact .inr ⟨UInt32.le_refl _, hlt⟩
  · rcases List.mem_append.1 hr with hr | hr
    · exact h.staffed.own i q hq r hr p hp
    · rw [List.mem_singleton.1 hr, hrole] at hp
      cases hp
      cases hq.symm.trans (getElem?_plan hplace)
      exact ⟨rfl, rfl, rfl, (Array.getElem?_eq_some_iff.1 hscript).1⟩

/-- Within a scope a thread is known by its id. -/
theorem Staffed.eq_of_mem (h : m.Staffed id) {q : Module × List (Word × Option Post)}
    (hq : m.plan[i]? = some q) {r r' : Word × Option Post} (hr : r ∈ q.2) (hr' : r' ∈ q.2)
    (heq : r.1 = r'.1) : r = r' := by
  have hnodup : (q.2.map Prod.fst).Nodup :=
    (h.increasing q (List.mem_of_getElem? hq)).imp fun hlt => UInt32.ne_of_lt hlt
  exact List.inj_on_of_nodup_map hnodup hr hr' heq

theorem modify_const {α : Type} (l : List α) (k : Nat) (a : α) : (l.modify k fun _ => a) = l.set k a :=
  have : Inhabited α := ⟨a⟩
  List.modify_eq_set ..

/-- A thread that is replaced has another role in the plan. -/
theorem plan_replace (m : MapScope) (i k : Nat) (v : Thread) :
    (m.modifyModule i fun s => { s with threads := s.threads.modify k fun _ => v }).plan =
      m.plan.modify i fun q => (q.1, q.2.set k v.role) :=
  plan_modifyModule (g := fun l => l.set k v.role) (fun _ => rfl) fun _ _ => by
    rw [modify_const, List.map_set]

/-- **A thread is replaced** by one with its id that belongs there. -/
theorem Ordered.replace (h : m.Ordered id) {k : Nat} {v : Thread} (hs : m.modules[i]? = some s)
    (hu : s.threads[k]? = some u) (hid : v.id = u.id)
    (hpost : ∀ p, v.post? = some p → p.At id i s.module.toModule)
    (hheld : ∀ name slot, m.slots.find? name = some slot → slot.moduleIndex = i →
      slot.thread = some u.id → ∀ p, v.post? = some p → p.scriptIndex = slot.scriptIndex) :
    (m.modifyModule i fun s => { s with threads := s.threads.modify k fun _ => v }).Ordered id := by
  have hplan := plan_replace m i k v
  have hat := getElem?_roles hu
  obtain ⟨hk, hget⟩ := List.getElem?_eq_some_iff.1 hat
  refine ⟨h.declared.of_slots (by rw [hplan]; exact map_fst_modify _ _ fun l => l.set k v.role) fun _ => rfl,
    h.staffed.modify (g := fun l => l.set k v.role) hplan (UInt32.le_refl _) (fun q hq => ?_)
      (fun q hq r hr => ?_) (fun q hq r hr p hp => ?_) fun name slot n hslot hn => ?_⟩
  · cases hq.symm.trans (getElem?_plan hs)
    have hfst : (s.plan.2.set k v.role).map Prod.fst = s.plan.2.map Prod.fst := by
      rw [List.map_set]
      refine List.set_getElem_self (by simpa using hk) ▸ ?_
      simp [hget, Thread.role, hid]
    rw [hfst]
    exact h.staffed.increasing _ (List.mem_of_getElem? hq)
  · cases hq.symm.trans (getElem?_plan hs)
    rcases List.mem_or_eq_of_mem_set hr with hr | rfl
    · exact .inl ⟨r, hr, rfl⟩
    · exact .inl ⟨u.role, List.mem_of_getElem? hat, hid.symm⟩
  · cases hq.symm.trans (getElem?_plan hs)
    rcases List.mem_or_eq_of_mem_set hr with hr | rfl
    · exact h.staffed.own i _ hq r hr p hp
    · exact hpost p hp
  · refine (h.staffed.holder name slot n hslot hn).modify (g := fun l => l.set k v.role) hplan rfl rfl
      fun q p hi hq hr => ?_
    cases hq.symm.trans (getElem?_plan hs)
    by_cases hnu : n = u.id
    · subst hnu
      refine ⟨v.post?, ?_, fun post hp => .inr (hheld name slot hslot hi hn post hp)⟩
      rw [← hid]
      exact List.mem_set hk v.role
    · -- another thread is where it was
      obtain ⟨l, hl⟩ := List.getElem?_of_mem hr
      have hkl : k ≠ l := by
        rintro rfl
        exact hnu (congrArg Prod.fst (Option.some.inj (hl.symm.trans hat)))
      exact ⟨p, List.mem_of_getElem? ((List.getElem?_set_ne hkl).trans hl), fun _ hp => .inl hp⟩

/-- A thread is taken out. -/
theorem Ordered.detach (h : m.Ordered id) {k : Nat} (hs : m.modules[i]? = some s)
    (hu : s.threads[k]? = some u) :
    (m.modifyModule i fun s =>
      { s with threads := s.threads.modify k fun _ => .placeholder u.id }).Ordered id :=
  h.replace hs hu rfl nofun fun _ _ _ _ _ _ => nofun

/-- A thread goes on in its place. -/
theorem Ordered.goOn (h : m.Ordered id) {k : Nat} {v : Thread} (hs : m.modules[i]? = some s)
    (hu : s.threads[k]? = some u) (hsame : u.Same v) :
    (m.modifyModule i fun s => { s with threads := s.threads.modify k fun _ => v }).Ordered id := by
  refine h.of_plan (plan_modifyModule_of_eq (fun _ => rfl) fun s' hs' => ?_) rfl rfl
  cases hs.symm.trans hs'
  apply List.ext_getElem?
  intro n
  simp only [List.getElem?_map, List.getElem?_modify]
  by_cases hn : k = n
  · subst hn
    simp [hu, hsame.role_eq]
  · simp [hn]

/-- The role of a thread that is no placeholder is its id and its post. -/
theorem role_eq_of_not_placeholder (h : t.isPlaceholder = false) :
    ∃ x, t.module = some x ∧ t.role = (t.id, some ⟨x.toModule, t.scope, t.moduleIndex, t.scriptIndex⟩) := by
  cases hx : t.module with
  | none =>
    rw [Thread.isPlaceholder, hx] at h
    cases h
  | some x => exact ⟨x, rfl, by rw [Thread.role, Thread.post?, hx]; rfl⟩

/-- A thread holds no name but that of its script. -/
theorem Ordered.name_eq_of_holder (h : m.Ordered id) {k : Nat} {post : Post} {script : Script}
    (hs : m.modules[i]? = some s) (ht : s.threads[k]? = some t) (hrole : t.role = (t.id, some post))
    (hscript : s.module.scripts[post.scriptIndex]? = some script) {name : ScriptName} {slot : ScriptSlot}
    (hslot : m.slots.find? name = some slot) (hi : slot.moduleIndex = i) (hheld : slot.thread = some t.id) :
    name = script.name := by
  have hplan := getElem?_plan hs
  obtain ⟨q, p, -, hq, hr, hindex, -⟩ := h.staffed.holder name slot t.id hslot hheld
  rw [hi, hplan] at hq
  cases hq
  have heq : (t.id, p) = t.role :=
    h.staffed.eq_of_mem hplan hr (List.mem_of_getElem? (getElem?_roles ht)) rfl
  have hj := hindex post ((congrArg Prod.snd heq).trans (congrArg Prod.snd hrole))
  exact h.declared.name_eq hs hscript hslot hi hj.symm

section

variable {k : Nat} {name : ScriptName} (hname : t.scriptName? = some name)
include hname

/-- The slots after a thread is removed. -/
theorem slots_reap : ((m.modifyModule i fun s =>
    { s with threads := s.threads.eraseIdx k }).releaseSlot t).slots =
    m.slots.modify name fun s => if s.thread = some t.id then { s with thread := none } else s := by
  rw [releaseSlot, hname]
  rfl

/-- The plan after a thread is removed. -/
theorem plan_reap : ((m.modifyModule i fun s =>
    { s with threads := s.threads.eraseIdx k }).releaseSlot t).plan =
    m.plan.modify i fun q => (q.1, q.2.eraseIdx k) := by
  have herase := plan_modifyModule (m := m) (i := i)
    (f := fun s => { s with threads := s.threads.eraseIdx k }) (g := fun l => l.eraseIdx k)
    (fun _ => rfl) fun s _ => (List.eraseIdx_map ..).symm
  rw [← herase, releaseSlot, hname]
  rfl

/-- Removing a thread gives no id back. -/
theorem nextThreadId_reap : ((m.modifyModule i fun s =>
    { s with threads := s.threads.eraseIdx k }).releaseSlot t).nextThreadId = m.nextThreadId := by
  rw [releaseSlot, hname]
  rfl

/-- A name that is held after a thread has gone was held before, and not as the name of the thread. -/
theorem exists_slot_of_reap {n : Word} {slot : ScriptSlot} {name' : ScriptName}
    (hslot : ((m.modifyModule i fun s =>
      { s with threads := s.threads.eraseIdx k }).releaseSlot t).slots.find? name' = some slot)
    (hn : slot.thread = some n) : ∃ slot₀, m.slots.find? name' = some slot₀ ∧
      slot.moduleIndex = slot₀.moduleIndex ∧ slot.scriptIndex = slot₀.scriptIndex ∧
      slot₀.thread = some n ∧ (name' = name → n ≠ t.id) := by
  rw [slots_reap hname, OrdMap.find?_modify] at hslot
  split at hslot
  · obtain ⟨slot₀, hslot₀, rfl⟩ := Option.map_eq_some_iff.1 hslot
    split at hn
    · cases hn
    · rename_i hkeep
      rw [if_neg hkeep]
      exact ⟨slot₀, hslot₀, rfl, rfl, hn, fun _ heq => hkeep (heq ▸ hn)⟩
  · rename_i hother
    refine ⟨slot, hslot, rfl, rfl, hn, fun heq => absurd ?_ hother⟩
    exact Std.LawfulEqOrd.compare_eq_iff_eq.2 heq

end

/-- **A thread is removed** and gives up its name. -/
theorem Ordered.reap (h : m.Ordered id) {k : Nat} (hs : m.modules[i]? = some s)
    (ht : s.threads[k]? = some t) (hreal : t.isPlaceholder = false) :
    ((m.modifyModule i fun s => { s with threads := s.threads.eraseIdx k }).releaseSlot t).Ordered
      id := by
  obtain ⟨x, hx, hrole⟩ := role_eq_of_not_placeholder hreal
  have hat := getElem?_roles ht
  have hpost := h.staffed.own i _ (getElem?_plan hs) _ (List.mem_of_getElem? hat) _
    (congrArg Prod.snd hrole)
  obtain ⟨script, hscript⟩ : ∃ script, s.module.scripts[t.scriptIndex]? = some script :=
    ⟨_, Array.getElem?_eq_getElem hpost.script⟩
  have hname : t.scriptName? = some script.name := by
    have hmodule : x.toModule = s.module.toModule := hpost.module
    rw [Thread.scriptName?, Thread.script?, hx, Option.bind_some, hmodule, hscript]
    rfl
  have hplan := plan_reap (m := m) (i := i) (k := k) hname
  refine ⟨h.declared.of_slots (by rw [hplan]; exact map_fst_modify _ _ fun l => l.eraseIdx k) fun name => ?_,
    h.staffed.modify (g := fun l => l.eraseIdx k) hplan (nextThreadId_reap hname ▸ UInt32.le_refl _)
      (fun q hq => ?_) (fun q hq r hr => ?_) (fun q hq r hr p hp => ?_) fun name slot n hslot hn => ?_⟩
  · rw [slots_reap hname]
    refine slotPlaces_modify _ _ (fun slot => ?_) name
    split <;> exact ⟨rfl, rfl⟩
  · exact (h.staffed.increasing q (List.mem_of_getElem? hq)).sublist
      ((List.eraseIdx_sublist ..).map _)
  · exact .inl ⟨r, List.mem_of_mem_eraseIdx hr, rfl⟩
  · exact h.staffed.own i q hq r (List.mem_of_mem_eraseIdx hr) p hp
  · -- no name is left to the thread that goes
    obtain ⟨slot₀, hslot₀, hi, hj, hthread, hne⟩ := exists_slot_of_reap hname hslot hn
    refine (h.staffed.holder name slot₀ n hslot₀ hthread).modify (g := fun l => l.eraseIdx k) hplan hi hj
      fun q p hmi hq hr => ⟨p, ?_, fun _ hp => .inl hp⟩
    cases hq.symm.trans (getElem?_plan hs)
    obtain ⟨l, hl⟩ := List.getElem?_of_mem hr
    refine List.mem_eraseIdx_iff_getElem?.2 ⟨l, ?_, hl⟩
    rintro rfl
    have hnt : n = t.id := congrArg Prod.fst (Option.some.inj (hl.symm.trans hat))
    exact hne (h.name_eq_of_holder hs ht hrole hscript hslot₀ hmi (hnt ▸ hthread)) hnt

/-! ## Turns -/

/-- Where ids differ, a thread is found by its id. -/
theorem findIdx_id_eq {ts : List Thread} {k : Nat} (hids : (ts.map (·.id)).Nodup)
    (ht : ts[k]? = some t) : ts.findIdx (·.id == t.id) = k := by
  obtain ⟨hk, heq⟩ := List.getElem?_eq_some_iff.1 ht
  rw [List.findIdx_eq hk]
  refine ⟨by simp [heq], fun n hn => ?_⟩
  have hlt : n < ts.length := Nat.lt_trans hn hk
  have hne : ts[n].id ≠ t.id := by
    intro hid
    have hsame : (ts.map (·.id))[n]? = (ts.map (·.id))[k]? := by
      rw [List.getElem?_map, List.getElem?_map, ht, List.getElem?_eq_getElem hlt]
      simp [hid]
    have := (List.getElem?_inj (by simpa using hlt) hids).1 hsame
    omega
  simpa using hne

/-- The ids of a module scope differ. -/
theorem Staffed.nodup_ids (h : m.Staffed id) (hs : m.modules[i]? = some s) :
    (s.threads.map (·.id)).Nodup := by
  have hincreasing := h.increasing s.plan (List.mem_of_getElem? (getElem?_plan hs))
  have hids : s.plan.2.map Prod.fst = s.threads.map (·.id) := by
    rw [ModuleScope.plan, List.map_map]
    rfl
  rw [hids] at hincreasing
  exact hincreasing.imp fun hlt => UInt32.ne_of_lt hlt

/-- The thread at this place is now `v`; the others are as they were but for their states. -/
def Resumes (i k : Nat) (v : Thread) : Nat → Nat → Thread → Thread → Prop := fun n l t t' =>
  if n = i ∧ l = k then t' = v else t.Restates t'

section

variable {k : Nat} {v : Thread} (hs : m.modules[i]? = some s) (hu : s.threads[k]? = some u)
  (hgrows : (m.modifyModule i fun s =>
    { s with threads := s.threads.modify k fun _ => .placeholder u.id }).Grows m')
include hs hu hgrows

/-- The placeholder stands where the thread was taken out. -/
theorem Grows.placeholder : ∃ s', m'.modules[i]? = some s' ∧ s'.module = s.module ∧
    ∃ p, s'.threads[k]? = some p ∧ p.id = u.id ∧ p.isPlaceholder = true := by
  have hdetached : (m.modifyModule i fun s =>
      { s with threads := s.threads.modify k fun _ => .placeholder u.id }).modules[i]? =
      some { s with threads := s.threads.modify k fun _ => .placeholder u.id } := by
    simp [modifyModule, hs]
  obtain ⟨s', hs', hext⟩ := hgrows.module i _ hdetached
  have hat : (s.threads.modify k fun _ => Thread.placeholder u.id)[k]? =
      some (Thread.placeholder u.id) := by
    simp [hu]
  obtain ⟨p, hp, hr⟩ := hext.old k _ hat
  exact ⟨s', hs', hext.module, p, hp, hr.same.id, hr.same.isPlaceholder_eq⟩

/-- **A thread comes back** to its place, and all is in order. -/
theorem Ordered.resume (hm : m.Ordered id) (hm' : m'.Ordered id) (hsame : u.Same v) :
    (m'.modifyModule i fun s => { s with threads := s.threads.modify k fun _ => v }).Ordered id := by
  obtain ⟨s', hs', hx, p, hp, hid, -⟩ := hgrows.placeholder hs hu
  have hat : s.plan.2[k]? = some u.role := by
    rw [ModuleScope.plan, List.getElem?_map, hu]
    rfl
  have hpost : v.post? = u.post? := congrArg Prod.snd hsame.role_eq
  refine hm'.replace hs' hp (hsame.id.trans hid.symm) (fun q hq => ?_)
    fun name slot' hslot' hi hthread q hq => ?_
  · rw [hx]
    exact hm.staffed.own i _ (getElem?_plan hs) _ (List.mem_of_getElem? hat) q
      (hpost.symm.trans hq)
  · -- nobody but the thread itself can have its name
    obtain ⟨slot, hslot, hi', hj', hheld⟩ := hgrows.slot name slot' hslot'
    have hbelow : u.id < m.nextThreadId :=
      hm.staffed.below _ (List.mem_of_getElem? (getElem?_plan hs)) _ (List.mem_of_getElem? hat)
    have hsame' : slot.thread = some u.id := by
      rw [hthread, hid] at hheld
      rcases hheld with heq | ⟨n, hn, hle⟩
      · exact heq.symm
      · cases hn
        exact absurd hle (UInt32.not_le.2 hbelow)
    obtain ⟨q₀, r, x, hq₀, hr, hscript, -⟩ := hm.staffed.holder name slot u.id hslot hsame'
    rw [← hi', hi, getElem?_plan hs] at hq₀
    cases hq₀
    have hrole : (u.id, r) = u.role :=
      hm.staffed.eq_of_mem (getElem?_plan hs) hr (List.mem_of_getElem? hat) rfl
    rw [hj']
    exact hscript q ((congrArg Prod.snd hrole).trans (hpost.symm.trans hq))

/-- **What a turn leaves of a map**: the thread is back in its place, and the map has grown. -/
theorem Extends.resume : m.Extends (Resumes i k v)
    (m'.modifyModule i fun s => { s with threads := s.threads.modify k fun _ => v }) := by
  -- what the scope with number `n` was while the thread was out
  have hout : ∀ {n : Nat} {x : ModuleScope}, m.modules[n]? = some x →
      (m.modifyModule i fun s =>
        { s with threads := s.threads.modify k fun _ => .placeholder u.id }).modules[n]? =
      some (if i = n then { x with threads := x.threads.modify k fun _ => .placeholder u.id } else x) := by
    intro n x hx
    simp only [modifyModule, List.getElem?_modify, hx]
    split <;> rfl
  refine ⟨hgrows.active, hgrows.next, ?_, fun n x hx => ?_, hgrows.slot⟩
  · have := hgrows.length
    simpa [modifyModule] using this
  · obtain ⟨x', hx', hext⟩ := hgrows.module n _ (hout hx)
    by_cases hn : i = n
    · subst hn
      cases hs.symm.trans hx
      rw [if_pos rfl] at hext
      refine ⟨_, by simp only [modifyModule, List.getElem?_modify, hx']; rfl, ?_, fun l t ht => ?_,
        fun l t' hl ht' => ?_⟩
      · simpa using hext.module
      · by_cases hl : k = l
        · subst hl
          cases hu.symm.trans ht
          obtain ⟨p, hp, -⟩ := hext.old k (.placeholder u.id) (by simp [hu])
          exact ⟨v, by simp [hp], by simp [Resumes]⟩
        · obtain ⟨t', ht', hr⟩ := hext.old l t (by simp [hl, ht])
          exact ⟨t', by simp [hl, ht'], by simpa [Resumes, Ne.symm hl] using hr⟩
      · have hk : k ≠ l := by
          have := (List.getElem?_eq_some_iff.1 hu).1
          omega
        refine hext.new l t' (by simpa using hl) ?_
        simpa [hk] using ht'
    · rw [if_neg hn] at hext
      refine ⟨x', by simp [modifyModule, hx', hn], hext.module, fun l t ht => ?_, hext.new⟩
      obtain ⟨t', ht', hr⟩ := hext.old l t ht
      exact ⟨t', ht', by simpa [Resumes, Ne.symm hn] using hr⟩

end

/-! ## Adding modules -/

/-- Where a name leads when the scripts of one more module got their slots. -/
theorem find?_foldl_giveSlot (n : Nat) (scripts : List Script) (k : Nat)
    (slots : OrdMap ScriptName ScriptSlot) (name : ScriptName) :
    ((scripts.zipIdx k).foldl (giveSlot n) slots).find? name =
      match slots.find? name with
      | some slot => some slot
      | none => (scripts.findIdx? (·.name == name)).map fun j =>
        { moduleIndex := n, scriptIndex := k + j } := by
  induction scripts generalizing slots k with
  | nil => cases hfind : slots.find? name <;> simp [hfind]
  | cons x scripts ih =>
    have hgive : (giveSlot n slots (x, k)).find? name = match slots.find? name with
        | some slot => some slot
        | none => if x.name = name then some { moduleIndex := n, scriptIndex := k } else none := by
      unfold giveSlot
      by_cases hx : x.name = name
      · subst hx
        cases hfind : slots.find? x.name <;> simp [OrdMap.contains, hfind]
      · have hother : compare name x.name ≠ .eq := fun h =>
          hx (Std.LawfulEqOrd.compare_eq_iff_eq.1 h).symm
        split
        · cases slots.find? name <;> simp
        · rw [OrdMap.find?_insert, if_neg hother]
          cases slots.find? name <;> simp
    rw [List.zipIdx_cons, List.foldl_cons, ih, hgive]
    cases hfind : slots.find? name with
    | some slot => rfl
    | none =>
      by_cases hx : x.name = name
      · simp [List.findIdx?_cons, hx]
      · simp only [hx, if_false, List.findIdx?_cons, beq_iff_eq, Option.map_map]
        congr 1
        funext j
        simp only [Function.comp_apply]
        congr 1
        omega

section

variable {x : Module}

/-- A scope of a plan with one more scope is an old one, or that of the new module. -/
theorem getElem?_plan_append {l : List (Module × List (Word × Option Post))} {n : Nat}
    {q : Module × List (Word × Option Post)} (hq : (l ++ [(x, [])])[n]? = some q) :
    l[n]? = some q ∨ (n = l.length ∧ q = (x, [])) := by
  rw [List.getElem?_append] at hq
  split at hq
  · exact .inl hq
  · have hmem := List.mem_singleton.1 (List.mem_of_getElem? hq)
    have hlt := (List.getElem?_eq_some_iff.1 hq).1
    rw [List.length_singleton] at hlt
    exact .inr ⟨by omega, hmem⟩

variable (hplan : m'.plan = m.plan ++ [(x, [])])
  (hslots : ∀ name, m'.slots.find? name = match m.slots.find? name with
    | some slot => some slot
    | none => (x.scripts.toList.findIdx? (·.name == name)).map fun j =>
      { moduleIndex := m.modules.length, scriptIndex := j })
include hplan hslots

/-- The scripts of a module that comes behind the others get the names that are free. -/
theorem Declared.append (h : m.Declared) : m'.Declared := by
  have hlen : m.plan.length = m.modules.length := List.length_map ..
  have hnew : (m.plan ++ [(x, [])])[m.modules.length]? = some (x, []) := by
    rw [← hlen]
    exact List.getElem?_concat_length
  refine ⟨fun name slot hslot => ?_, fun n q j y hq hy => ?_⟩
  · rw [hplan]
    rw [hslots] at hslot
    cases hfind : m.slots.find? name with
    | some slot₀ =>
      rw [hfind] at hslot
      cases hslot
      obtain ⟨q, y, hq, hy⟩ := h.leads name slot hfind
      exact ⟨q, y, (List.getElem?_append_left (List.getElem?_eq_some_iff.1 hq).1).trans hq, hy⟩
    | none =>
      rw [hfind] at hslot
      obtain ⟨j, hj, rfl⟩ := Option.map_eq_some_iff.1 hslot
      obtain ⟨hlt, hname, -⟩ := List.findIdx?_eq_some_iff_getElem.1 hj
      refine ⟨(x, []), x.scripts.toList[j], hnew, ?_, by simpa using hname⟩
      rw [← Array.getElem?_toList]
      exact List.getElem?_eq_getElem hlt
  · rw [hplan] at hq
    rw [hslots]
    rcases getElem?_plan_append hq with hq | ⟨rfl, rfl⟩
    · obtain ⟨slot, hslot, hle⟩ := h.first n q j y hq hy
      rw [hslot]
      exact ⟨slot, rfl, hle⟩
    · cases hfind : m.slots.find? y.name with
      | some slot =>
        obtain ⟨q, -, hq, -⟩ := h.leads y.name slot hfind
        exact ⟨slot, rfl, .inl (List.getElem?_eq_some_iff.1 hq).1⟩
      | none =>
        rw [← Array.getElem?_toList] at hy
        have hmem : (x.scripts.toList.findIdx? (·.name == y.name)).isSome := by
          rw [List.findIdx?_isSome, List.any_eq_true]
          exact ⟨y, List.mem_of_getElem? hy, by simp⟩
        obtain ⟨l, hl⟩ := Option.isSome_iff_exists.1 hmem
        refine ⟨_, by rw [hl]; rfl, .inr ⟨hlen.symm, ?_⟩⟩
        obtain ⟨_, _, hmin⟩ := List.findIdx?_eq_some_iff_getElem.1 hl
        refine Nat.le_of_not_lt fun hlt => ?_
        obtain ⟨hj, hval⟩ := List.getElem?_eq_some_iff.1 hy
        have := hmin j hlt
        simp [hval] at this

/-- A module scope without threads comes behind the others. -/
theorem Staffed.append (h : m.Staffed id) (hnext : m'.nextThreadId = m.nextThreadId) : m'.Staffed id := by
  have hmem : ∀ q ∈ m'.plan, q ∈ m.plan ∨ q.2 = [] := by
    intro q hq
    rw [hplan] at hq
    exact (List.mem_append.1 hq).imp_right fun hq => by rw [List.mem_singleton.1 hq]
  have hget : ∀ {n : Nat} {q}, m'.plan[n]? = some q → ∀ r ∈ q.2, m.plan[n]? = some q := by
    intro n q hq r hr
    rw [hplan] at hq
    refine (getElem?_plan_append hq).resolve_right ?_
    rintro ⟨-, rfl⟩
    cases hr
  refine ⟨fun q hq => ?_, fun n k q q' hn hk r hr r' hr' heq => ?_, fun q hq r hr => ?_,
    fun n q hn r hr p hp => ?_, fun name slot k hslot hk => ?_⟩
  · rcases hmem q hq with hq | hnil
    · exact h.increasing q hq
    · rw [hnil]
      exact List.Pairwise.nil
  · exact h.apart n k q q' (hget hn r hr) (hget hk r' hr') r hr r' hr' heq
  · rw [hnext]
    rcases hmem q hq with hq | hnil
    · exact h.below q hq r hr
    · rw [hnil] at hr
      cases hr
  · exact h.own n q (hget hn r hr) r hr p hp
  · rw [hslots] at hslot
    cases hfind : m.slots.find? name with
    | some slot₀ =>
      rw [hfind] at hslot
      cases hslot
      obtain ⟨q, p, y, hq, hrest⟩ := h.holder name slot k hfind hk
      refine ⟨q, p, y, ?_, hrest⟩
      rw [hplan]
      exact (List.getElem?_append_left (List.getElem?_eq_some_iff.1 hq).1).trans hq
    | none =>
      rw [hfind] at hslot
      obtain ⟨j, -, rfl⟩ := Option.map_eq_some_iff.1 hslot
      cases hk

end

/-- **A module is added.** -/
theorem Ordered.addModule (h : m.Ordered id) (x : LoadedModule) : (m.addModule x).2.Ordered id := by
  unfold MapScope.addModule
  split
  · exact h
  · have hslots := find?_foldl_giveSlot m.modules.length x.scripts.toList 0 m.slots
    simp only [Nat.zero_add] at hslots
    have hplan : plan { m with
        modules := m.modules ++ [ModuleScope.make x]
        slots := x.scripts.toList.zipIdx.foldl (giveSlot m.modules.length) m.slots } =
        m.plan ++ [(x.toModule, [])] := by
      simp [plan, ModuleScope.plan, ModuleScope.make]
    exact ⟨h.declared.append hplan hslots, h.staffed.append hplan hslots rfl⟩

end MapScope

end ScriptMachine
