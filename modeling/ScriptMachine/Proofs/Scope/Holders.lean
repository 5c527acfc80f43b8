import ScriptMachine.Proofs.Scope.Order

/-!
# Who runs a script holds its name

A script that is not one to run several times at once, and that its name leads to, should have one live
thread at most.  The map does not count threads; it knows which thread holds a name.  A map is tidy
(`MapScope.Tidy`) when every thread of such a script that has not ended holds the name.

A thread that runs is not in the map, and its placeholder does not tell which script it runs.  So
tidiness is stated with the `Absence` of threads: which script the thread runs that a placeholder stands
for.  The placeholder is the one to have ended or not, because it is where stops and pauses are left.

Each section of this module goes through one change of a map.
-/

namespace ScriptMachine

/-- Which script the thread runs that a placeholder of a module scope stands for: the number of the
module, the id, and the number of the script. -/
abbrev Absence := Nat → Word → Nat → Prop

/-- The thread goes on in another way, with the same script.  A thread that has ended stays as it
is. -/
def Thread.Redirects (t t' : Thread) : Prop :=
  t' = t ∨ t.state.isFinished = false ∧ t.Same t' ∧ t'.state ≠ .inactive

/-- A state that is set redirects a live thread. -/
theorem Thread.Redirects.setState {t : Thread} (h : t.state.isFinished = false) {state : ThreadState}
    (hstate : state ≠ .inactive) : t.Redirects { t with state } :=
  .inr ⟨h, ⟨rfl, rfl, rfl, rfl, rfl⟩, hstate⟩

namespace MapScope

/-- The thread, or the one it stands for, runs the script with this number. -/
def Runs (absent : Absence) (i : Nat) (t : Thread) (j : Nat) : Prop :=
  if t.isPlaceholder then absent i t.id j else t.scriptIndex = j

/-- Whoever runs a script that is not one to run several times at once, and has not ended, holds the
name that leads to the script. -/
structure Tidy (absent : Absence) (m : MapScope) : Prop where
  holds : ∀ {name slot s x t}, m.slots.find? name = some slot →
    m.modules[slot.moduleIndex]? = some s → s.module.scripts[slot.scriptIndex]? = some x →
    x.multi = false → t ∈ s.threads → Runs absent slot.moduleIndex t slot.scriptIndex →
    t.state.isFinished = false → slot.thread = some t.id
  asked : ∀ s ∈ m.modules, ∀ t ∈ s.threads, t.isPlaceholder = true → t.state ≠ .inactive

variable {absent absent' : Absence} {m m' : MapScope} {id : ScopeId} {i j : Nat} {s : ModuleScope}
  {t u v : Thread}

/-- A map without modules is tidy. -/
theorem tidy_empty (absent : Absence) : Tidy absent {} := ⟨nofun, nofun⟩

/-- Tidiness is a matter of slots, modules and threads. -/
theorem Tidy.of_modules (h : m.Tidy absent) (hslots : m'.slots = m.slots)
    (hmodules : m'.modules.map (fun s => (s.module, s.threads)) =
      m.modules.map fun s => (s.module, s.threads)) : m'.Tidy absent := by
  have hget : ∀ {n : Nat} {s' : ModuleScope}, m'.modules[n]? = some s' →
      ∃ s, m.modules[n]? = some s ∧ s.module = s'.module ∧ s.threads = s'.threads := by
    intro n s' hs'
    have hn := congrArg (fun l => l[n]?) hmodules
    simp only [List.getElem?_map, hs', Option.map_some] at hn
    obtain ⟨s, hs, heq⟩ := Option.map_eq_some_iff.1 hn.symm
    exact ⟨s, hs, congrArg Prod.fst heq, congrArg Prod.snd heq⟩
  refine ⟨fun {name slot s' x t} hslot hs' hx hmulti ht hruns hlive => ?_, fun s' hs' t ht => ?_⟩
  · obtain ⟨s, hs, hmodule, hthreads⟩ := hget hs'
    exact h.holds (hslots ▸ hslot) hs (hmodule ▸ hx) hmulti (hthreads ▸ ht) hruns hlive
  · obtain ⟨n, hn⟩ := List.getElem?_of_mem hs'
    obtain ⟨s, hs, -, hthreads⟩ := hget hn
    exact h.asked s (List.mem_of_getElem? hs) t (hthreads ▸ ht)

/-- The threads of one module scope change, and slots that lead there. -/
theorem Tidy.modify (h : m.Tidy absent) {f : List Thread → List Thread} (hs : m.modules[i]? = some s)
    (hmodules : m'.modules = m.modules.modify i fun s => { s with threads := f s.threads })
    (habsent : ∀ n k l, n ≠ i → absent' n k l → absent n k l)
    (hslots : ∀ name slot', m'.slots.find? name = some slot' → ∃ slot, m.slots.find? name = some slot ∧
      slot'.moduleIndex = slot.moduleIndex ∧ slot'.scriptIndex = slot.scriptIndex ∧
      (slot.moduleIndex ≠ i → slot'.thread = slot.thread))
    (hholds : ∀ {name slot' x t}, m'.slots.find? name = some slot' → slot'.moduleIndex = i →
      s.module.scripts[slot'.scriptIndex]? = some x → x.multi = false → t ∈ f s.threads →
      Runs absent' i t slot'.scriptIndex → t.state.isFinished = false → slot'.thread = some t.id)
    (hasked : ∀ t ∈ f s.threads, t.isPlaceholder = true → t.state ≠ .inactive) : m'.Tidy absent' := by
  have hat : m'.modules[i]? = some { s with threads := f s.threads } := by
    rw [hmodules, List.getElem?_modify, hs]
    simp
  have hother : ∀ {n : Nat}, n ≠ i → m'.modules[n]? = m.modules[n]? := by
    intro n hn
    rw [hmodules, List.getElem?_modify]
    simp [Ne.symm hn]
  refine ⟨fun {name slot' s' x t} hslot' hs' hx hmulti ht hruns hlive => ?_, fun s' hs' t ht => ?_⟩
  · by_cases hi : slot'.moduleIndex = i
    · rw [hi, hat] at hs'
      cases hs'
      exact hholds hslot' hi hx hmulti ht (hi ▸ hruns) hlive
    · obtain ⟨slot, hslot, hmi, hsi, hthread⟩ := hslots name slot' hslot'
      rw [hother hi, hmi] at hs'
      rw [hthread (hmi ▸ hi)]
      refine h.holds hslot hs' (hsi ▸ hx) hmulti ht ?_ hlive
      rw [← hmi, ← hsi]
      unfold Runs at hruns ⊢
      split at hruns
      · rw [if_pos ‹_›]
        exact habsent _ _ _ hi hruns
      · rwa [if_neg ‹_›]
  · obtain ⟨n, hn⟩ := List.getElem?_of_mem hs'
    by_cases hi : n = i
    · subst hi
      cases hat.symm.trans hn
      exact hasked t ht
    · rw [hother hi] at hn
      exact h.asked s' (List.mem_of_getElem? hn) t ht

/-! ## States -/

/-- Threads of a module scope are stopped, paused or resumed. -/
theorem Tidy.redirect (h : m.Tidy absent) {f : List Thread → List Thread} (hs : m.modules[i]? = some s)
    (hf : List.Forall₂ Thread.Redirects s.threads (f s.threads)) :
    (m.modifyModule i fun s => { s with threads := f s.threads }).Tidy absent := by
  have hold : ∀ {t'}, t' ∈ f s.threads → ∃ t ∈ s.threads, t.Redirects t' := by
    intro t' ht'
    obtain ⟨k, hk, rfl⟩ := List.getElem_of_mem ht'
    have hlt : k < s.threads.length := hf.length_eq ▸ hk
    exact ⟨_, List.getElem_mem hlt, hf.get hlt hk⟩
  refine h.modify hs rfl (fun _ _ _ _ ha => ha) (fun name slot hslot => ⟨slot, hslot, rfl, rfl, fun _ => rfl⟩)
    (fun {name slot x t'} hslot hi hx hmulti ht' hruns hlive => ?_) fun t' ht' hplace => ?_
  · obtain ⟨t, ht, hredirects⟩ := hold ht'
    rcases hredirects with rfl | ⟨hunfinished, hsame, -⟩
    · exact h.holds hslot (hi.symm ▸ hs) hx hmulti ht (hi.symm ▸ hruns) hlive
    · rw [Runs, hsame.isPlaceholder_eq, hsame.id, hsame.scriptIndex, ← Runs] at hruns
      rw [hsame.id]
      exact h.holds hslot (hi.symm ▸ hs) hx hmulti ht (hi.symm ▸ hruns) hunfinished
  · obtain ⟨t, ht, hredirects⟩ := hold ht'
    rcases hredirects with rfl | ⟨-, -, hstate⟩
    · exact h.asked s (List.mem_of_getElem? hs) t' ht hplace
    · exact hstate

/-! ## New threads -/

/-- A new thread may take the name of its script if whoever ran the script has ended; it must take the
name if there is one for it. -/
theorem Tidy.withThread (h : m.Tidy absent) (hm : m.Ordered id) {args : List Word} {info : ThreadInfo}
    (hs : m.modules[i]? = some s)
    (ht : Thread.make? m.nextThreadId s.module id i j args info = some t) {x : Script}
    (hx : s.module.scripts[j]? = some x) {takesName : Bool}
    (htakes : takesName = true ↔ Machine.ownsName m x.name i j = true ∧ x.multi = false)
    (hvacant : takesName = true → ∀ u ∈ s.threads, Runs absent i u j → u.state.isFinished = true) :
    (Machine.withThread m i t takesName).Tidy absent := by
  obtain ⟨hreal, hscript, hname⟩ : t.isPlaceholder = false ∧ t.scriptIndex = j ∧
      t.scriptName? = some x.name := by
    obtain ⟨y, hy, hscriptName⟩ := (role_of_make? ht).2
    cases hy.symm.trans hx
    obtain ⟨z, -, rfl⟩ := Option.map_eq_some_iff.1 ht
    exact ⟨rfl, rfl, hscriptName⟩
  -- a slot that leads to the script belongs to its name
  have hown : ∀ {name : ScriptName} {slot : ScriptSlot}, m.slots.find? name = some slot →
      slot.moduleIndex = i → slot.scriptIndex = j → Machine.ownsName m x.name i j = true := by
    intro name slot hslot hi hj
    cases hm.declared.name_eq hs hx hslot hi hj
    simp [Machine.ownsName, hslot, hi, hj]
  -- the name that is taken leads to the script
  have htaken : ∀ {slot}, takesName = true → m.slots.find? x.name = some slot →
      slot.moduleIndex = i ∧ slot.scriptIndex = j := by
    intro slot htrue hslot
    have howns := (htakes.1 htrue).1
    rw [Machine.ownsName, hslot] at howns
    simpa using howns
  refine h.modify (f := (· ++ [t])) hs (Machine.withThread_modules m i t takesName) (fun _ _ _ _ ha => ha)
    (fun name slot' hslot' => ?_) (fun {name slot' y u} hslot' hi hy hmulti hu hruns hlive => ?_)
    fun u hu hplace => ?_
  · obtain ⟨slot, hslot, ⟨rfl, -⟩ | ⟨htrue, rfl, rfl⟩⟩ := exists_slot_of_withThread hname hslot'
    · exact ⟨slot', hslot, rfl, rfl, fun _ => rfl⟩
    · exact ⟨slot, hslot, rfl, rfl, fun hne => absurd (htaken htrue hslot).1 hne⟩
  · obtain ⟨slot, hslot, ⟨rfl, hother⟩ | ⟨htrue, rfl, rfl⟩⟩ := exists_slot_of_withThread hname hslot'
    · rcases List.mem_append.1 hu with hu | hu
      · exact h.holds hslot (hi.symm ▸ hs) hy hmulti hu (hi.symm ▸ hruns) hlive
      · -- the new thread would have taken the name
        cases List.mem_singleton.1 hu
        rw [Runs, if_neg (by simp [hreal]), hscript] at hruns
        rw [← hruns] at hy
        cases hy.symm.trans hx
        have htrue := htakes.2 ⟨hown hslot hi hruns.symm, hmulti⟩
        exact absurd (hm.declared.name_eq hs hx hslot hi hruns.symm) (hother htrue)
    · rcases List.mem_append.1 hu with hu | hu
      · have hruns' : Runs absent i u j := (htaken htrue hslot).2 ▸ hruns
        rw [hvacant htrue u hu hruns'] at hlive
        cases hlive
      · cases List.mem_singleton.1 hu
        rfl
  · rcases List.mem_append.1 hu with hu | hu
    · exact h.asked s (List.mem_of_getElem? hs) u hu hplace
    · cases List.mem_singleton.1 hu
      rw [hreal] at hplace
      cases hplace

/-! ## New modules -/

/-- A new module has no threads, and names that lead to it are held by none. -/
theorem Tidy.addModule (h : m.Tidy absent) (x : LoadedModule) : (m.addModule x).2.Tidy absent := by
  unfold MapScope.addModule
  split
  · exact h
  · have hnew : ∀ {n : Nat} {s : ModuleScope}, (m.modules ++ [ModuleScope.make x])[n]? = some s →
        m.modules[n]? = some s ∨ s.threads = [] := by
      intro n s hs
      rw [List.getElem?_append] at hs
      split at hs
      · exact .inl hs
      · obtain ⟨hlt, rfl⟩ := List.getElem?_eq_some_iff.1 hs
        rw [List.getElem_singleton]
        exact .inr rfl
    refine ⟨fun {name slot s y t} hslot hs hy hmulti ht hruns hlive => ?_, fun s hs t ht => ?_⟩
    · rcases hnew hs with hs | hnone
      · simp only [find?_foldl_giveSlot] at hslot
        split at hslot
        · rename_i slot₀ hold
          cases hslot
          exact h.holds hold hs hy hmulti ht hruns hlive
        · -- a new slot leads to the new module
          obtain ⟨k, -, rfl⟩ := Option.map_eq_some_iff.1 hslot
          simp at hs
      · rw [hnone] at ht
        cases ht
    · obtain ⟨n, hn⟩ := List.getElem?_of_mem hs
      rcases hnew hn with hn | hnone
      · exact h.asked s (List.mem_of_getElem? hn) t ht
      · rw [hnone] at ht
        cases ht

/-! ## Threads that go -/

/-- A thread is removed and gives up its name. -/
theorem Tidy.reap (h : m.Tidy absent) (hm : m.Ordered id) {k : Nat} (hs : m.modules[i]? = some s)
    (ht : s.threads[k]? = some t) :
    ((m.modifyModule i fun s => { s with threads := s.threads.eraseIdx k }).releaseSlot t).Tidy
      absent := by
  have hmodules : ((m.modifyModule i fun s => { s with threads := s.threads.eraseIdx k }).releaseSlot
      t).modules = m.modules.modify i fun s => { s with threads := s.threads.eraseIdx k } := by
    unfold releaseSlot
    split <;> rfl
  have hfind : ∀ {name slot'}, ((m.modifyModule i fun s =>
      { s with threads := s.threads.eraseIdx k }).releaseSlot t).slots.find? name = some slot' →
      ∃ slot, m.slots.find? name = some slot ∧ (slot' = slot ∨
        slot.thread = some t.id ∧ slot' = { slot with thread := none }) := by
    intro name slot' hslot'
    unfold releaseSlot at hslot'
    split at hslot'
    · exact ⟨slot', hslot', .inl rfl⟩
    · simp only [OrdMap.find?_modify] at hslot'
      split at hslot'
      · obtain ⟨slot, hslot, heq⟩ := Option.map_eq_some_iff.1 hslot'
        refine ⟨slot, hslot, ?_⟩
        split at heq
        · exact .inr ⟨‹_›, heq.symm⟩
        · exact .inl heq.symm
      · exact ⟨slot', hslot', .inl rfl⟩
  have hnodup := hm.staffed.nodup_ids hs
  have hleft : ∀ {u}, u ∈ s.threads.eraseIdx k → u ∈ s.threads ∧ u.id ≠ t.id := by
    intro u hu
    obtain ⟨l, hl, hu⟩ := List.mem_eraseIdx_iff_getElem?.1 hu
    refine ⟨List.mem_of_getElem? hu, fun hid => hl ?_⟩
    rw [← findIdx_id_eq hnodup hu, ← findIdx_id_eq hnodup ht, hid]
  refine h.modify (f := (·.eraseIdx k)) hs hmodules (fun _ _ _ _ ha => ha) (fun name slot' hslot' => ?_)
    (fun {name slot' y u} hslot' hi hy hmulti hu hruns hlive => ?_)
    fun u hu => h.asked s (List.mem_of_getElem? hs) u (hleft hu).1
  · obtain ⟨slot, hslot, rfl | ⟨hheld, rfl⟩⟩ := hfind hslot'
    · exact ⟨slot', hslot, rfl, rfl, fun _ => rfl⟩
    · refine ⟨slot, hslot, rfl, rfl, fun hne => absurd ?_ hne⟩
      -- names are held by threads of the module they lead to
      obtain ⟨q, p, y, hq, hmem, -⟩ := hm.staffed.holder name slot t.id hslot hheld
      exact hm.staffed.apart slot.moduleIndex i q s.plan hq (getElem?_plan hs) _ hmem t.role
        (List.mem_map_of_mem (List.mem_of_getElem? ht)) rfl
  · obtain ⟨slot, hslot, rfl | ⟨hheld, rfl⟩⟩ := hfind hslot'
    · exact h.holds hslot (hi.symm ▸ hs) hy hmulti (hleft hu).1 (hi.symm ▸ hruns) hlive
    · have hthread := h.holds hslot (hi.symm ▸ hs) hy hmulti (hleft hu).1 (hi.symm ▸ hruns) hlive
      rw [hheld] at hthread
      exact absurd (Option.some.inj hthread).symm (hleft hu).2

/-! ## Turns -/

/-- One more thread is out of the map. -/
def Absence.with (absent : Absence) (i : Nat) (t : Thread) : Absence := fun n k j =>
  if n = i ∧ k = t.id then j = t.scriptIndex else absent n k j

/-- What is in a list after one of its elements was replaced. -/
theorem exists_of_mem_modify {ts : List Thread} {k : Nat} (h : t ∈ ts.modify k fun _ => v) :
    (∃ l, l ≠ k ∧ ts[l]? = some t) ∨ t = v := by
  obtain ⟨l, hl⟩ := List.getElem?_of_mem h
  rw [List.getElem?_modify] at hl
  obtain ⟨w, hw, rfl⟩ := Option.map_eq_some_iff.1 hl
  split
  · exact .inr rfl
  · exact .inl ⟨l, fun heq => by simp_all, hw⟩

/-- Where ids differ, a thread of the scope that is not the one at a place has another id. -/
theorem Ordered.id_ne (h : m.Ordered id) (hs : m.modules[i]? = some s) {k l : Nat}
    (hu : s.threads[k]? = some u) (ht : s.threads[l]? = some t) (hne : l ≠ k) : t.id ≠ u.id := by
  intro hid
  have hnodup := h.staffed.nodup_ids hs
  exact hne (by rw [← findIdx_id_eq hnodup ht, ← findIdx_id_eq hnodup hu, hid])

/-- For all other threads it does not matter that the thread is out. -/
theorem runs_with (hne : t.id ≠ u.id) : Runs (Absence.with absent i u) i t j ↔ Runs absent i t j := by
  have hother : Absence.with absent i u i t.id j ↔ absent i t.id j := by
    rw [Absence.with, if_neg fun heq => hne heq.2]
  unfold Runs
  split
  · exact hother
  · exact Iff.rfl

/-- A thread is taken out for its turn. -/
theorem Tidy.detach (h : m.Tidy absent) (hm : m.Ordered id) {k : Nat} (hs : m.modules[i]? = some s)
    (hu : s.threads[k]? = some u) (hreal : u.isPlaceholder = false)
    (hlive : u.state.isFinished = false) :
    (m.modifyModule i fun s => { s with threads := s.threads.modify k fun _ => .placeholder u.id }).Tidy
      (Absence.with absent i u) := by
  refine h.modify (f := (·.modify k fun _ => .placeholder u.id)) hs rfl (fun n l j hn ha => ?_)
    (fun name slot hslot => ⟨slot, hslot, rfl, rfl, fun _ => rfl⟩)
    (fun {name slot y t} hslot hi hy hmulti ht hruns hunfinished => ?_) fun t ht hplace => ?_
  · rwa [Absence.with, if_neg fun heq => hn heq.1] at ha
  · rcases exists_of_mem_modify ht with ⟨l, hl, hmem⟩ | rfl
    · refine h.holds hslot (hi.symm ▸ hs) hy hmulti (List.mem_of_getElem? hmem) ?_ hunfinished
      rw [hi]
      exact (runs_with (hm.id_ne hs hu hmem hl)).1 hruns
    · refine h.holds (t := u) hslot (hi.symm ▸ hs) hy hmulti (List.mem_of_getElem? hu) ?_ hlive
      have hscript : slot.scriptIndex = u.scriptIndex := by
        simpa [Runs, Thread.isPlaceholder, Thread.placeholder, Absence.with] using hruns
      rw [Runs, if_neg (by simp [hreal])]
      exact hscript.symm
  · rcases exists_of_mem_modify ht with ⟨l, -, hmem⟩ | rfl
    · exact h.asked s (List.mem_of_getElem? hs) t (List.mem_of_getElem? hmem) hplace
    · rintro ⟨⟩

/-- A thread comes back.  It has ended if its placeholder was stopped. -/
theorem Tidy.resume (h : m.Tidy (Absence.with absent i u)) (hm : m.Ordered id) {k : Nat} {p : Thread}
    (hs : m.modules[i]? = some s) (hp : s.threads[k]? = some p) (hplace : p.isPlaceholder = true)
    (hid : p.id = u.id) (hv : v.id = u.id) (hscript : v.scriptIndex = u.scriptIndex)
    (hreal : v.isPlaceholder = false) (hended : p.state.isFinished = true → v.state.isFinished = true) :
    (m.modifyModule i fun s => { s with threads := s.threads.modify k fun _ => v }).Tidy absent := by
  refine h.modify (f := (·.modify k fun _ => v)) hs rfl (fun n l j hn ha => ?_)
    (fun name slot hslot => ⟨slot, hslot, rfl, rfl, fun _ => rfl⟩)
    (fun {name slot y t} hslot hi hy hmulti ht hruns hunfinished => ?_) fun t ht hplace' => ?_
  · rwa [Absence.with, if_neg fun heq => hn heq.1]
  · rcases exists_of_mem_modify ht with ⟨l, hl, hmem⟩ | rfl
    · refine h.holds hslot (hi.symm ▸ hs) hy hmulti (List.mem_of_getElem? hmem) ?_ hunfinished
      rw [hi]
      exact (runs_with (hid ▸ hm.id_ne hs hp hmem hl)).2 hruns
    · -- the placeholder has not ended, so it holds the name
      rw [hv, ← hid]
      refine h.holds (t := p) hslot (hi.symm ▸ hs) hy hmulti (List.mem_of_getElem? hp) ?_ ?_
      · rw [Runs, if_neg (by simp [hreal]), hscript] at hruns
        rw [Runs, if_pos hplace, Absence.with, if_pos ⟨hi, hid⟩]
        exact hruns.symm
      · cases hend : p.state.isFinished with
        | false => rfl
        | true => exact absurd (hunfinished.symm.trans (hended hend)) (by decide)
  · rcases exists_of_mem_modify ht with ⟨l, -, hmem⟩ | rfl
    · exact h.asked s (List.mem_of_getElem? hs) t (List.mem_of_getElem? hmem) hplace'
    · rw [hreal] at hplace'
      cases hplace'

/-! ## One live thread -/

/-- **One live thread.**  In a tidy map with no thread out, a script that its name leads to and that is
not one to run several times at once has one live thread at most. -/
theorem Tidy.length_le_one (h : m.Tidy absent) (hm : m.Ordered id)
    (hfilled : ∀ t ∈ s.threads, t.isPlaceholder = false) (hs : m.modules[i]? = some s) {x : Script}
    (hx : s.module.scripts[j]? = some x) (hmulti : x.multi = false) {name : ScriptName}
    {slot : ScriptSlot} (hslot : m.slots.find? name = some slot) (hi : slot.moduleIndex = i)
    (hj : slot.scriptIndex = j) :
    (s.threads.filter fun t => t.scriptIndex == j && !t.state.isFinished).length ≤ 1 := by
  -- all of them have the id of the holder, and ids differ
  have hholder : ∀ k ∈ (s.threads.filter fun t => t.scriptIndex == j && !t.state.isFinished).map (·.id),
      some k = slot.thread := by
    intro k hk
    obtain ⟨t, ht, rfl⟩ := List.mem_map.1 hk
    obtain ⟨hmem, hlive⟩ := List.mem_filter.1 ht
    simp only [Bool.and_eq_true, beq_iff_eq, Bool.not_eq_true'] at hlive
    refine (h.holds hslot (hi.symm ▸ hs) (hj.symm ▸ hx) hmulti hmem ?_ hlive.2).symm
    rw [Runs, if_neg (by simp [hfilled t hmem]), hj]
    exact hlive.1
  have hnodup : ((s.threads.filter fun t => t.scriptIndex == j && !t.state.isFinished).map
      (·.id)).Nodup := (hm.staffed.nodup_ids hs).sublist (List.filter_sublist.map _)
  rw [← List.length_map (f := (·.id))]
  generalize (s.threads.filter fun t => t.scriptIndex == j && !t.state.isFinished).map (·.id) = ids
    at hholder hnodup
  match ids with
  | [] => exact Nat.zero_le _
  | [_] => exact Nat.le_refl _
  | k :: l :: _ =>
    have hsame : some k = some l := (hholder k (by simp)).trans (hholder l (by simp)).symm
    cases hsame
    simp at hnodup

end MapScope

end ScriptMachine
