import ScriptMachine.Proofs.Machine.Order

/-!
# The seats of threads

While a machine runs, a thread is known by its seat: the map, the number of the module there, and the
id.  A seat is known once its id has been given out, and it is spent in a tick when the thread that
sits there has had its turn, is out of the tree for it, or is gone.  Scripts leave threads where they
sit, so a spent seat stays spent until the tick is over (`Widens.spent`, `Rewrites.spent`).
-/

namespace ScriptMachine

/-- Where a thread sits. -/
structure Seat where
  scope : ScopeId
  moduleIndex : Nat
  id : Word
deriving DecidableEq

/-- The seat that a thread belongs to. -/
def Thread.seat (t : Thread) : Seat := ⟨t.scope, t.moduleIndex, t.id⟩

/-- A thread is looked up by its id after the one with some id has changed. -/
theorem find?_modify_findIdx {ts : List Thread} {w : Word} {f : Thread → Thread}
    (hf : ∀ t, t.id = w → (f t).id = w) (k : Word) :
    (ts.modify (ts.findIdx (·.id == w)) f).find? (·.id == k) =
      if k = w then (ts.find? (·.id == k)).map f else ts.find? (·.id == k) := by
  induction ts with
  | nil => simp
  | cons t ts ih =>
    rw [List.findIdx_cons]
    by_cases ht : t.id = w
    · have hbeq : (t.id == w) = true := by simpa using ht
      simp only [hbeq, cond_true, List.modify_zero_cons, List.find?_cons, hf t ht]
      by_cases hk : k = w
      · simp [hk, ht]
      · have hne : (w == k) = false := by simpa using Ne.symm hk
        simp only [ht, hne, if_neg hk]
    · have hbeq : (t.id == w) = false := by simpa using ht
      simp only [hbeq, cond_false, List.modify_succ_cons, List.find?_cons, ih]
      by_cases hk : k = w
      · simp only [hk, hbeq, if_true]
      · simp only [if_neg hk]

/-- Threads that are put into states are found by their ids as before. -/
theorem find?_restates {ts ts' : List Thread} (h : List.Forall₂ Thread.Restates ts ts') (k : Word) :
    Option.Rel Thread.Restates (ts.find? (·.id == k)) (ts'.find? (·.id == k)) := by
  induction h with
  | nil => exact .none
  | cons hr _ ih =>
    rw [List.find?_cons, List.find?_cons, hr.same.id]
    split
    · exact .some hr
    · exact ih

namespace Machine

variable {m m' m'' : Machine} {scope : ScopeId} {i j : Nat} {s : Seat} {t u : Thread}

/-- The threads of a module scope. -/
def threadsAt (m : Machine) (scope : ScopeId) (i : Nat) : List Thread :=
  ((m.scopes.module? scope i).map (·.threads)).getD []

/-- The thread that sits in a seat. -/
def sitter? (m : Machine) (s : Seat) : Option Thread :=
  (m.threadsAt s.scope s.moduleIndex).find? (·.id == s.id)

/-- The id of the seat has been given out. -/
def Known (m : Machine) (s : Seat) : Prop :=
  ∃ map, m.scopes.map? s.scope = some map ∧ s.id < map.nextThreadId

/-- No thread in this seat can have a turn in this tick any more. -/
def Spent (m : Machine) (s : Seat) : Prop :=
  m.Known s ∧ ∀ t, m.sitter? s = some t → t.isPlaceholder = true ∨ t.lastTick = m.tick

/-- The tree alone has the threads. -/
theorem threadsAt_congr (h : m'.scopes = m.scopes) : m'.threadsAt = m.threadsAt := by
  funext scope i
  rw [threadsAt, threadsAt, h]

/-- Whether a seat is known is seen from the tree. -/
theorem known_congr (h : m'.scopes = m.scopes) : m'.Known s ↔ m.Known s := by
  rw [Known, Known, h]

/-- The thread at a place of the tree. -/
theorem getElem?_threadsAt :
    (m.threadsAt scope i)[j]? = (m.scopes.module? scope i).bind (·.threads[j]?) := by
  rw [threadsAt]
  cases m.scopes.module? scope i <;> simp

/-- A thread is in a module scope of a map. -/
theorem exists_threadsAt (h : t ∈ m.threadsAt scope i) : ∃ map x, m.scopes.map? scope = some map ∧
    map.modules[i]? = some x ∧ t ∈ x.threads ∧ m.threadsAt scope i = x.threads := by
  obtain ⟨j, hj⟩ := List.getElem?_of_mem h
  obtain ⟨map, x, hmap, hx, hat, ht⟩ := exists_place (getElem?_threadsAt ▸ hj)
  exact ⟨map, x, hmap, hat, List.mem_of_getElem? ht, by rw [threadsAt, hx]; rfl⟩

/-- Who sits in a seat is there under its id. -/
theorem mem_of_sitter? (h : m.sitter? s = some t) :
    t ∈ m.threadsAt s.scope s.moduleIndex ∧ t.id = s.id :=
  ⟨List.mem_of_find?_eq_some h, by simpa using List.find?_some h⟩

/-- Where a thread sits, its id is in the list. -/
theorem exists_index (h : (m.sitter? s).isSome) :
    ∃ k : Nat, ((m.threadsAt s.scope s.moduleIndex).map (·.id))[k]? = some s.id := by
  obtain ⟨t, ht⟩ := Option.isSome_iff_exists.1 h
  obtain ⟨hmem, hid⟩ := mem_of_sitter? ht
  exact List.getElem?_of_mem (hid ▸ List.mem_map_of_mem hmem)

/-- The seat of a thread to come is not known. -/
theorem not_known_next {map : MapScope} (hmap : m.scopes.map? scope = some map) (i : Nat) :
    ¬ m.Known ⟨scope, i, map.nextThreadId⟩ := by
  rintro ⟨map', hmap', hlt⟩
  cases hmap.symm.trans hmap'
  exact UInt32.lt_irrefl _ hlt

/-- The new thread is the last one of its list. -/
theorem threads_spawn {map : MapScope} {place : ModuleScope} {args : List Word} {info : ThreadInfo}
    (hmap : m.scopes.map? scope = some map) (hplace : map.modules[i]? = some place)
    (ht : Thread.make? map.nextThreadId place.module scope i j args info = some t) (takesName : Bool) :
    (m.spawn scope i j args info takesName).2.threadsAt scope i = place.threads ++ [t] := by
  rw [threadsAt, module?_spawn hmap hplace ht]
  rfl

/-- A thread that is started for its result stands where it is taken out. -/
theorem getElem?_started {map : MapScope} {place : ModuleScope} {v : Thread} {args : List Word}
    {info : ThreadInfo} (hmap : m.scopes.map? scope = some map) (hplace : map.modules[i]? = some place)
    (hv : Thread.make? map.nextThreadId place.module scope i j args info = some v) (takesName : Bool)
    (hu : (place.threads ++ [v]).find? (·.id == u.id) = some u) :
    ((m.spawn scope i j args info takesName).2.threadsAt scope i)[
      ((m.spawn scope i j args info takesName).2.threadsAt scope i).findIdx (·.id == u.id)]? = some u := by
  rw [threads_spawn hmap hplace hv, ← List.find?_eq_getElem?_findIdx]
  exact hu

/-- Threads of a module scope have ids of their own. -/
def Distinct (m : Machine) : Prop := ∀ scope i, ((m.threadsAt scope i).map (·.id)).Nodup

/-- The id of a thread leads to its place. -/
theorem Distinct.findIdx_eq (hm : m.Distinct) (hu : (m.threadsAt scope i)[j]? = some u) :
    (m.threadsAt scope i).findIdx (·.id == u.id) = j :=
  MapScope.findIdx_id_eq (hm scope i) hu

/-- A thread sits in the seat of its place. -/
theorem Distinct.sitter? (hm : m.Distinct) (hu : (m.threadsAt scope i)[j]? = some u) :
    m.sitter? ⟨scope, i, u.id⟩ = some u := by
  rw [Machine.sitter?, List.find?_eq_getElem?_findIdx, hm.findIdx_eq hu]
  exact hu

section Ordered

variable (hm : m.Ordered)
include hm

/-- Thread ids grow along the threads of a module scope in order. -/
theorem Ordered.increasing_ids (scope : ScopeId) (i : Nat) :
    ((m.threadsAt scope i).map (·.id)).Pairwise (· < ·) := by
  cases hx : m.scopes.module? scope i with
  | none =>
    rw [threadsAt, hx]
    exact .nil
  | some x =>
    obtain ⟨map, hmap, hat⟩ := Option.bind_eq_some_iff.1 hx
    have h := (hm scope map hmap).staffed.increasing x.plan
      (List.mem_of_getElem? (MapScope.getElem?_plan hat))
    rw [threadsAt, hx]
    simpa [ModuleScope.plan, List.map_map, Function.comp_def, Thread.role] using h

/-- Threads in order differ by their ids. -/
theorem Ordered.distinct : m.Distinct := fun scope i =>
  (hm.increasing_ids scope i).imp fun hlt => UInt32.ne_of_lt hlt

/-- Threads in order have known seats. -/
theorem Ordered.known (ht : t ∈ m.threadsAt scope i) : m.Known ⟨scope, i, t.id⟩ := by
  obtain ⟨map, x, hmap, hx, hmem, -⟩ := exists_threadsAt ht
  exact ⟨map, hmap, (hm scope map hmap).staffed.below x.plan
    (List.mem_of_getElem? (MapScope.getElem?_plan hx)) t.role (List.mem_map_of_mem hmem)⟩

/-- A thread that is not out of the tree belongs to the seat of its place. -/
theorem Ordered.seat_eq (ht : t ∈ m.threadsAt scope i) (hreal : t.isPlaceholder = false) :
    t.seat = ⟨scope, i, t.id⟩ := by
  obtain ⟨map, x, hmap, hx, hmem, -⟩ := exists_threadsAt ht
  obtain ⟨module, hmodule⟩ : ∃ module, t.module = some module := by
    rw [Thread.isPlaceholder, Option.isNone_eq_false_iff] at hreal
    exact Option.isSome_iff_exists.1 hreal
  have hat := (hm scope map hmap).staffed.own i x.plan (MapScope.getElem?_plan hx) t.role
    (List.mem_map_of_mem hmem) ⟨module.toModule, t.scope, t.moduleIndex, t.scriptIndex⟩
    (by rw [Thread.role, Thread.post?, hmodule]; rfl)
  rw [Thread.seat, ← hat.scope, ← hat.index]

end Ordered

/-! ## Scripts leave threads where they sit -/

/-- Known seats stay so as the machine widens. -/
theorem Widens.known (h : m.Widens m') (hs : m.Known s) : m'.Known s := by
  obtain ⟨map, hmap, hlt⟩ := hs
  obtain ⟨map', hmap', hgrows⟩ := h.maps s.scope map hmap
  exact ⟨map', hmap', UInt32.lt_of_lt_of_le hlt hgrows.next⟩

/-- The threads of a module scope are followed by new ones. -/
theorem Widens.threadsAt (h : m.Widens m') (scope : ScopeId) (i : Nat) : ∃ old new,
    m'.threadsAt scope i = old ++ new ∧ List.Forall₂ Thread.Restates (m.threadsAt scope i) old ∧
      ∀ t ∈ new, ¬ m.Known ⟨scope, i, t.id⟩ := by
  cases hx : m.scopes.module? scope i with
  | none =>
    refine ⟨[], m'.threadsAt scope i, rfl, by rw [Machine.threadsAt, hx]; exact .nil, ?_⟩
    rintro t ht ⟨map, hmap, -⟩
    obtain ⟨map₁, x, hmap₁, hat, -⟩ := exists_threadsAt ht
    obtain ⟨map', hmap', hgrows⟩ := h.maps scope map hmap
    cases hmap'.symm.trans hmap₁
    rw [ScopeTree.module?_eq, hmap, Option.bind_some, List.getElem?_eq_none_iff, ← hgrows.length] at hx
    have := (List.getElem?_eq_some_iff.1 hat).1
    omega
  | some x =>
    obtain ⟨map, hmap, hat⟩ := Option.bind_eq_some_iff.1 hx
    obtain ⟨map', hmap', hgrows⟩ := h.maps scope map hmap
    obtain ⟨x', hx', hextends⟩ := hgrows.module i x hat
    have hthreads : m'.threadsAt scope i = x'.threads := by
      rw [Machine.threadsAt, ScopeTree.module?_eq, hmap', Option.bind_some, hx']
      rfl
    refine ⟨x'.threads.take x.threads.length, x'.threads.drop x.threads.length,
      by rw [hthreads, List.take_append_drop], ?_, fun t ht => ?_⟩
    · have hlen : x.threads.length ≤ x'.threads.length := by
        refine Nat.le_of_not_lt fun hlt => ?_
        obtain ⟨t', ht', -⟩ := hextends.old _ _ (List.getElem?_eq_getElem hlt)
        have := (List.getElem?_eq_some_iff.1 ht').1
        omega
      rw [Machine.threadsAt, hx, Option.map_some, Option.getD_some, List.forall₂_iff_get]
      refine ⟨by rw [List.length_take]; omega, fun k hk hk' => ?_⟩
      obtain ⟨t', ht', hr⟩ := hextends.old k _ (List.getElem?_eq_getElem hk)
      rw [List.get_eq_getElem, List.get_eq_getElem, List.getElem_take]
      obtain ⟨hlt, heq⟩ := List.getElem?_eq_some_iff.1 ht'
      rw [heq]
      exact hr
    · rintro ⟨map₁, hmap₁, hlt⟩
      cases hmap.symm.trans hmap₁
      obtain ⟨k, hk⟩ := List.getElem?_of_mem ht
      rw [List.getElem?_drop] at hk
      exact UInt32.not_le.2 hlt (hextends.new _ t (Nat.le_add_right ..) hk).1

/-- Threads come behind those that were there. -/
theorem Widens.prefix_ids (h : m.Widens m') (scope : ScopeId) (i : Nat) :
    (m.threadsAt scope i).map (·.id) <+: (m'.threadsAt scope i).map (·.id) := by
  obtain ⟨old, new, heq, hold, -⟩ := h.threadsAt scope i
  rw [heq, List.map_append, map_id_of_restates hold]
  exact List.prefix_append ..

/-- Threads in known seats stay there, and are as they were but for their states. -/
theorem Widens.sitter? (h : m.Widens m') (hs : m.Known s) :
    Option.Rel Thread.Restates (m.sitter? s) (m'.sitter? s) := by
  obtain ⟨old, new, heq, hold, hnew⟩ := h.threadsAt s.scope s.moduleIndex
  have hnone : new.find? (·.id == s.id) = none := by
    refine List.find?_eq_none.2 fun t ht hid => hnew t ht ?_
    rw [eq_of_beq hid]
    exact hs
  rw [Machine.sitter?, Machine.sitter?, heq, List.find?_append, hnone, Option.or_none]
  exact find?_restates hold s.id

/-- A spent seat stays spent. -/
theorem Widens.spent (h : m.Widens m') (hs : m.Spent s) : m'.Spent s := by
  refine ⟨h.known hs.1, fun t' ht' => ?_⟩
  have hrel := h.sitter? hs.1
  rw [ht'] at hrel
  generalize hsit : m.sitter? s = r at hrel
  cases hrel with
  | some hr =>
    rw [hr.same.isPlaceholder_eq, hr.lastTick_eq, h.tick]
    exact hs.2 _ hsit

/-! ## One list of threads changes -/

/-- The threads of one module scope change as `g` says.  Others stay, and no id is given out. -/
structure Rewrites (scope : ScopeId) (i : Nat) (g : List Thread → List Thread) (m m' : Machine) :
    Prop where
  tick : m'.tick = m.tick
  shape : m'.scopes.shape = m.scopes.shape
  known : ∀ s, m'.Known s ↔ m.Known s
  threads : ∀ id n, m'.threadsAt id n =
    if id = scope ∧ n = i then g (m.threadsAt id n) else m.threadsAt id n

/-- The threads after a change of one map. -/
theorem threadsAt_modifyMap {f : MapScope → MapScope} {g : List Thread → List Thread}
    (hscopes : m'.scopes = m.scopes.modifyMap scope f)
    (hg : m.scopes.module? scope i = none → g [] = [])
    (hf : ∀ map, m.scopes.map? scope = some map →
      (f map).modules = map.modules.modify i fun x => { x with threads := g x.threads })
    (id : ScopeId) (n : Nat) : m'.threadsAt id n =
      if id = scope ∧ n = i then g (m.threadsAt id n) else m.threadsAt id n := by
  rw [threadsAt, threadsAt, hscopes, ScopeTree.module?_eq, ScopeTree.module?_eq,
    ScopeTree.map?_modifyMap]
  rw [ScopeTree.module?_eq] at hg
  by_cases hid : id = scope
  · subst hid
    rw [if_pos rfl]
    cases hmap : m.scopes.map? id with
    | none =>
      rw [hmap] at hg
      simp [hg rfl]
    | some map =>
      rw [hmap] at hg
      by_cases hn : n = i
      · subst hn
        cases hat : map.modules[n]? with
        | none => simp [hf map hmap, hat, hg hat]
        | some x => simp [hf map hmap, hat]
      · simp [hf map hmap, hn, Ne.symm hn]
  · rw [if_neg hid, if_neg fun h => hid h.1]

/-- One map changes. -/
theorem rewrites_modifyMap {f : MapScope → MapScope} {g : List Thread → List Thread} (hg : g [] = [])
    (htick : m'.tick = m.tick) (hscopes : m'.scopes = m.scopes.modifyMap scope f)
    (hactive : ∀ map, (f map).active = map.active)
    (hnext : ∀ map, (f map).nextThreadId = map.nextThreadId)
    (hf : ∀ map, (f map).modules = map.modules.modify i fun x => { x with threads := g x.threads }) :
    m.Rewrites scope i g m' := by
  refine ⟨htick, ?_, fun s => ?_,
    threadsAt_modifyMap hscopes (fun _ => hg) fun map _ => hf map⟩
  · rw [hscopes]
    exact ScopeTree.shape_modifyMap fun map _ => hactive map
  · rw [Known, Known, hscopes, ScopeTree.map?_modifyMap]
    split
    · rename_i hid
      rw [hid]
      cases m.scopes.map? scope <;> simp [hnext]
    · rfl

section Rewrites

variable {g : List Thread → List Thread} {w : Word} {f : Thread → Thread}

/-- Another thread sits in one seat. -/
theorem Rewrites.sitter? (h : m.Rewrites scope i g m')
    (hg : g (m.threadsAt scope i) =
      (m.threadsAt scope i).modify ((m.threadsAt scope i).findIdx (·.id == w)) f)
    (hf : ∀ t, t.id = w → (f t).id = w) (s : Seat) :
    m'.sitter? s = if s = ⟨scope, i, w⟩ then (m.sitter? s).map f else m.sitter? s := by
  obtain ⟨id, n, k⟩ := s
  rw [Machine.sitter?, Machine.sitter?, h.threads]
  by_cases hplace : id = scope ∧ n = i
  · obtain ⟨rfl, rfl⟩ := hplace
    rw [if_pos ⟨rfl, rfl⟩, hg, find?_modify_findIdx hf]
    simp only [Seat.mk.injEq, true_and]
  · rw [if_neg hplace, if_neg]
    rintro ⟨⟩
    exact hplace ⟨rfl, rfl⟩

/-- Where threads that come into a seat have had their turn, a spent seat stays spent. -/
theorem Rewrites.spent (h : m.Rewrites scope i g m')
    (hg : ∀ s t, m'.sitter? s = some t →
      t.isPlaceholder = true ∨ t.lastTick = m.tick ∨ m.sitter? s = some t)
    (hs : m.Spent s) : m'.Spent s := by
  refine ⟨(h.known s).2 hs.1, fun t ht => ?_⟩
  rw [h.tick]
  rcases hg s t ht with hplace | hstamp | hold
  · exact .inl hplace
  · exact .inr hstamp
  · exact hs.2 t hold

end Rewrites

/-- A thread is taken out. -/
theorem rewrites_detach (m : Machine) (scope : ScopeId) (i : Nat) (k : List Thread → Nat) (w : Word) :
    m.Rewrites scope i (fun ts => ts.modify (k ts) fun _ => Thread.placeholder w)
      (m.detach scope i k w) :=
  rewrites_modifyMap (List.modify_nil ..) rfl rfl (fun _ => rfl) (fun _ => rfl) fun _ => rfl

/-- Taking a thread out puts a placeholder in its seat. -/
theorem Distinct.sitter?_detach (hm : m.Distinct) {k : List Thread → Nat}
    (hu : (m.threadsAt scope i)[k (m.threadsAt scope i)]? = some u) (s : Seat) :
    (m.detach scope i k u.id).sitter? s =
      if s = ⟨scope, i, u.id⟩ then (m.sitter? s).map fun _ => Thread.placeholder u.id else m.sitter? s :=
  (rewrites_detach m scope i k u.id).sitter? (w := u.id) (f := fun _ => .placeholder u.id)
    (by rw [hm.findIdx_eq hu]) (fun _ _ => rfl) s

/-- The seat of a thread that is out of the tree is spent. -/
theorem Ordered.spent_detach (hm : m.Ordered) {k : List Thread → Nat}
    (hu : (m.threadsAt scope i)[k (m.threadsAt scope i)]? = some u) :
    (m.detach scope i k u.id).Spent ⟨scope, i, u.id⟩ := by
  refine ⟨((rewrites_detach ..).known _).2 (hm.known (List.mem_of_getElem? hu)), fun t ht => .inl ?_⟩
  rw [hm.distinct.sitter?_detach hu, if_pos rfl] at ht
  obtain ⟨_, -, rfl⟩ := Option.map_eq_some_iff.1 ht
  rfl

/-- A thread is changed where it is. -/
theorem rewrites_modifyThreadAt (m : Machine) (scope : ScopeId) (i k : Nat) (f : Thread → Thread) :
    m.Rewrites scope i (·.modify k f) (m.modifyThreadAt scope i k f) :=
  rewrites_modifyMap (List.modify_nil ..) rfl rfl (fun _ => rfl) (fun _ => rfl) fun _ => rfl

/-- A thread is replaced by one with its id. -/
theorem Distinct.sitter?_modifyThreadAt {t : Thread} (hm : m.Distinct)
    (hu : (m.threadsAt scope i)[j]? = some u) (hid : t.id = u.id) (s : Seat) :
    (m.modifyThreadAt scope i j fun _ => t).sitter? s =
      if s = ⟨scope, i, u.id⟩ then some t else m.sitter? s := by
  rw [(rewrites_modifyThreadAt m scope i j fun _ => t).sitter? (w := u.id) (f := fun _ => t)
    (by rw [hm.findIdx_eq hu]) (fun _ _ => hid) s]
  split
  · rename_i hs
    rw [hs, hm.sitter? hu, Option.map_some]
  · rfl

/-- A thread is removed. -/
theorem rewrites_reap (hu : (m.threadsAt scope i)[j]? = some u) :
    m.Rewrites scope i (·.eraseIdx j) (m.reap scope i j) := by
  rw [getElem?_threadsAt] at hu
  have hslot : ∀ map : MapScope, (map.releaseSlot u).active = map.active ∧
      (map.releaseSlot u).nextThreadId = map.nextThreadId := by
    intro map
    unfold MapScope.releaseSlot
    split <;> exact ⟨rfl, rfl⟩
  refine rewrites_modifyMap rfl (evolves_reap ..).tick (reap_scopes hu) (fun map => (hslot _).1)
    (fun map => (hslot _).2) fun map => ?_
  rw [releaseSlot_modules]
  rfl

/-- Nobody sits in the seat of a thread that is removed. -/
theorem Distinct.sitter?_reap (hm : m.Distinct) (hu : (m.threadsAt scope i)[j]? = some u) (s : Seat) :
    (m.reap scope i j).sitter? s = if s = ⟨scope, i, u.id⟩ then none else m.sitter? s := by
  obtain ⟨id, n, k⟩ := s
  rw [Machine.sitter?, Machine.sitter?, (rewrites_reap hu).threads]
  by_cases hplace : id = scope ∧ n = i
  · obtain ⟨rfl, rfl⟩ := hplace
    rw [if_pos ⟨rfl, rfl⟩]
    simp only [Seat.mk.injEq, true_and]
    by_cases hk : k = u.id
    · subst hk
      rw [if_pos rfl]
      refine List.find?_eq_none.2 fun t ht hid => ?_
      obtain ⟨l, hl, hat⟩ := List.mem_eraseIdx_iff_getElem?.1 ht
      have hl' := hm.findIdx_eq hat
      rw [eq_of_beq hid, hm.findIdx_eq hu] at hl'
      exact hl hl'.symm
    · rw [if_neg hk]
      obtain ⟨hj, rfl⟩ := List.getElem?_eq_some_iff.1 hu
      rw [List.eraseIdx_eq_take_drop_succ, List.find?_append]
      conv_rhs => rw [← List.take_append_drop j (m.threadsAt id n), List.find?_append,
        List.drop_eq_getElem_cons hj, List.find?_cons]
      have hne : ((m.threadsAt id n)[j].id == k) = false := by simpa using Ne.symm hk
      simp only [hne]
  · rw [if_neg hplace, if_neg]
    rintro ⟨⟩
    exact hplace ⟨rfl, rfl⟩

/-- A thread that ran is put back, or the tree stays as it is. -/
theorem rewrites_reattach (m : Machine) (scope : ScopeId) (i : Nat) (u : Thread) : ∃ v f,
    Thread.Stays u v ∧ (f = (fun _ => v) ∨ f = id) ∧
      m.Rewrites scope i (fun ts => ts.modify (ts.findIdx (·.id == u.id)) f) (m.reattach scope i u) := by
  rcases reattach_cases m scope i u with ⟨-, -, -, v, -, -, -, -, hrestates, heq, -⟩ | ⟨-, hevolves, heq, -⟩
  · refine ⟨v, _, hrestates.stays, .inl rfl, ?_⟩
    rw [heq]
    exact rewrites_modifyMap (List.modify_nil ..) rfl rfl (fun _ => rfl) (fun _ => rfl) fun _ => rfl
  · refine ⟨u, _, .refl u, .inr rfl, hevolves.tick, by rw [heq], fun s => known_congr heq,
      fun id n => ?_⟩
    rw [threadsAt_congr heq]
    split
    · exact (List.modify_id ..).symm
    · rfl

/-- Putting a thread back leaves the ids alone. -/
theorem map_id_reattach (m : Machine) (scope : ScopeId) (i : Nat) (u : Thread) :
    ((m.reattach scope i u).threadsAt scope i).map (·.id) = (m.threadsAt scope i).map (·.id) := by
  obtain ⟨v, f, hstays, hf, h⟩ := rewrites_reattach m scope i u
  rw [h.threads, if_pos ⟨rfl, rfl⟩]
  rcases hf with rfl | rfl
  · refine map_id_modify fun t ht => ?_
    rw [← List.find?_eq_getElem?_findIdx] at ht
    have hid := List.find?_some ht
    rw [hstays.id]
    exact eq_of_beq hid
  · rw [List.modify_id]

/-- A spent seat stays spent when a thread that ran is put back. -/
theorem spent_reattach (hstamp : u.lastTick = m.tick) (hs : m.Spent s) :
    (m.reattach scope i u).Spent s := by
  obtain ⟨v, f, hstays, hf, h⟩ := rewrites_reattach m scope i u
  have hid : ∀ t, t.id = u.id → (f t).id = u.id := by
    intro t ht
    rcases hf with rfl | rfl
    · exact hstays.id
    · exact ht
  refine h.spent (fun s t ht => ?_) hs
  rw [h.sitter? rfl hid] at ht
  split at ht
  · obtain ⟨t₀, ht₀, rfl⟩ := Option.map_eq_some_iff.1 ht
    rcases hf with rfl | rfl
    · exact .inr (.inl (hstays.lastTick.trans hstamp))
    · exact .inr (.inr ht₀)
  · exact .inr (.inr ht)

end Machine

end ScriptMachine
