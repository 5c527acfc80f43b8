import ScriptMachine.Proofs.Machine.Entries
import ScriptMachine.Proofs.Machine.Managed

/-!
# Every thread has its visit

`tickMarks` notes what the scheduler does in a tick: which threads it visits, and which of them and of
those they start are entered.  A part of a tick that is to visit the seats of a region is a
`Machine.Round`: it visits the threads that sit there, in order, and no others; a thread that is not
visited stays where it is; none is entered that has been entered before in the tick; and of a delay at
most one is taken.  A visit is such a part, and parts for regions that follow each other make up one
(`Round.append`), so a whole tick is a round over all active maps (`round_exec`).
-/

namespace ScriptMachine

/-- The order of addresses: by global scope, then by hub, then by map. -/
def ScopeId.Before (a b : ScopeId) : Prop :=
  a.global < b.global ∨ a.global = b.global ∧ (a.hub < b.hub ∨ a.hub = b.hub ∧ a.map < b.map)

/-- The order of seats: by address, then by the number of the module, then by the id, which is the order
of creation. -/
def Seat.Before (s s' : Seat) : Prop :=
  s.scope.Before s'.scope ∨ s.scope = s'.scope ∧
    (s.moduleIndex < s'.moduleIndex ∨ s.moduleIndex = s'.moduleIndex ∧ s.id < s'.id)

/-- No seat comes before itself. -/
theorem Seat.not_before_self (s : Seat) : ¬ s.Before s := by
  rintro ((h | ⟨-, h | ⟨-, h⟩⟩) | ⟨-, h | ⟨-, h⟩⟩)
  · exact UInt32.lt_irrefl _ h
  · exact UInt32.lt_irrefl _ h
  · exact UInt32.lt_irrefl _ h
  · exact Nat.lt_irrefl _ h
  · exact UInt32.lt_irrefl _ h

/-- The scheduler takes the maps in the order of their addresses. -/
theorem ScopeTree.pairwise_mapIds (s : ScopeTree) : s.mapIds.Pairwise ScopeId.Before := by
  have hkeys : ∀ {α : Type} (x : OrdMap Word α), x.entries.Pairwise fun p q => p.1 < q.1 := by
    intro α x
    exact x.sorted.imp fun h => Std.compare_eq_lt.1 h
  refine List.pairwise_flatMap.2 ⟨fun p _ => ?_, (hkeys s.globals).imp fun {p q} hlt x hx y hy => ?_⟩
  · refine List.pairwise_flatMap.2 ⟨fun q _ => ?_, (hkeys p.2.hubs).imp fun {q q'} hlt x hx y hy => ?_⟩
    · refine List.pairwise_map.2 (List.pairwise_map.2 ((hkeys q.2.maps).imp fun hlt => ?_))
      exact .inr ⟨rfl, .inr ⟨rfl, hlt⟩⟩
    · obtain ⟨a, -, rfl⟩ := List.mem_map.1 hx
      obtain ⟨b, -, rfl⟩ := List.mem_map.1 hy
      exact .inr ⟨rfl, .inl hlt⟩
  · obtain ⟨q, -, hx⟩ := List.mem_flatMap.1 hx
    obtain ⟨q', -, hy⟩ := List.mem_flatMap.1 hy
    obtain ⟨a, -, rfl⟩ := List.mem_map.1 hx
    obtain ⟨b, -, rfl⟩ := List.mem_map.1 hy
    exact .inl hlt

/-- All maps are taken. -/
theorem ScopeTree.mem_mapIds {s : ScopeTree} {id : ScopeId} {map : MapScope}
    (h : s.map? id = some map) : id ∈ s.mapIds := by
  obtain ⟨global, hub, hglobal, hhub, hmap⟩ := exists_of_map? h
  refine List.mem_flatMap.2 ⟨(id.global, global), OrdMap.mem_entries.2 hglobal, ?_⟩
  refine List.mem_flatMap.2 ⟨(id.hub, hub), OrdMap.mem_entries.2 hhub, ?_⟩
  refine List.mem_map.2 ⟨id.map, OrdMap.mem_keys.2 ?_, rfl⟩
  rw [hmap]
  rfl

/-- What is noted of a tick. -/
inductive Mark where
  /-- The scheduler visits a thread. -/
  | visit (s : Seat)
  /-- A thread begins to run. -/
  | enter (s : Seat)

/-- The seats that are visited, in order. -/
def visited (marks : List Mark) : List Seat :=
  marks.filterMap fun
    | .visit s => some s
    | .enter _ => none

/-- The seats whose threads are entered, in order. -/
def entries (marks : List Mark) : List Seat :=
  marks.filterMap fun
    | .visit _ => none
    | .enter s => some s

/-- Who is visited in two stretches. -/
theorem visited_append (ms ms' : List Mark) : visited (ms ++ ms') = visited ms ++ visited ms' :=
  List.filterMap_append ..

/-- Who is entered in two stretches. -/
theorem entries_append (ms ms' : List Mark) : entries (ms ++ ms') = entries ms ++ entries ms' :=
  List.filterMap_append ..

/-- Threads that are entered are not visited thereby. -/
theorem visited_enters (es : List Seat) : visited (es.map .enter) = [] := by
  simp [visited, List.filterMap_map]

/-- Threads that are entered, each once. -/
theorem entries_enters (es : List Seat) : entries (es.map .enter) = es := by
  simp [entries, List.filterMap_map]

namespace Machine

open Thread

/-! ## What is noted of a tick -/

/-- What is noted of a visit. -/
def visitMarks (host : Host) (fuel : Nat) (m : Machine) (scope : ScopeId) (i j : Nat) : List Mark :=
  if !m.scopes.isActive scope then []
  else
    match (m.threadsAt scope i)[j]? with
    | none => []
    | some u =>
      .visit ⟨scope, i, u.id⟩ ::
        match m.visitedTurn? scope i j with
        | none => []
        | some (m, t) => (entered (turnEntries host fuel) m t).map .enter

/-- What is noted of the visits to the threads of a module scope from a place on. -/
def threadMarks (host : Host) (fuel : Nat) (scope : ScopeId) (i : Nat) :
    (n j : Nat) → Machine → List Mark
  | 0, _, _ => []
  | n + 1, j, m =>
    m.visitMarks host fuel scope i j ++
      match m.visit (turn host fuel) scope i j with
      | some (.removed, m) => threadMarks host fuel scope i n j m
      | some (.next, m) => threadMarks host fuel scope i n (j + 1) m
      | _ => []

/-- What is noted of the visits to the module scopes of a map from a number on. -/
def moduleMarks (host : Host) (fuel : Nat) (scope : ScopeId) : (n i : Nat) → Machine → List Mark
  | 0, _, _ => []
  | n + 1, i, m =>
    match m.scopes.map? scope with
    | none => []
    | some map =>
      if i < map.modules.length then
        threadMarks host fuel scope i n 0 m ++
          match visitThreads (turn host fuel) scope i n 0 m with
          | none => []
          | some m => moduleMarks host fuel scope n (i + 1) m
      else []

/-- What is noted of the visits to maps. -/
def mapMarks (host : Host) (fuel : Nat) : List ScopeId → Machine → List Mark
  | [], _ => []
  | scope :: rest, m =>
    if m.scopes.isActive scope then
      moduleMarks host fuel scope fuel 0 m ++
        match visitModules (turn host fuel) scope fuel 0 m with
        | none => []
        | some m => mapMarks host fuel rest m
    else mapMarks host fuel rest m

/-- What is noted of a tick that begins at rest. -/
def tickMarks (host : Host) (fuel : Nat) (m : Machine) : List Mark :=
  mapMarks host fuel m.scopes.mapIds { m with executing := true, tick := m.tick + 1 }

/-! ## Parts of a tick -/

/-- A part of a tick in which the scheduler visits the region `P` of seats. -/
structure Round (P : Seat → Prop) (m : Machine) (ms : List Mark) (m' : Machine) : Prop where
  tick : m'.tick = m.tick
  shape : m'.scopes.shape = m.scopes.shape
  known : ∀ s, m.Known s → m'.Known s
  /-- Visits are in order. -/
  sorted : (visited ms).Pairwise Seat.Before
  /-- Only threads of the region are visited. -/
  within : ∀ s ∈ visited ms, P s
  /-- All threads of the region are visited. -/
  covers : ∀ s, P s → m.Known s → m.scopes.isActive s.scope = true → (m.sitter? s).isSome →
    s ∈ visited ms
  /-- Threads that are not visited stay. -/
  stay : ∀ s, m.Known s → s ∉ visited ms → Option.Rel Thread.Restates (m.sitter? s) (m'.sitter? s)
  nodup : (entries ms).Nodup
  /-- A thread is entered only if it has not been entered in this tick. -/
  fresh : ∀ s ∈ entries ms, ¬ m.Spent s
  spent : ∀ s, s ∈ entries ms ∨ m.Spent s → m'.Spent s
  /-- A thread that was there is entered when it is visited, and its delay is over. -/
  due : ∀ s ∈ entries ms, m.Known s → s ∈ visited ms ∧ ∀ u, m.sitter? s = some u → u.delay ≤ 1
  /-- Of the delay of a thread that is not entered at most one is taken. -/
  lowered : ∀ s, m.Known s → s ∉ entries ms → ∀ u u', m.sitter? s = some u → m'.sitter? s = some u' →
    u'.delay = u.delay ∨ u'.delay = u.delay - min u.delay 1

variable {P Q : Seat → Prop} {m m' m'' : Machine} {ms ms' : List Mark}

/-- Nothing is done for a region that is empty. -/
theorem Round.nil (htick : m'.tick = m.tick) (hscopes : m'.scopes = m.scopes)
    (h : ∀ s, P s → m.Known s → m.scopes.isActive s.scope = true → m.sitter? s = none) :
    m.Round P [] m' := by
  have hwidens : m.Widens m' := .of_scopes htick hscopes
  refine ⟨htick, hwidens.shape, fun s => hwidens.known, .nil, nofun, fun s hP hs hon hsit => ?_,
    fun s hs _ => hwidens.sitter? hs, .nil, nofun, fun s hs => ?_, nofun, fun s hs _ u u' hu hu' => ?_⟩
  · rw [h s hP hs hon] at hsit
    cases hsit
  · exact hwidens.spent (hs.resolve_left nofun)
  · rw [Machine.sitter?, threadsAt_congr hscopes] at hu'
    cases hu.symm.trans hu'
    exact .inl rfl

/-- The region may be given in another way. -/
theorem Round.congr (h : m.Round P ms m') (hsub : ∀ s, P s → Q s)
    (hcover : ∀ s, Q s → m.Known s → m.scopes.isActive s.scope = true → (m.sitter? s).isSome → P s) :
    m.Round Q ms m' :=
  { h with
    within := fun s hs => hsub s (h.within s hs)
    covers := fun s hQ hs hon hsit => h.covers s (hcover s hQ hs hon hsit) hs hon hsit }

/-- A thread that is not visited keeps its delay. -/
theorem Round.exists_of_stay {s : Seat} {u : Thread} (h : m.Round P ms m') (hs : m.Known s)
    (hnot : s ∉ visited ms) (hu : m.sitter? s = some u) :
    ∃ u', m'.sitter? s = some u' ∧ u'.delay = u.delay := by
  have hrel := h.stay s hs hnot
  rw [hu] at hrel
  generalize m'.sitter? s = b at hrel
  cases hrel with
  | some hr => exact ⟨_, rfl, hr.delay_eq⟩

/-- Where no thread was visited, a thread that is there was there with its delay. -/
theorem Round.exists_before_stay {s : Seat} {u' : Thread} (h : m.Round P ms m') (hs : m.Known s)
    (hnot : s ∉ visited ms) (hu' : m'.sitter? s = some u') :
    ∃ u, m.sitter? s = some u ∧ u'.delay = u.delay := by
  have hrel := h.stay s hs hnot
  rw [hu'] at hrel
  generalize m.sitter? s = a at hrel
  cases hrel with
  | some hr => exact ⟨_, rfl, hr.delay_eq⟩

/-- **Two parts**, the region of the second behind that of the first. -/
theorem Round.append (h : m.Round P ms m') (h' : m'.Round Q ms' m'')
    (hbefore : ∀ s s', P s → Q s' → s.Before s') :
    m.Round (fun s => P s ∨ Q s) (ms ++ ms') m'' := by
  have hapart : ∀ s ∈ visited ms, s ∉ visited ms' := fun s hs hs' =>
    s.not_before_self (hbefore s s (h.within s hs) (h'.within s hs'))
  refine ⟨h'.tick.trans h.tick, h'.shape.trans h.shape, fun s hs => h'.known s (h.known s hs), ?_,
    fun s hs => ?_, fun s hP hs hon hsit => ?_, fun s hs hnot => ?_, ?_, fun s hs => ?_, fun s hs => ?_,
    fun s hs hknown => ?_, fun s hs hnot u u'' hu hu'' => ?_⟩
  all_goals simp only [visited_append, entries_append, List.mem_append, not_or] at *
  · exact List.pairwise_append.2 ⟨h.sorted, h'.sorted, fun s hs s' hs' =>
      hbefore s s' (h.within s hs) (h'.within s' hs')⟩
  · exact hs.imp (h.within s) (h'.within s)
  · by_cases hmem : s ∈ visited ms
    · exact .inl hmem
    · obtain ⟨u, hu⟩ := Option.isSome_iff_exists.1 hsit
      obtain ⟨u', hu', -⟩ := h.exists_of_stay hs hmem hu
      have hQ := hP.resolve_left fun hP => hmem (h.covers s hP hs hon hsit)
      refine .inr (h'.covers s hQ (h.known s hs) ?_ (Option.isSome_of_eq_some hu'))
      rw [ScopeTree.isActive_eq_of_shape h.shape]
      exact hon
  · have hrel := h.stay s hs hnot.1
    have hrel' := h'.stay s (h.known s hs) hnot.2
    generalize m.sitter? s = a, m'.sitter? s = b, m''.sitter? s = c at hrel hrel'
    cases hrel with
    | none => exact hrel'
    | some hr =>
      cases hrel' with
      | some hr' => exact .some (hr.trans hr')
  · refine List.nodup_append.2 ⟨h.nodup, h'.nodup, fun s hs s' hs' => ?_⟩
    rintro rfl
    exact h'.fresh s hs' (h.spent s (.inl hs))
  · rcases hs with hs | hs
    · exact h.fresh s hs
    · exact fun hspent => h'.fresh s hs (h.spent s (.inr hspent))
  · rcases hs with (hs | hs) | hs
    · exact h'.spent s (.inr (h.spent s (.inl hs)))
    · exact h'.spent s (.inl hs)
    · exact h'.spent s (.inr (h.spent s (.inr hs)))
  · rcases hs with hs | hs
    · exact ⟨.inl (h.due s hs hknown).1, (h.due s hs hknown).2⟩
    · obtain ⟨hmem, hdelay⟩ := h'.due s hs (h.known s hknown)
      refine ⟨.inr hmem, fun u hu => ?_⟩
      obtain ⟨u', hu', heq⟩ := h.exists_of_stay hknown (fun hmem' => hapart s hmem' hmem) hu
      exact heq ▸ hdelay u' hu'
  · by_cases hmem : s ∈ visited ms
    · -- the thread was visited in the first part, and stays in the second
      obtain ⟨u', hu', heq⟩ := h'.exists_before_stay (h.known s hs) (hapart s hmem) hu''
      rw [heq]
      exact h.lowered s hs hnot.1 u u' hu hu'
    · obtain ⟨u', hu', heq⟩ := h.exists_of_stay hs hmem hu
      rw [← heq]
      exact h'.lowered s (h.known s hs) hnot.2 u' u'' hu' hu''

/-- What leaves the tree as it is may come before. -/
theorem Round.after (htick : m'.tick = m.tick) (hscopes : m'.scopes = m.scopes)
    (h : m'.Round P ms m'') : m.Round P ms m'' :=
  ((Round.nil (P := fun _ => False) htick hscopes nofun).append h nofun).congr
    (fun _ hs => hs.resolve_left id) fun _ hs _ _ _ => .inr hs

/-- A thread is visited that is not entered. -/
theorem Round.visit {s₀ : Seat} (htick : m'.tick = m.tick) (hshape : m'.scopes.shape = m.scopes.shape)
    (hknown : ∀ s, m'.Known s ↔ m.Known s) (hother : ∀ s, s ≠ s₀ → m'.sitter? s = m.sitter? s)
    (hown : ∀ u', m'.sitter? s₀ = some u' → ∃ u, m.sitter? s₀ = some u ∧
      (u' = u ∨ u'.lastTick = m.tick ∧ u'.delay = u.delay - min u.delay 1)) :
    m.Round (· = s₀) [.visit s₀] m' := by
  refine ⟨htick, hshape, fun s => (hknown s).2, List.pairwise_singleton .., fun s hs => ?_,
    fun s hs _ _ _ => ?_, fun s hs hnot => ?_, .nil, nofun, fun s hs => ?_, nofun,
    fun s hs _ u u' hu hu' => ?_⟩
  · exact List.mem_singleton.1 hs
  · exact List.mem_singleton.2 hs
  · rw [hother s fun heq => hnot (List.mem_singleton.2 heq)]
    cases m.sitter? s with
    | none => exact .none
    | some u => exact .some (.refl u)
  · obtain ⟨hs, hspent⟩ := hs.resolve_left nofun
    refine ⟨(hknown s).2 hs, fun u' hu' => ?_⟩
    rw [htick]
    by_cases heq : s = s₀
    · subst heq
      obtain ⟨u, hu, rfl | ⟨hstamp, -⟩⟩ := hown u' hu'
      · exact hspent u' hu
      · exact .inr hstamp
    · exact hspent u' (hother s heq ▸ hu')
  · by_cases heq : s = s₀
    · subst heq
      obtain ⟨u₀, hu₀, hcases⟩ := hown u' hu'
      cases hu.symm.trans hu₀
      rcases hcases with rfl | ⟨-, hdelay⟩
      · exact .inl rfl
      · exact .inr hdelay
    · rw [hother s heq, hu] at hu'
      cases hu'
      exact .inl rfl

/-- A delay that is lowered to 0 was at most 1. -/
theorem le_one_of_lowered {w : Word} (h : ¬ 0 < w - min w 1) : w ≤ 1 := by
  by_cases hw : w ≤ 1
  · exact hw
  · refine absurd ?_ h
    have hmin : min w 1 = 1 := if_neg hw
    have hlt : 1 < w.toNat := by simpa [UInt32.le_iff_toNat_le] using hw
    rw [hmin, UInt32.lt_iff_toNat_lt, UInt32.toNat_sub_of_le _ _ (UInt32.le_of_lt (UInt32.not_le.1 hw))]
    simp
    omega

section Turn

variable {scope : ScopeId} {i j : Nat} {u u' : Thread} (hordered : m.Ordered)
  (hu : (m.threadsAt scope i)[j]? = some u)
  (hwidens : (m.detach scope i (fun _ => j) u.id).Widens m')
include hordered hu hwidens

/-- The other threads stay while one has its turn. -/
theorem Widens.stay_of_turn (hid : u'.id = u.id) {s : Seat} (hs : m.Known s) (hne : s ≠ ⟨scope, i, u.id⟩) :
    Option.Rel Thread.Restates (m.sitter? s) ((m'.reattach scope i u').sitter? s) := by
  obtain ⟨v, f, hstays, hf, hback⟩ := rewrites_reattach m' scope i u'
  have hsitB := hback.sitter? rfl (by
    intro t ht
    rcases hf with rfl | rfl
    · exact hstays.id
    · exact ht)
  have hrel := hwidens.sitter? (((rewrites_detach m scope i (fun _ => j) u.id).known s).2 hs)
  rw [hordered.distinct.sitter?_detach hu, if_neg hne] at hrel
  rw [hsitB, hid, if_neg hne]
  exact hrel

/-- What was entered before a turn counts as entered after it. -/
theorem Widens.spent_of_turn (hstamp : u'.lastTick = m'.tick) {s : Seat} (hs : m.Spent s) :
    (m'.reattach scope i u').Spent s := by
  refine spent_reattach hstamp (hwidens.spent ?_)
  refine (rewrites_detach m scope i (fun _ => j) u.id).spent (fun s t ht => ?_) hs
  rw [hordered.distinct.sitter?_detach hu] at ht
  split at ht
  · obtain ⟨_, -, rfl⟩ := Option.map_eq_some_iff.1 ht
    exact .inl rfl
  · exact .inr (.inr ht)

end Turn

section Host

variable {host : Host} (hhost : host.Obeys Never) {fuel : Nat} {scope : ScopeId} {i j : Nat} {u : Thread}
include hhost

/-- A thread is visited and has its turn. -/
theorem round_turn {u' : Thread} (hm : m.executing = true) (hordered : m.Ordered) (hfilled : m.Filled)
    (hu : (m.threadsAt scope i)[j]? = some u) (hstamp : u.lastTick ≠ m.tick)
    (hdelay : ¬ 0 < (u.awake m.tick).delay)
    (hrun : runDetached (turn host fuel) (m.detach scope i (fun _ => j) u.id) (u.awake m.tick) =
      some (m', u')) (hfresh : ¬ (m'.reattach scope i u').Exhausted) :
    m.Round (· = ⟨scope, i, u.id⟩)
      (.visit ⟨scope, i, u.id⟩ :: (entered (turnEntries host fuel) (m.detach scope i (fun _ => j) u.id)
        (u.awake m.tick)).map .enter) (m'.reattach scope i u') := by
  have hplace := getElem?_threadsAt ▸ hu
  have hreal := hfilled.real hplace
  obtain ⟨map, x, -, hx, -, hat⟩ := exists_place hplace
  have hfresh' : ¬ m'.Exhausted := fun he => hfresh (he.mono (trace_reattach ..))
  have hdetached := hordered.detach (j := fun _ => j) hx hat
  have hsit := hordered.distinct.sitter? hu
  have hdetach := rewrites_detach m scope i (fun _ => j) u.id
  have hbusy : (m.detach scope i (fun _ => j) u.id).executing = true := hm
  have hacts : Acts Never _ _ _ _ := acts_runDetached (acts_turn hhost tame_never) hbusy hrun
  obtain ⟨-, hwidens, hproceeds⟩ := hacts.orderly hdetached hfresh'
  have henters := enters_runDetached (enters_turn hhost) hbusy hrun hdetached hfresh'
  have hstamp' : u'.lastTick = m'.tick := hproceeds.lastTick.trans hwidens.tick.symm
  obtain ⟨v, f, -, -, hback⟩ := rewrites_reattach m' scope i u'
  obtain ⟨hnodup, hspent⟩ :=
    henters.reattach scope i (hordered.spent_detach (k := fun _ => j) hu) hstamp'
  have hseat : u.seat = ⟨scope, i, u.id⟩ := hordered.seat_eq (List.mem_of_getElem? hu) hreal
  have hentered : entered (turnEntries host fuel) (m.detach scope i (fun _ => j) u.id)
      (u.awake m.tick) = ⟨scope, i, u.id⟩ :: (entered (turnEntries host fuel)
        (m.detach scope i (fun _ => j) u.id) (u.awake m.tick)).tail := congrArg (· :: _) hseat
  rw [hentered]
  generalize (entered (turnEntries host fuel) (m.detach scope i (fun _ => j) u.id)
    (u.awake m.tick)).tail = es at henters hnodup hspent ⊢
  have hunknown : ∀ s ∈ es, ¬ m.Known s := fun s hs hknown =>
    henters.unknown s hs ((hdetach.known s).2 hknown)
  have hvisited : visited (.visit ⟨scope, i, u.id⟩ :: (⟨scope, i, u.id⟩ :: es).map Mark.enter) =
      [⟨scope, i, u.id⟩] := congrArg _ (visited_enters _)
  have hentries : entries (.visit ⟨scope, i, u.id⟩ :: (⟨scope, i, u.id⟩ :: es).map Mark.enter) =
      ⟨scope, i, u.id⟩ :: es := entries_enters _
  refine ⟨hback.tick.trans hwidens.tick, hback.shape.trans (hwidens.shape.trans hdetach.shape),
    fun s hs => (hback.known s).2 (hwidens.known ((hdetach.known s).2 hs)), ?_, ?_, ?_, ?_, ?_, ?_, ?_, ?_, ?_⟩
  all_goals simp only [hvisited, hentries]
  · exact List.pairwise_singleton ..
  · exact fun s hs => List.mem_singleton.1 hs
  · exact fun s hs _ _ _ => List.mem_singleton.2 hs
  · exact fun s hs hnot =>
      hwidens.stay_of_turn hordered hu hproceeds.same.id hs fun heq => hnot (List.mem_singleton.2 heq)
  · exact hnodup
  · rintro s hs ⟨hknown, hown⟩
    rcases List.mem_cons.1 hs with rfl | hs
    · rcases hown u hsit with hplace | heq
      · exact absurd (hreal.symm.trans hplace) (by decide)
      · exact hstamp heq
    · exact hunknown s hs hknown
  · rintro s (hs | hs)
    · exact hspent s hs
    · exact hwidens.spent_of_turn hordered hu hstamp' hs
  · intro s hs hknown
    rcases List.mem_cons.1 hs with rfl | hs
    · refine ⟨List.mem_singleton.2 rfl, fun u₁ hu₁ => ?_⟩
      cases hsit.symm.trans hu₁
      exact le_one_of_lowered hdelay
    · exact absurd hknown (hunknown s hs)
  · intro s hs hnot u₁ u₂ hu₁ hu₂
    have hrel := hwidens.stay_of_turn hordered hu hproceeds.same.id hs fun heq =>
      hnot (heq ▸ List.mem_cons_self)
    rw [hu₁, hu₂] at hrel
    cases hrel with
    | some hr => exact .inl hr.delay_eq

/-- What a visit does to the ids in the list that is walked. -/
def Visit.Leaves (j : Nat) (ids ids' : List Word) : Visit → Prop
  | .removed => ids' = ids.eraseIdx j
  | .next => ids <+: ids'
  | .finished => False

/-- **A visit** to a thread. -/
theorem round_visit {v : Visit} (hm : m.executing = true) (hordered : m.Ordered) (hfilled : m.Filled)
    (hu : (m.threadsAt scope i)[j]? = some u) (hactive : m.scopes.isActive scope = true)
    (h : m.visit (turn host fuel) scope i j = some (v, m')) (hfresh : ¬ m'.Exhausted) :
    m.Round (· = ⟨scope, i, u.id⟩) (m.visitMarks host fuel scope i j) m' ∧
      v.Leaves j ((m.threadsAt scope i).map (·.id)) ((m'.threadsAt scope i).map (·.id)) := by
  have hmarks : m.visitMarks host fuel scope i j = .visit ⟨scope, i, u.id⟩ ::
      match m.visitedTurn? scope i j with
      | none => []
      | some (m, t) => (entered (turnEntries host fuel) m t).map .enter := by
    simp only [visitMarks, hactive, Bool.not_true, Bool.false_eq_true, if_false, hu]
  have hplace := getElem?_threadsAt ▸ hu
  obtain ⟨-, -, hnone⟩ | ⟨u₀, hu₀, -, ⟨-, rfl, rfl, hturn⟩ | ⟨-, rfl, m₀, hworks, hscopes, hrest⟩⟩ :=
    visit_cases h
  · rw [hnone hactive] at hplace
    cases hplace
  · -- the thread is removed
    cases hplace.symm.trans hu₀
    rw [hmarks, hturn]
    have hreap := rewrites_reap hu
    refine ⟨.visit hreap.tick hreap.shape hreap.known (fun s hs => ?_) fun u' hu' => ?_, ?_⟩
    · rw [hordered.distinct.sitter?_reap hu, if_neg hs]
    · rw [hordered.distinct.sitter?_reap hu, if_pos rfl] at hu'
      cases hu'
    · rw [Visit.Leaves, hreap.threads, if_pos ⟨rfl, rfl⟩, List.eraseIdx_map]
  · cases hplace.symm.trans hu₀
    rw [hmarks]
    have htick := hworks.stirs.evolves.tick
    have hsame := threadsAt_congr hscopes
    have hordered₀ := hordered.of_scopes hscopes
    rw [← hsame] at hu ⊢
    rcases hrest with ⟨rfl, hturn⟩ | ⟨-, hstamp, hdelay, rfl, hturn⟩ |
      ⟨-, hstamp, hdelay, hturn, m₂, u', hrun, rfl⟩
    · rw [hturn]
      refine ⟨.after htick hscopes (.visit rfl rfl (fun _ => Iff.rfl) (fun _ _ => rfl) fun u' hu' =>
        ⟨u', hu', .inl rfl⟩), List.prefix_refl _⟩
    · -- the delay is lowered
      rw [hturn]
      have hwait := rewrites_modifyThreadAt m₀ scope i j fun _ => u.awake m₀.tick
      have hsit := hordered₀.distinct.sitter?_modifyThreadAt hu (t := u.awake m₀.tick) rfl
      refine ⟨.after htick hscopes (.visit hwait.tick hwait.shape hwait.known (fun s hs => ?_)
        fun u' hu' => ?_), ?_⟩
      · rw [hsit, if_neg hs]
      · rw [hsit, if_pos rfl] at hu'
        cases hu'
        exact ⟨u, hordered₀.distinct.sitter? hu, .inr ⟨rfl, rfl⟩⟩
      · have hids : ((m₀.threadsAt scope i).modify j fun _ => u.awake m₀.tick).map (·.id) =
            (m₀.threadsAt scope i).map (·.id) := map_id_modify fun t ht => by
          cases hu.symm.trans ht
          rfl
        rw [Visit.Leaves, hwait.threads, if_pos ⟨rfl, rfl⟩]
        simp only [hids, List.prefix_refl]
    · rw [hturn]
      have hbusy := hworks.stirs.executing.trans hm
      have hfilled₀ : m₀.Filled := fun id map hmap => hfilled id map (hscopes ▸ hmap)
      refine ⟨.after htick hscopes (round_turn hhost hbusy hordered₀ hfilled₀ hu hstamp hdelay hrun hfresh), ?_⟩
      have hfresh₂ : ¬ m₂.Exhausted := fun he => hfresh (he.mono (trace_reattach ..))
      obtain ⟨map, x, -, hx, -, hat⟩ := exists_place (getElem?_threadsAt ▸ hu)
      have hdetached := hordered₀.detach (j := fun _ => j) hx hat
      have hacts : Acts Never (m₀.detach scope i (fun _ => j) u.id) (u.awake m₀.tick) m₂ u' :=
        acts_runDetached (acts_turn hhost tame_never) hbusy hrun
      have hprefix := (hacts.orderly hdetached hfresh₂).2.1.prefix_ids scope i
      rw [(rewrites_detach ..).threads, if_pos ⟨rfl, rfl⟩, map_id_modify fun t ht => by
        cases hu.symm.trans ht
        rfl] at hprefix
      rw [Visit.Leaves, map_id_reattach]
      exact hprefix

/-! ## Walks -/

omit hhost in
/-- In a list of growing ids, places and ids are in the same order. -/
theorem lt_iff_of_increasing {ids : List Word} (hids : ids.Pairwise (· < ·)) {k l : Nat} {w x : Word}
    (hw : ids[k]? = some w) (hx : ids[l]? = some x) : k < l ↔ w.toNat < x.toNat := by
  obtain ⟨hk, rfl⟩ := List.getElem?_eq_some_iff.1 hw
  obtain ⟨hl, rfl⟩ := List.getElem?_eq_some_iff.1 hx
  have hmono := List.pairwise_iff_getElem.1 hids
  rcases Nat.lt_trichotomy k l with hkl | rfl | hkl
  · exact iff_of_true hkl (UInt32.lt_iff_toNat_lt.1 (hmono k l hk hl hkl))
  · simp
  · have := UInt32.lt_iff_toNat_lt.1 (hmono l k hl hk hkl)
    omega

omit hhost in
/-- After a visit to the thread with id `w`, the ids up to `w` are behind the walk. -/
theorem Visit.Leaves.split {ids ids' : List Word} {v : Visit} {w : Word} (h : v.Leaves j ids ids')
    (hids : ids.Pairwise (· < ·)) (hids' : ids'.Pairwise (· < ·)) (hw : ids[j]? = some w) (k : Nat)
    (x : Word) (hx : ids'[k]? = some x) :
    k < (if v = .removed then j else j + 1) ↔ x.toNat < w.toNat + 1 := by
  cases v with
  | finished => exact h.elim
  | removed =>
    rw [if_pos rfl]
    rw [show ids' = ids.eraseIdx j from h, List.getElem?_eraseIdx] at hx
    split at hx
    · have := lt_iff_of_increasing hids hx hw
      omega
    · have := lt_iff_of_increasing hids hw hx
      omega
  | next =>
    rw [if_neg (by decide)]
    have hw' : ids'[j]? = some w := by
      obtain ⟨rest, hrest⟩ : ids <+: ids' := h
      rw [← hrest, List.getElem?_append_left (List.getElem?_eq_some_iff.1 hw).1]
      exact hw
    have := lt_iff_of_increasing hids' hw' hx
    omega

omit hhost in
/-- A walk that has come to the end of the threads has nobody left to visit. -/
theorem round_past_threads {b : Nat} (hu : (m.threadsAt scope i)[j]? = none)
    (hsplit : ∀ (k : Nat) w, ((m.threadsAt scope i).map (·.id))[k]? = some w → (k < j ↔ w.toNat < b)) :
    m.Round (fun s => s.scope = scope ∧ s.moduleIndex = i ∧ b ≤ s.id.toNat) [] m := by
  refine .nil rfl rfl ?_
  rintro ⟨_, _, w⟩ ⟨rfl, rfl, hb⟩ - -
  refine Option.not_isSome_iff_eq_none.1 fun hsit => ?_
  obtain ⟨k, hk⟩ := exists_index hsit
  have hlt := (List.getElem?_eq_some_iff.1 hk).1
  have hlen := List.getElem?_eq_none_iff.1 hu
  have := hsplit k w hk
  rw [List.length_map] at hlt
  dsimp only at hb
  omega

omit hhost in
/-- The thread at the place of a walk is visited, and then those with larger ids. -/
theorem Round.thread_cons {b : Nat} (hordered : m.Ordered) (hu : (m.threadsAt scope i)[j]? = some u)
    (hsplit : ∀ (k : Nat) w, ((m.threadsAt scope i).map (·.id))[k]? = some w → (k < j ↔ w.toNat < b))
    (h : m.Round (· = ⟨scope, i, u.id⟩) ms m')
    (h' : m'.Round (fun s => s.scope = scope ∧ s.moduleIndex = i ∧ u.id.toNat + 1 ≤ s.id.toNat) ms' m'') :
    m.Round (fun s => s.scope = scope ∧ s.moduleIndex = i ∧ b ≤ s.id.toNat) (ms ++ ms') m'' := by
  have hid : ((m.threadsAt scope i).map (·.id))[j]? = some u.id := by
    rw [List.getElem?_map, hu]
    rfl
  refine (h.append h' ?_).congr ?_ ?_
  · rintro _ ⟨_, _, w⟩ rfl ⟨rfl, rfl, hlt⟩
    exact .inr ⟨rfl, .inr ⟨rfl, UInt32.lt_iff_toNat_lt.2 hlt⟩⟩
  · have := hsplit j u.id hid
    rintro s (rfl | ⟨hscope, hi, hlt⟩)
    · exact ⟨rfl, rfl, by dsimp only; omega⟩
    · exact ⟨hscope, hi, by omega⟩
  · rintro ⟨_, _, w⟩ ⟨rfl, rfl, hb⟩ - - hsit
    obtain ⟨k, hk⟩ := exists_index hsit
    have hkj := hsplit k w hk
    rcases Nat.lt_trichotomy k j with hlt | rfl | hlt
    · dsimp only at hb
      omega
    · cases hk.symm.trans hid
      exact .inl rfl
    · have := (lt_iff_of_increasing (hordered.increasing_ids _ _) hid hk).1 hlt
      exact .inr ⟨rfl, rfl, this⟩

/-- **The walk through the threads of a module** from a place on: the ids before the place are those
below `b`. -/
theorem round_threads {n b : Nat} (hm : m.executing = true) (hordered : m.Ordered) (hfilled : m.Filled)
    (hactive : m.scopes.isActive scope = true)
    (hsplit : ∀ (k : Nat) w, ((m.threadsAt scope i).map (·.id))[k]? = some w → (k < j ↔ w.toNat < b))
    (h : visitThreads (turn host fuel) scope i n j m = some m') (hfresh : ¬ m'.Exhausted) :
    m.Round (fun s => s.scope = scope ∧ s.moduleIndex = i ∧ b ≤ s.id.toNat)
      (threadMarks host fuel scope i n j m) m' := by
  induction n generalizing j b m with
  | zero => cases h
  | succ n ih =>
    unfold threadMarks
    unfold visitThreads at h
    cases hvisit : m.visit (turn host fuel) scope i j with
    | none =>
      rw [hvisit] at h
      cases h
    | some p =>
      obtain ⟨v, m₁⟩ := p
      rw [hvisit] at h
      cases hu : (m.threadsAt scope i)[j]? with
      | none =>
        rcases visit_cases hvisit with ⟨rfl, rfl, -⟩ | ⟨u, hu', -⟩
        · cases h
          have hnil : visitMarks host fuel m' scope i j = [] := by simp [visitMarks, hu]
          rw [hnil]
          exact round_past_threads hu hsplit
        · rw [← getElem?_threadsAt, hu] at hu'
          cases hu'
      | some u =>
        have hticks : Ticks Never m m₁ := ticks_visit (acts_turn hhost tame_never) hm hvisit
        have hbusy := (hticks.executing tame_never).trans hm
        have hgo : visitThreads (turn host fuel) scope i n (if v = .removed then j else j + 1) m₁ =
            some m' → m.Round (fun s => s.scope = scope ∧ s.moduleIndex = i ∧ b ≤ s.id.toNat)
              (m.visitMarks host fuel scope i j ++
                threadMarks host fuel scope i n (if v = .removed then j else j + 1) m₁) m' := by
          intro hrest
          have hticks' : Ticks Never m₁ m' :=
            ticks_visitThreads tame_never (acts_turn hhost tame_never) hbusy hrest
          have hfresh₁ : ¬ m₁.Exhausted := fun he => hfresh (he.mono hticks'.trace)
          obtain ⟨hordered₁, hfilled₁⟩ := hticks.orderly hordered hfilled hfresh₁
          obtain ⟨hround, hleaves⟩ :=
            round_visit hhost hm hordered hfilled hu hactive hvisit hfresh₁
          have hactive₁ := (ScopeTree.isActive_eq_of_shape hround.shape scope).trans hactive
          have hid : ((m.threadsAt scope i).map (·.id))[j]? = some u.id := by
            rw [List.getElem?_map, hu]
            rfl
          exact hround.thread_cons hordered hu hsplit (ih hbusy hordered₁ hfilled₁ hactive₁
            (hleaves.split (hordered.increasing_ids scope i) (hordered₁.increasing_ids scope i) hid) hrest)
        cases v with
        | finished =>
          rcases visit_cases hvisit with ⟨-, rfl, hnone⟩ | ⟨u', -, -, ⟨-, hv, -⟩ | ⟨-, hv, -⟩⟩
          · rw [← getElem?_threadsAt, hu] at hnone
            cases hnone hactive
          · cases hv
          · cases hv
        | removed => exact hgo h
        | next => exact hgo h

omit hhost in
/-- A walk that has come to the end of the modules has nobody left to visit. -/
theorem round_past_modules {map : MapScope} (hmap : m.scopes.map? scope = some map)
    (hlen : map.modules.length ≤ i) : m.Round (fun s => s.scope = scope ∧ i ≤ s.moduleIndex) [] m := by
  refine .nil rfl rfl ?_
  rintro s ⟨hscope, hl⟩ - -
  have hnone : m.threadsAt s.scope s.moduleIndex = [] := by
    rw [threadsAt, ScopeTree.module?_eq, hscope, hmap, Option.bind_some,
      List.getElem?_eq_none_iff.2 (Nat.le_trans hlen hl)]
    rfl
  rw [Machine.sitter?, hnone]
  rfl

/-- **The walk through the modules of a map** from a number on. -/
theorem round_modules {n : Nat} (hm : m.executing = true) (hordered : m.Ordered) (hfilled : m.Filled)
    (hactive : m.scopes.isActive scope = true)
    (h : visitModules (turn host fuel) scope n i m = some m') (hfresh : ¬ m'.Exhausted) :
    m.Round (fun s => s.scope = scope ∧ i ≤ s.moduleIndex) (moduleMarks host fuel scope n i m) m' := by
  induction n generalizing i m with
  | zero => cases h
  | succ n ih =>
    unfold moduleMarks
    unfold visitModules at h
    cases hmap : m.scopes.map? scope with
    | none =>
      rw [hmap] at h
      cases h
      refine .nil rfl rfl ?_
      rintro s ⟨rfl, -⟩ ⟨map, hmap', -⟩
      cases hmap.symm.trans hmap'
    | some map =>
      simp only [hmap] at h ⊢
      split at h
      · rename_i hlt
        rw [if_pos hlt]
        cases hthreads : visitThreads (turn host fuel) scope i n 0 m with
        | none =>
          rw [hthreads] at h
          cases h
        | some m₁ =>
          rw [hthreads] at h
          have hticks : Ticks Never m m₁ :=
            ticks_visitThreads tame_never (acts_turn hhost tame_never) hm hthreads
          have hbusy := (hticks.executing tame_never).trans hm
          have hticks' : Ticks Never m₁ m' :=
            ticks_visitModules tame_never (acts_turn hhost tame_never) hbusy h
          have hfresh₁ : ¬ m₁.Exhausted := fun he => hfresh (he.mono hticks'.trace)
          obtain ⟨hordered₁, hfilled₁⟩ := hticks.orderly hordered hfilled hfresh₁
          have hround := round_threads (b := 0) hhost hm hordered hfilled hactive
            (fun k w _ => by simp) hthreads hfresh₁
          have hactive₁ := (ScopeTree.isActive_eq_of_shape hround.shape scope).trans hactive
          refine (hround.append (ih hbusy hordered₁ hfilled₁ hactive₁ h) ?_).congr ?_ ?_
          · rintro ⟨_, _, w⟩ ⟨_, l, x⟩ ⟨rfl, rfl, -⟩ ⟨rfl, hl⟩
            exact .inr ⟨rfl, .inl hl⟩
          · rintro ⟨_, _, w⟩ (⟨rfl, rfl, -⟩ | ⟨rfl, hl⟩)
            · exact ⟨rfl, Nat.le_refl _⟩
            · exact ⟨rfl, Nat.le_of_succ_le hl⟩
          · rintro ⟨_, l, w⟩ ⟨rfl, hl⟩ - - -
            rcases Nat.eq_or_lt_of_le hl with rfl | hl
            · exact .inl ⟨rfl, rfl, Nat.zero_le _⟩
            · exact .inr ⟨rfl, hl⟩
      · rename_i hlt
        rw [if_neg hlt]
        cases h
        exact round_past_modules hmap (Nat.le_of_not_lt hlt)

/-- **The walk through maps.** -/
theorem round_maps {scopes : List ScopeId} (hscopes : scopes.Pairwise ScopeId.Before)
    (hm : m.executing = true) (hordered : m.Ordered) (hfilled : m.Filled)
    (h : visitMaps (turn host fuel) fuel scopes m = some m') (hfresh : ¬ m'.Exhausted) :
    m.Round (·.scope ∈ scopes) (mapMarks host fuel scopes m) m' := by
  induction scopes generalizing m with
  | nil =>
    cases h
    exact .nil rfl rfl nofun
  | cons scope rest ih =>
    obtain ⟨hfirst, hrest⟩ := List.pairwise_cons.1 hscopes
    unfold mapMarks
    unfold visitMaps at h
    split at h
    · rename_i hactive
      rw [if_pos hactive]
      cases hmodules : visitModules (turn host fuel) scope fuel 0 m with
      | none =>
        rw [hmodules] at h
        cases h
      | some m₁ =>
        rw [hmodules] at h
        have hticks : Ticks Never m m₁ :=
          ticks_visitModules tame_never (acts_turn hhost tame_never) hm hmodules
        have hbusy := (hticks.executing tame_never).trans hm
        have hticks' : Ticks Never m₁ m' :=
          ticks_visitMaps tame_never (acts_turn hhost tame_never) hbusy h
        have hfresh₁ : ¬ m₁.Exhausted := fun he => hfresh (he.mono hticks'.trace)
        obtain ⟨hordered₁, hfilled₁⟩ := hticks.orderly hordered hfilled hfresh₁
        have hround := round_modules hhost hm hordered hfilled hactive hmodules hfresh₁
        refine (hround.append (ih hrest hbusy hordered₁ hfilled₁ h) ?_).congr ?_ ?_
        · rintro s s' ⟨rfl, -⟩ hs'
          exact .inl (hfirst _ hs')
        · rintro s (⟨rfl, -⟩ | hs)
          · exact List.mem_cons_self
          · exact List.mem_cons_of_mem _ hs
        · rintro s hs - - -
          rcases List.mem_cons.1 hs with heq | hs
          · exact .inl ⟨heq, Nat.zero_le _⟩
          · exact .inr hs
    · rename_i hactive
      rw [if_neg hactive]
      refine (ih hrest hm hordered hfilled h).congr (fun s hs => List.mem_cons_of_mem _ hs) ?_
      rintro s hs - hon -
      rcases List.mem_cons.1 hs with rfl | hs
      · exact absurd hon hactive
      · exact hs

end Host

/-! ## Ticks -/

/-- **A tick is a round.**  Where scripts call built-in functions only, and no map gives away its last
thread id, a tick that begins at rest visits every thread of every active map once, in the order of the
seats.  No thread is entered twice, neither by the scheduler nor by a start for a result.  A thread
that is entered had a delay of at most 1 left, and from the delay of any other at most 1 is taken. -/
theorem Managed.exec_round {fuel : Nat} (h : Managed m)
    (hrest : m.executing = false) (hexec : ∀ host, m.exec host fuel = some m')
    (hfresh : ¬ m'.Exhausted) :
    (visited (m.tickMarks quietHost fuel)).Pairwise Seat.Before ∧
      (∀ scope i, ∀ t ∈ m.threadsAt scope i, m.scopes.isActive scope = true →
        (visited (m.tickMarks quietHost fuel)).count ⟨scope, i, t.id⟩ = 1) ∧
      (entries (m.tickMarks quietHost fuel)).Nodup ∧
      (∀ scope i, ∀ t ∈ m.threadsAt scope i, ⟨scope, i, t.id⟩ ∈ entries (m.tickMarks quietHost fuel) →
        t.delay ≤ 1) ∧
      ∀ scope i, ∀ t ∈ m.threadsAt scope i, ⟨scope, i, t.id⟩ ∉ entries (m.tickMarks quietHost fuel) →
        ∀ t' ∈ m'.threadsAt scope i, t'.id = t.id →
          t'.delay = t.delay ∨ t'.delay = t.delay - min t.delay 1 := by
  obtain ⟨m₁, hmaps, hend⟩ : ∃ m₁, visitMaps (turn quietHost fuel) fuel m.scopes.mapIds
      { m with executing := true, tick := m.tick + 1 } = some m₁ ∧
      { m₁ with executing := false } = m' := by
    have hran := hexec quietHost
    rw [Machine.exec, execWith, if_neg (by simp [hrest])] at hran
    exact Option.map_eq_some_iff.1 hran
  have hticks : Ticks Never { m with executing := true, tick := m.tick + 1 } m₁ :=
    ticks_visitMaps tame_never (acts_turn (obeys_quietHost Never) tame_never) rfl hmaps
  have hfresh₁ : ¬ m₁.Exhausted := fun he => hfresh (hend ▸ he)
  have hfresh₀ : ¬ m.Exhausted := fun he => hfresh₁ (he.mono hticks.trace)
  have hordered := h.ordered hfresh₀
  have hround := round_maps (m := { m with executing := true, tick := m.tick + 1 })
    (obeys_quietHost Never) m.scopes.pairwise_mapIds rfl (hordered.of_scopes rfl) (h.filled hfresh₀)
    hmaps hfresh₁
  have hsits : ∀ {m : Machine}, m.Ordered → ∀ {scope i}, ∀ t ∈ m.threadsAt scope i,
      m.sitter? ⟨scope, i, t.id⟩ = some t := by
    intro m hm scope i t ht
    obtain ⟨j, hj⟩ := List.getElem?_of_mem ht
    exact hm.distinct.sitter? hj
  refine ⟨hround.sorted, fun scope i t ht hactive => ?_, hround.nodup, fun scope i t ht hentered => ?_,
    fun scope i t ht hnot t' ht' hid => ?_⟩
  · refine List.count_eq_one_of_mem (hround.sorted.imp fun hlt heq => ?_) ?_
    · exact Seat.not_before_self _ (heq ▸ hlt)
    · obtain ⟨map, -, hmap, -⟩ := exists_threadsAt ht
      refine hround.covers _ (ScopeTree.mem_mapIds hmap) (hordered.known ht) hactive ?_
      rw [Option.isSome_iff_exists]
      exact ⟨t, hsits hordered t ht⟩
  · exact (hround.due _ hentered (hordered.known ht)).2 t (hsits hordered t ht)
  · have hordered' := (h.exec hexec).ordered hfresh
    have hsit' := hsits hordered' t' ht'
    rw [hid] at hsit'
    subst hend
    exact hround.lowered _ (hordered.known ht) hnot t t' (hsits hordered t ht) hsit'

/-- The thread of the small program is visited and entered once. -/
theorem Managed.exec_round_started : Managed startedMachine ∧
    (∀ host, startedMachine.exec host 9 = some sleepingMachine) ∧
    (visited (startedMachine.tickMarks quietHost 9)).count ⟨{}, 0, 1⟩ = 1 ∧
    entries (startedMachine.tickMarks quietHost 9) = [⟨{}, 0, 1⟩] := by
  obtain ⟨hrest, hlast, hids, hactive, hentries⟩ : startedMachine.executing = false ∧
      (∀ e ∈ sleepingMachine.trace, logEnd? e ≠ some '5') ∧
      (startedMachine.threadsAt {} 0).map (·.id) = [1] ∧
      startedMachine.scopes.isActive {} = true ∧
      entries (startedMachine.tickMarks quietHost 9) = [⟨{}, 0, 1⟩] := by decide +kernel
  have hfresh : ¬ sleepingMachine.Exhausted := not_exhausted_of_logEnd? hlast
  obtain ⟨t, ht, hid⟩ : ∃ t ∈ startedMachine.threadsAt {} 0, t.id = 1 := by
    refine List.mem_map.1 ?_
    rw [hids]
    exact List.mem_singleton_self _
  have hvisits := (Managed.exec_round managed_startedMachine hrest exec_startedMachine hfresh).2.1
    {} 0 t ht hactive
  rw [hid] at hvisits
  exact ⟨managed_startedMachine, exec_startedMachine, hvisits, hentries⟩

end Machine

end ScriptMachine
