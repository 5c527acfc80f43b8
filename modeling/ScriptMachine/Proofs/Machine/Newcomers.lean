import ScriptMachine.Proofs.Machine.InnerTurns

/-!
# New threads in a tick

Threads that scripts start while a tick goes on are put behind those that their module scopes have.  A thread
whose script is started for its result has a turn at once, and it sits in the tree when the visit is over in
which that happens (`Underway.sits_of_entered`).  The scheduler visits a new thread in the same tick just if
it was started in a turn of a thread that sits before it (`Underway.comes_to`): then the tick has not come to
its seat yet.
-/

namespace ScriptMachine

open Machine

/-- Which maps the scheduler takes is known from the shape. -/
theorem ScopeTree.mapIds_eq_of_shape {s s' : ScopeTree} (h : s'.shape = s.shape) :
    s'.mapIds = s.mapIds := by
  have heq : ∀ s : ScopeTree, s.mapIds = s.shape.entries.flatMap fun p =>
      p.2.2.entries.flatMap fun q => q.2.2.keys.map fun m => ⟨p.1, q.1, m⟩ := by
    intro s
    simp only [mapIds, shape, OrdMap.entries_mapValues, List.flatMap_map, GlobalScope.shape,
      HubScope.shape, OrdMap.keys_mapValues]
  rw [heq, heq, h]

/-- No two maps are before each other. -/
theorem ScopeId.Before.asymm {a b : ScopeId} (h : a.Before b) : ¬ b.Before a := by
  intro h'
  simp only [Before, UInt32.lt_iff_toNat_lt, ← UInt32.toNat_inj] at h h'
  omega

/-- No two seats are before each other. -/
theorem Seat.Before.asymm {s s' : Seat} (h : s.Before s') : ¬ s'.Before s := by
  intro h'
  rcases h with hscope | ⟨heq, hrest⟩
  · rcases h' with hscope' | ⟨heq', -⟩
    · exact hscope.asymm hscope'
    · rw [heq'] at hscope
      exact hscope.asymm hscope
  · rcases h' with hscope' | ⟨-, hrest'⟩
    · rw [heq] at hscope'
      exact hscope'.asymm hscope'
    · simp only [UInt32.lt_iff_toNat_lt] at hrest hrest'
      omega

/-- A thread is started in the visit that sits in the seat when the visit is over. -/
def Visiting.Adds (fuel : Nat) (y : Visiting) (s : Seat) : Prop :=
  ¬ y.machine.Known s ∧ ∃ v b, y.run quietHost fuel = some (v, b) ∧ (b.sitter? s).isSome

namespace Machine

open Thread

variable {fuel k j : Nat} {count : Word} {x : LoadedModule} {m m' m'' n n₁ b : Machine} {t u u₁ : Thread}
  {s s₀ : Seat} {scope : ScopeId} {v : Visit} {y : Visiting} {xs ys : List Visiting} {P Q : Seat → Prop}

/-! ## Turns at once -/

/-- A thread that is entered within a turn has one of the turns within it. -/
theorem Comprises.exists_of_loopEntries (h : Comprises fuel m t k n u) (hmodule : u.module = some x)
    (hpasses : Passes quietHost n.settings.branchLimit x k 0 n u j count n₁ u₁)
    (hs : s ∈ loopEntries quietHost j n.settings.branchLimit count x n₁ u₁) :
    ∃ k' n' u', Comprises fuel m t k' n' u' ∧ u'.seat = s := by
  induction j generalizing k n u x count n₁ u₁ with
  | zero => cases hs
  | succ j ih =>
    unfold loopEntries at hs
    split at hs
    · cases hs
    · rename_i hgo
      simp only [Bool.or_eq_true, bne_iff_ne, not_or, ne_eq, not_not] at hgo
      split at hs
      · cases hs
      · rename_i hlimit
        have hmore : n.settings.branchLimit = 0 ∨ count < n.settings.branchLimit := by
          simpa [or_iff_not_imp_left] using hlimit
        split at hs
        · cases hs
        · rename_i op operands hfetch
          rcases List.mem_append.1 hs with hs | hs
          · -- the instruction starts a script for its result
            unfold stepEntries at hs
            split at hs
            · cases hs
            · rename_i name args hcall
              unfold startEntries at hs
              split at hs
              · cases hs
              · rename_i n₂ u₂ hstarted
                have hinner := h.inner ⟨hmodule, hpasses, hgo.1, hgo.2, hmore, hfetch⟩ hcall hstarted
                rcases List.mem_cons.1 hs with rfl | hs
                · exact ⟨_, _, _, hinner, rfl⟩
                · unfold turnEntriesWith at hs
                  split at hs
                  · cases hs
                  · rename_i x' hmodule'
                    exact ih hinner hmodule' .here hs
          · split at hs
            · rename_i n₂ u₂ hstep
              exact ih h hmodule (hpasses.snoc hgo.1 hgo.2 hmore hfetch hstep) hs
            · cases hs

/-- The threads that are entered when a thread is given a turn have the turns within it. -/
theorem exists_of_entered (hs : s ∈ entered (turnEntries quietHost fuel) m t) :
    ∃ k n u, Comprises fuel (m.noting t) t k n u ∧ u.seat = s := by
  rcases List.mem_cons.1 hs with rfl | hs
  · exact ⟨fuel, _, t, .self, rfl⟩
  · unfold turnEntries turnEntriesWith at hs
    split at hs
    · cases hs
    · rename_i x hmodule
      exact Comprises.self.exists_of_loopEntries hmodule .here hs

/-- **Threads that are entered** in a visit sit in the tree when it is over. -/
theorem Underway.sits_of_entered (hy : y.machine.Underway) (h : y.run quietHost fuel = some (v, b))
    (hfresh : ¬ b.Exhausted) (hs : s ∈ entries (y.marks quietHost fuel)) : (b.sitter? s).isSome := by
  cases hturn : y.turn? with
  | none =>
    rw [Visiting.entries_marks_of_none hturn] at hs
    cases hs
  | some p =>
    obtain ⟨u, -, hu, -⟩ := Visiting.exists_turn hturn
    rw [Visiting.entries_marks_of_some hu hturn] at hs
    obtain ⟨k, n, w, hcomprises, rfl⟩ := exists_of_entered hs
    obtain ⟨-, -, -, w', -, -, -, hw', -⟩ := hcomprises.back_visit hy hturn h hfresh
    exact Option.isSome_iff_exists.2 ⟨w', hw'⟩

/-! ## What lies ahead of a visit -/

/-- The visits are a round over a region, and from each of them on the rest are a round over what lies ahead
of it there. -/
structure Sweep (fuel : Nat) (P : Seat → Prop) (m : Machine) (xs : List Visiting) (m' : Machine) : Prop where
  round : m.Round P (xs.flatMap (Visiting.marks quietHost fuel)) m'
  ahead : ∀ {before y after v b s₀}, xs = before ++ y :: after → y.run quietHost fuel = some (v, b) →
    y.seat? = some s₀ →
    b.Round (fun s => P s ∧ s₀.Before s) (after.flatMap (Visiting.marks quietHost fuel)) m'

/-- A sweep of the same seats. -/
theorem Sweep.congr (h : Sweep fuel P m xs m') (hiff : ∀ s, P s ↔ Q s) : Sweep fuel Q m xs m' := by
  obtain rfl : P = Q := funext fun s => propext (hiff s)
  exact h

/-- Whoever is visited in a round belongs to it. -/
theorem Round.region {y : Visiting} (h : m.Round P (xs.flatMap (Visiting.marks quietHost fuel)) m')
    (hy : y ∈ xs) (hseat : y.seat? = some s) : P s := by
  refine h.within s ?_
  rw [visited_flatMap]
  exact List.mem_filterMap.2 ⟨y, hy, hseat⟩

/-- **Two parts**, the region of the second behind that of the first. -/
theorem Sweep.append (h : Sweep fuel P m xs m') (h' : Sweep fuel Q m' ys m'')
    (hbefore : ∀ s s', P s → Q s' → s.Before s') :
    Sweep fuel (fun s => P s ∨ Q s) m (xs ++ ys) m'' := by
  refine ⟨?_, fun {before y after v b s₀} hsplit hrun hseat => ?_⟩
  · rw [List.flatMap_append]
    exact h.round.append h'.round hbefore
  have hsecond : ∀ before', ys = before' ++ y :: after → b.Round (fun s => (P s ∨ Q s) ∧ s₀.Before s)
      (after.flatMap (Visiting.marks quietHost fuel)) m'' := by
    intro before' heq
    have hQ : Q s₀ := h'.round.region (heq ▸ List.mem_append_right _ List.mem_cons_self) hseat
    refine (h'.ahead heq hrun hseat).congr (fun s hs => ⟨.inr hs.1, hs.2⟩) fun s hs _ _ _ => ⟨?_, hs.2⟩
    exact hs.1.resolve_left fun hP => (hbefore s s₀ hP hQ).asymm hs.2
  rcases List.append_eq_append_iff.1 hsplit with ⟨before', -, heq⟩ | ⟨after', hxs, heq⟩
  · exact hsecond before' heq
  · cases after' with
    | nil => exact hsecond [] heq.symm
    | cons z after' =>
      rw [List.cons_append, List.cons.injEq] at heq
      obtain ⟨rfl, rfl⟩ := heq
      have hP : P s₀ := h.round.region (hxs ▸ List.mem_append_right _ List.mem_cons_self) hseat
      rw [List.flatMap_append]
      refine ((h.ahead hxs hrun hseat).append h'.round fun s s' hs hs' => hbefore s s' hs.1 hs').congr
        (fun s hs => ?_) fun s hs _ _ _ => ?_
      · exact hs.elim (fun hs => ⟨.inl hs.1, hs.2⟩) fun hs => ⟨.inr hs, hbefore s₀ s hP hs⟩
      · exact hs.1.imp (fun hs' => ⟨hs', hs.2⟩) id

/-- From the first visit to a thread of a module scope on, the walk goes through the threads behind it. -/
theorem ahead_first {i : Nat} (hm : m.Underway) (hactive : m.scopes.isActive scope = true)
    (hvisit : (⟨m, scope, i, j⟩ : Visiting).run quietHost fuel = some (v, b))
    (hseat : (⟨m, scope, i, j⟩ : Visiting).seat? = some s₀)
    (h : visitThreads (turn quietHost fuel) scope i k (if v = .removed then j else j + 1) b = some m')
    (hfresh : ¬ m'.Exhausted) : b.Round (fun s => (s.scope = scope ∧ s.moduleIndex = i) ∧ s₀.Before s)
      ((threadVisits quietHost fuel scope i k (if v = .removed then j else j + 1) b).flatMap
        (Visiting.marks quietHost fuel)) m' := by
  have hfirst : Walk quietHost fuel m [⟨m, scope, i, j⟩] b := .cons hvisit (.nil b)
  have hfresh₁ : ¬ b.Exhausted := fun he =>
    hfresh (he.mono ((walk_threads h).trace (hfirst.busy hm.executing)))
  have hb : b.Underway := hm.visit (x := ⟨m, scope, i, j⟩) hvisit hfresh₁
  have hactive₁ : b.scopes.isActive scope = true := by
    rw [ScopeTree.isActive_eq_of_shape (hfirst.bypasses hm hfresh₁).2.1]
    exact hactive
  obtain ⟨u, hu, rfl⟩ := Visiting.seat?_eq_some.1 hseat
  obtain ⟨-, hat⟩ := Visiting.thread?_eq_some.1 hu
  dsimp only at hat
  obtain ⟨-, hleaves⟩ := round_visit (obeys_quietHost Never) hm.executing hm.ordered hm.filled hat
    hactive hvisit hfresh₁
  have hid : ((m.threadsAt scope i).map (·.id))[j]? = some u.id := by
    rw [List.getElem?_map, hat]
    rfl
  have hlater := round_threads (obeys_quietHost Never) hb.executing hb.ordered hb.filled hactive₁
    (hleaves.split (hm.ordered.increasing_ids scope i) (hb.ordered.increasing_ids scope i) hid) h hfresh
  rw [threadMarks_eq] at hlater
  refine hlater.congr ?_ ?_
  · rintro ⟨_, _, w⟩ ⟨rfl, rfl, hlt⟩
    exact ⟨⟨rfl, rfl⟩, .inr ⟨rfl, .inr ⟨rfl, UInt32.lt_iff_toNat_lt.2 hlt⟩⟩⟩
  · rintro ⟨_, _, w⟩ ⟨⟨rfl, rfl⟩, hbefore⟩ - - -
    refine ⟨rfl, rfl, ?_⟩
    rcases hbefore with hscope | ⟨-, hindex | ⟨-, hid⟩⟩
    · exact absurd hscope hscope.asymm
    · exact absurd hindex (Nat.lt_irrefl _)
    · exact UInt32.lt_iff_toNat_lt.1 hid

/-- From any visit to a thread of a module scope on, the walk goes through the threads behind it. -/
theorem ahead_threads {i : Nat} {before after : List Visiting} (hm : m.Underway)
    (hactive : m.scopes.isActive scope = true)
    (h : visitThreads (turn quietHost fuel) scope i k j m = some m') (hfresh : ¬ m'.Exhausted)
    (hsplit : threadVisits quietHost fuel scope i k j m = before ++ y :: after)
    (hrun : y.run quietHost fuel = some (v, b)) (hseat : y.seat? = some s₀) :
    b.Round (fun s => (s.scope = scope ∧ s.moduleIndex = i) ∧ s₀.Before s)
      (after.flatMap (Visiting.marks quietHost fuel)) m' := by
  induction k generalizing j m before with
  | zero => cases h
  | succ k ih =>
    obtain ⟨v₁, m₁, hvisit, ⟨rfl, rfl, hvisits⟩ | ⟨-, hrest, hvisits⟩⟩ := threads_cases h
    · -- the only visit comes to no thread
      rw [hvisits] at hsplit
      obtain ⟨-, heq⟩ | ⟨-, heq⟩ := List.append_eq_singleton_iff.1 hsplit.symm <;> cases heq
      obtain ⟨u, hu, -⟩ := Visiting.seat?_eq_some.1 hseat
      have hat := (Visiting.thread?_eq_some.1 hu).2
      exact (round_visit (obeys_quietHost Never) hm.executing hm.ordered hm.filled hat hactive hvisit
        hfresh).2.elim
    rw [hvisits] at hsplit
    cases before with
    | nil =>
      obtain ⟨rfl, rfl⟩ := List.cons.inj hsplit
      obtain ⟨rfl, rfl⟩ : v₁ = v ∧ m₁ = b := by simpa using hvisit.symm.trans hrun
      exact ahead_first hm hactive hvisit hseat hrest hfresh
    | cons z before =>
      have hfirst : Walk quietHost fuel m [⟨m, scope, i, j⟩] m₁ := .cons hvisit (.nil m₁)
      have hfresh₁ : ¬ m₁.Exhausted := fun he =>
        hfresh (he.mono ((walk_threads hrest).trace (hfirst.busy hm.executing)))
      have hactive₁ : m₁.scopes.isActive scope = true := by
        rw [ScopeTree.isActive_eq_of_shape (hfirst.bypasses hm hfresh₁).2.1]
        exact hactive
      exact ih (hm.visit (x := ⟨m, scope, i, j⟩) hvisit hfresh₁) hactive₁ hrest (List.cons.inj hsplit).2

/-- The visits to the threads of a module scope sweep it. -/
theorem sweep_threads {i : Nat} (hm : m.Underway) (hactive : m.scopes.isActive scope = true)
    (h : visitThreads (turn quietHost fuel) scope i k 0 m = some m') (hfresh : ¬ m'.Exhausted) :
    Sweep fuel (fun s => s.scope = scope ∧ s.moduleIndex = i) m
      (threadVisits quietHost fuel scope i k 0 m) m' := by
  refine ⟨?_, fun hsplit hrun hseat => ahead_threads hm hactive h hfresh hsplit hrun hseat⟩
  have hround := round_threads (b := 0) (obeys_quietHost Never) hm.executing hm.ordered hm.filled hactive
    (fun k w _ => by simp) h hfresh
  rw [threadMarks_eq] at hround
  exact hround.congr (fun s hs => ⟨hs.1, hs.2.1⟩) fun s hs _ _ _ => ⟨hs.1, hs.2, Nat.zero_le _⟩

/-- The visits to the module scopes of a map sweep them. -/
theorem sweep_modules {i : Nat} (hm : m.Underway) (hactive : m.scopes.isActive scope = true)
    (h : visitModules (turn quietHost fuel) scope k i m = some m') (hfresh : ¬ m'.Exhausted) :
    Sweep fuel (fun s => s.scope = scope ∧ i ≤ s.moduleIndex) m
      (moduleVisits quietHost fuel scope k i m) m' := by
  induction k generalizing i m with
  | zero => cases h
  | succ k ih =>
    obtain ⟨-, hvisits⟩ | ⟨b, hthreads, hrest, hvisits⟩ := modules_cases h
    · have hround := round_modules (obeys_quietHost Never) hm.executing hm.ordered hm.filled hactive h hfresh
      rw [moduleMarks_eq, hvisits] at hround
      rw [hvisits]
      refine ⟨hround, ?_⟩
      rintro (_ | _) _ _ _ _ _ ⟨⟩
    · have hwalk := walk_threads hthreads
      have hfresh₁ : ¬ b.Exhausted := fun he =>
        hfresh (he.mono ((walk_modules hrest).trace (hwalk.busy hm.executing)))
      have hactive₁ : b.scopes.isActive scope = true := by
        rw [ScopeTree.isActive_eq_of_shape (hwalk.bypasses hm hfresh₁).2.1]
        exact hactive
      have hfirst := sweep_threads hm hactive hthreads hfresh₁
      rw [hvisits]
      refine (hfirst.append (ih (hwalk.underway hm hfresh₁) hactive₁ hrest) ?_).congr fun s => ?_
      · rintro ⟨_, _, w⟩ ⟨_, l, x⟩ ⟨rfl, rfl⟩ ⟨rfl, hl⟩
        exact .inr ⟨rfl, .inl hl⟩
      · rw [← and_or_left]
        exact and_congr_right fun _ => by omega

/-- The visits to the active maps sweep them. -/
theorem sweep_maps {scopes : List ScopeId} (hscopes : scopes.Pairwise ScopeId.Before) (hm : m.Underway)
    (h : visitMaps (turn quietHost fuel) fuel scopes m = some m') (hfresh : ¬ m'.Exhausted) :
    Sweep fuel (fun s => s.scope ∈ scopes ∧ m.scopes.isActive s.scope = true) m
      (mapVisits quietHost fuel scopes m) m' := by
  induction scopes generalizing m with
  | nil =>
    cases h
    refine ⟨.nil rfl rfl fun s hs => absurd hs.1 List.not_mem_nil, ?_⟩
    rintro (_ | _) _ _ _ _ _ ⟨⟩
  | cons scope rest ih =>
    obtain ⟨hfirst, hlater⟩ := List.pairwise_cons.1 hscopes
    obtain ⟨hactive, hrest, hvisits⟩ | ⟨hactive, b, hmodules, hrest, hvisits⟩ := maps_cases h
    · rw [hvisits]
      refine (ih hlater hm hrest).congr fun s => ?_
      rw [List.mem_cons]
      constructor
      · exact fun hs => ⟨.inr hs.1, hs.2⟩
      · rintro ⟨rfl | hs, hon⟩
        · exact absurd hon hactive
        · exact ⟨hs, hon⟩
    · have hwalk := walk_modules hmodules
      have hfresh₁ : ¬ b.Exhausted := fun he =>
        hfresh (he.mono ((walk_maps hrest).trace (hwalk.busy hm.executing)))
      have hshape := (hwalk.bypasses hm hfresh₁).2.1
      have hsweep := sweep_modules hm hactive hmodules hfresh₁
      rw [hvisits]
      refine (hsweep.append (ih hlater (hwalk.underway hm hfresh₁) hrest) ?_).congr fun s => ?_
      · rintro s s' ⟨rfl, -⟩ hs'
        exact .inl (hfirst _ hs'.1)
      · rw [ScopeTree.isActive_eq_of_shape hshape, List.mem_cons]
        constructor
        · rintro (⟨rfl, -⟩ | ⟨hs, hon⟩)
          · exact ⟨.inl rfl, hactive⟩
          · exact ⟨.inr hs, hon⟩
        · rintro ⟨heq | hs, hon⟩
          · exact .inl ⟨heq, Nat.zero_le _⟩
          · exact .inr ⟨hs, hon⟩

/-! ## Which new threads a tick comes to -/

/-- Ids are given out in turns only. -/
theorem known_of_no_turn (hturn : y.turn? = none) (hrun : y.run quietHost fuel = some (v, b)) (s : Seat) :
    b.Known s ↔ y.machine.Known s := by
  cases hu : y.thread? with
  | none =>
    rcases visit_cases hrun with ⟨-, rfl, -⟩ | ⟨u, hat, hactive, -⟩
    · rfl
    · rw [← getElem?_threadsAt] at hat
      cases hu.symm.trans (Visiting.thread?_eq_some.2 ⟨hactive, hat⟩)
  | some u =>
    obtain ⟨-, hat⟩ := Visiting.thread?_eq_some.1 hu
    rcases Visiting.run_cases hu hrun with ⟨-, rfl, -⟩ | ⟨-, ⟨-, -, hscopes, -⟩ | ⟨-, -, m₀, -, hscopes,
      ⟨-, -, rfl⟩ | ⟨-, hsome⟩⟩⟩
    · exact (rewrites_reap hat).known s
    · exact known_congr hscopes
    · exact ((rewrites_modifyThreadAt ..).known s).trans (known_congr hscopes)
    · cases hsome.symm.trans hturn

/-- **A thread that is visited** sat there when the walk began, or it was started in the turn that an
earlier visit gave. -/
theorem Walk.newcomers (h : Walk quietHost fuel m xs m') (hm : m.Underway) (hfresh : ¬ m'.Exhausted)
    (hy : y ∈ xs) (hseat : y.seat? = some s) : (m.sitter? s).isSome ∨ ¬ m.Known s ∧
      ∃ z p, [z, y].Sublist xs ∧ z.turn? = some p ∧ z.seat? = some p.2.seat ∧ z.Adds fuel s := by
  refine (h.along (R := fun m xs _ => ∀ y ∈ xs, y.seat? = some s → (m.sitter? s).isSome ∨ ¬ m.Known s ∧
    ∃ z p, [z, y].Sublist xs ∧ z.turn? = some p ∧ z.seat? = some p.2.seat ∧ z.Adds fuel s) hm hfresh
    (fun _ => nofun) ?_).2 y hy hseat
  intro z v b xs m' hz hrun hfresh₁ ih y hy hseat
  have hround := round_run hz hrun hfresh₁
  rcases List.mem_cons.1 hy with rfl | hy
  · obtain ⟨u, -, hsit, -⟩ := sitter?_of_seat? hz hseat
    exact .inl (Option.isSome_iff_exists.2 ⟨u, hsit⟩)
  rcases ih y hy hseat with hsits | ⟨hnew, z', p, hsub, hturn, hown, hadds⟩
  · by_cases hknown : z.machine.Known s
    · -- the thread was there before
      left
      by_cases hmem : s ∈ visited (z.marks quietHost fuel)
      · rw [Visiting.visited_marks, Option.mem_toList] at hmem
        obtain ⟨u, -, hsit, -⟩ := sitter?_of_seat? hz hmem
        exact Option.isSome_iff_exists.2 ⟨u, hsit⟩
      · have hrel := hround.stay s hknown hmem
        generalize z.machine.sitter? s = p, b.sitter? s = q at hrel hsits
        cases hrel with
        | some _ => rfl
        | none => exact hsits
    · obtain ⟨u, hsit⟩ := Option.isSome_iff_exists.1 hsits
      obtain ⟨p, hturn⟩ : ∃ p, z.turn? = some p := by
        refine Option.ne_none_iff_exists'.1 fun hnone => hknown ?_
        exact (known_of_no_turn hnone hrun s).1 ((hz.visit hrun hfresh₁).ordered.known_of_sitter? hsit)
      exact .inr ⟨hknown, z, p, (List.singleton_sublist.2 hy).cons_cons z, hturn, (hz.begun_turn hturn).2.2,
        hknown, v, b, hrun, hsits⟩
  · exact .inr ⟨fun hknown => hnew (hround.known s hknown), z', p, hsub.cons z, hturn, hown, hadds⟩

/-- In a turn of the tick a thread is started into the seat, at a place that the tick has not come to. -/
def StartedAhead (fuel : Nat) (m : Machine) (s : Seat) : Prop :=
  m.scopes.isActive s.scope = true ∧ ∃ y ∈ m.tickVisits quietHost fuel, ∃ p, y.turn? = some p ∧
    p.2.seat.Before s ∧ y.Adds fuel s

/-- **A tick comes to a new thread** just if it was started ahead of the place where the tick was. -/
theorem Underway.comes_to (hm : m.begun.Underway)
    (h : visitMaps (turn quietHost fuel) fuel m.scopes.mapIds m.begun = some m') (hfresh : ¬ m'.Exhausted) :
    m.StartedAhead fuel s ↔ ¬ m.Known s ∧ ∃ y ∈ m.tickVisits quietHost fuel, y.seat? = some s := by
  have hwalk : Walk quietHost fuel m.begun (m.tickVisits quietHost fuel) m' := walk_maps h
  have hsweep : Sweep fuel (fun s => s.scope ∈ m.scopes.mapIds ∧ m.scopes.isActive s.scope = true) m.begun
      (m.tickVisits quietHost fuel) m' := sweep_maps m.scopes.pairwise_mapIds hm h hfresh
  constructor
  · rintro ⟨hactive, y, hy, p, hturn, hbefore, hnew, v, b, hrun, hsits⟩
    obtain ⟨before, after, hsplit⟩ := List.append_of_mem hy
    rw [hsplit] at hwalk
    obtain ⟨v', b', hfirst, hunder, hfreshy, hrun', hb, -, hlast⟩ := hwalk.exists_visit hm hfresh
    cases hrun.symm.trans hrun'
    refine ⟨fun hknown => hnew (hfirst.known hm hfreshy hknown), ?_⟩
    have hahead := hsweep.ahead hsplit hrun (hunder.begun_turn hturn).2.2
    obtain ⟨u, hsit⟩ := Option.isSome_iff_exists.1 hsits
    have hknown := hb.ordered.known_of_sitter? hsit
    have hshape : b.scopes.shape = m.scopes.shape := hahead.shape.symm.trans hsweep.round.shape
    have hmem : s ∈ visited (after.flatMap (Visiting.marks quietHost fuel)) := by
      refine hahead.covers s ⟨⟨?_, hactive⟩, hbefore⟩ hknown ?_ hsits
      · obtain ⟨map, hmap, -⟩ := id hknown
        rw [← ScopeTree.mapIds_eq_of_shape hshape]
        exact ScopeTree.mem_mapIds hmap
      · rw [ScopeTree.isActive_eq_of_shape hshape]
        exact hactive
    rw [visited_flatMap] at hmem
    obtain ⟨x, hx, hseat⟩ := List.mem_filterMap.1 hmem
    exact ⟨x, hsplit ▸ List.mem_append_right _ (List.mem_cons_of_mem _ hx), hseat⟩
  · rintro ⟨hnew, y, hy, hseat⟩
    have hactive := (hsweep.round.region hy hseat).2
    rcases hwalk.newcomers hm hfresh hy hseat with hsits | ⟨-, z, p, hsub, hturn, hown, hadds⟩
    · obtain ⟨u, hsit⟩ := Option.isSome_iff_exists.1 hsits
      exact absurd (hm.ordered.known_of_sitter? hsit) hnew
    · refine ⟨hactive, z, hsub.subset List.mem_cons_self, p, hturn, ?_, hadds⟩
      -- visits are in order
      have hsorted := hsweep.round.sorted
      rw [visited_flatMap] at hsorted
      have hpair := hsorted.sublist (hsub.filterMap Visiting.seat?)
      rw [List.filterMap_cons_some hown, List.filterMap_cons_some hseat] at hpair
      exact (List.pairwise_cons.1 hpair).1 s List.mem_cons_self

end Machine

end ScriptMachine
