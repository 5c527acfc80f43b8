import ScriptMachine.Proofs.Machine.Seats
import ScriptMachine.Proofs.Machine.Unaided

/-!
# Which threads are entered

A thread that has its turn may start scripts for their results, and each of these has a turn at once.
`turnEntries` lists the seats of all threads that are entered so, one instruction after another.
Every one of them is taken by a new thread and spent afterwards (`Machine.Enters`), so none of them is
entered twice (`enters_turn`).
-/

namespace ScriptMachine.Machine

open Thread

/-! ## Which threads are entered in a turn -/

/-- The threads that are entered when a thread is given a turn: the thread itself, and those entered
within the turn. -/
def entered (inner : Machine → Thread → List Seat) (m : Machine) (t : Thread) : List Seat :=
  t.seat :: inner { m with running := (t.module.map (·.serial)).toList ++ m.running } t

/-- The threads that are entered in a start for a result. -/
def startEntries (inner : Machine → Thread → List Seat) (m : Machine) (scope : ScopeId)
    (name : ScriptName) (args : List Word) (info : ThreadInfo) : List Seat :=
  match m.startedTurn? scope name args info with
  | none => []
  | some (m, t) => entered inner m t

/-- The threads that are entered in an instruction. -/
def stepEntries (inner : Machine → Thread → List Seat) (op : Opcode) (operands : List Word) (m : Machine)
    (t : Thread) : List Seat :=
  match resultCall? op operands m t with
  | none => []
  | some (name, args) => m.startEntries inner t.scope name args t.info

/-- The threads that are entered within a turn, with a way to know those of the instructions. -/
def turnEntriesWith (loop : Word → Word → LoadedModule → Machine → Thread → List Seat) (m : Machine)
    (t : Thread) : List Seat :=
  match t.module with
  | none => []
  | some module => loop m.settings.branchLimit 0 module m t

/-- The threads that are entered within a turn, in the order of the instructions that do so.  Host
functions are not looked into. -/
def loopEntries (host : Host) :
    (fuel : Nat) → (limit count : Word) → LoadedModule → Machine → Thread → List Seat
  | 0, _, _, _, _, _ => []
  | fuel + 1, limit, count, module, m, t =>
    if t.state != .running || t.delay != 0 then []
    else if limit != 0 && limit ≤ count then []
    else
      match fetchAt module.code t.codePtr with
      | .error _ => []
      | .ok (op, operands) =>
        let turn := turnWith (loop host fuel)
        let t := { t with codePtr := t.codePtr + 1 + op.arity }
        stepEntries (turnEntriesWith (loopEntries host fuel)) op operands m t ++
          match step host turn (execWith turn fuel) module op operands m t with
          | some (m, t, false) =>
            loopEntries host fuel limit (if limit = 0 then count else count + 1) module m t
          | _ => []

/-- The threads that are entered within a turn. -/
def turnEntries (host : Host) (fuel : Nat) : Machine → Thread → List Seat :=
  turnEntriesWith (loopEntries host fuel)

/-- Scopes stay and maps grow, and the seats `es` are taken one after another by threads that have a
turn at once. -/
structure Enters (m : Machine) (es : List Seat) (m' : Machine) : Prop where
  ordered : m'.Ordered
  widens : m.Widens m'
  nodup : es.Nodup
  unknown : ∀ s ∈ es, ¬ m.Known s
  spent : ∀ s ∈ es, m'.Spent s

variable {m m' m'' : Machine} {t t' : Thread} {es es' : List Seat}

/-- No thread is entered where the map only widens. -/
theorem Enters.nil (hordered : m'.Ordered) (h : m.Widens m') : m.Enters [] m' :=
  ⟨hordered, h, .nil, nofun, nofun⟩

/-- Threads are entered one after the other. -/
theorem Enters.append (h : m.Enters es m') (h' : m'.Enters es' m'') : m.Enters (es ++ es') m'' := by
  refine ⟨h'.ordered, h.widens.trans h'.widens, ?_, fun s hs => ?_, fun s hs => ?_⟩
  · refine List.nodup_append.2 ⟨h.nodup, h'.nodup, fun s hs s' hs' => ?_⟩
    rintro rfl
    exact h'.unknown s hs' (h.spent s hs).1
  · rcases List.mem_append.1 hs with hs | hs
    · exact h.unknown s hs
    · exact fun hknown => h'.unknown s hs (h.widens.known hknown)
  · rcases List.mem_append.1 hs with hs | hs
    · exact h'.widens.spent (h.spent s hs)
    · exact h'.spent s hs

/-- Of the machine, only the tree and the tick are looked at. -/
theorem Enters.of_scopes {n n' : Machine} (h : m.Enters es m') (htick : n.tick = m.tick)
    (hscopes : n.scopes = m.scopes) (htick' : n'.tick = m'.tick) (hscopes' : n'.scopes = m'.scopes) :
    n.Enters es n' := by
  have hwidens : n.Widens m := .of_scopes htick.symm hscopes.symm
  have hwidens' : m'.Widens n' := .of_scopes htick' hscopes'
  exact ⟨h.ordered.of_scopes hscopes', (hwidens.trans h.widens).trans hwidens', h.nodup,
    fun s hs => fun hknown => h.unknown s hs (hwidens.known hknown),
    fun s hs => hwidens'.spent (h.spent s hs)⟩

/-- A thread has been out of the tree for its turn: no thread has been entered twice, and all of them
are spent. -/
theorem Enters.reattach {s : Seat} {u : Thread} (h : m.Enters es m') (scope : ScopeId) (i : Nat)
    (hs : m.Spent s) (hstamp : u.lastTick = m'.tick) :
    (s :: es).Nodup ∧ ∀ s' ∈ s :: es, (m'.reattach scope i u).Spent s' := by
  refine ⟨List.nodup_cons.2 ⟨fun hmem => h.unknown s hmem hs.1, h.nodup⟩, fun s' hs' => ?_⟩
  refine spent_reattach hstamp ?_
  rcases List.mem_cons.1 hs' with rfl | hs'
  · exact h.widens.spent hs
  · exact h.spent s' hs'

section Turns

variable {turn : Turn} {inner : Machine → Thread → List Seat}
  (hturn : ∀ {m t m' t'}, m.executing = true → turn m t = some (m', t') → Acts Never m t m' t')
  (hinner : ∀ {m t m' t'}, m.executing = true → turn m t = some (m', t') → m.Ordered →
    ¬ m'.Exhausted → m.Enters (inner m t) m')
include hinner

/-- A turn outside the tree enters what its instructions enter. -/
theorem enters_runDetached (hm : m.executing = true) (h : runDetached turn m t = some (m', t'))
    (hordered : m.Ordered) (hfresh : ¬ m'.Exhausted) : m.Enters (entered inner m t).tail m' := by
  obtain ⟨⟨m₁, t₁⟩, hrun, heq⟩ := Option.map_eq_some_iff.1 h
  cases heq
  exact (hinner (by exact hm) hrun (hordered.of_scopes rfl) hfresh).of_scopes rfl rfl rfl rfl

include hturn in
/-- **A start for a result** enters the new thread, and those that are started in its turn. -/
theorem enters_startResult {scope : ScopeId} {name : ScriptName} {args : List Word}
    {info : ThreadInfo} {r : Option Word} (hordered : m.Ordered) (hfresh : ¬ m'.Exhausted)
    (h : m.startResult turn scope name args info = some (r, m')) :
    m.Enters (m.startEntries inner scope name args info) m' := by
  have hacts : Acts Never m default m' default := acts_startResult hturn h
  obtain ⟨hordered', hwidens, -⟩ := hacts.orderly hordered hfresh
  unfold startEntries
  cases hstarted : m.startedTurn? scope name args info with
  | none => exact .nil hordered' hwidens
  | some p =>
    obtain ⟨map, place, v, u, i, j, takesName, hmap, hplace, hv, hname, hu, hid, rfl, hresult⟩ :=
      exists_started hstarted
    have hstirs := Stirs.spawn hmap hplace hv hname
    have hthreads := threads_spawn hmap hplace hv takesName
    have hstarts := hordered.started hmap hplace hv hname hu hid
    rw [hresult turn] at h
    clear hresult hstarted
    generalize (m.spawn scope i j args info takesName).2 = m₁ at h hstirs hthreads hstarts
    obtain ⟨⟨m₂, u₂⟩, hrun, heq⟩ := Option.map_eq_some_iff.1 h
    cases heq
    have hfresh₂ : ¬ m₂.Exhausted := fun he => hfresh (he.mono (trace_reattach ..))
    have hran := acts_runDetached hturn rfl hrun
    have hfresh₁ : ¬ m₁.Exhausted := fun he => hfresh₂ (he.mono hran.trace)
    have hwidens₁ := (hstirs.orderly hordered hfresh₁).2
    -- the thread that is taken out is the one that was added
    obtain ⟨rfl, hfind, hordered₁, hdetached⟩ := hstarts hfresh₁
    rw [← hthreads] at hfind
    have hout : (m₁.detach scope i (fun ts => ts.findIdx (·.id == u.id)) u.id).Spent
        ⟨scope, i, u.id⟩ := hordered₁.spent_detach (by rw [hfind, hthreads]; simp)
    have henters := enters_runDetached hinner rfl hrun (hdetached.of_scopes rfl) hfresh₂
    have hstamp : u₂.lastTick = m₂.tick := by
      obtain ⟨-, hwidens₂, hproceeds⟩ := hran.orderly (hdetached.of_scopes rfl) hfresh₂
      rw [hproceeds.lastTick]
      exact hwidens₂.tick.symm
    have hentersAtRest : Enters _ _ { m₂ with executing := m.executing } :=
      henters.of_scopes rfl rfl rfl rfl
    obtain ⟨hnodup, hspent⟩ := hentersAtRest.reattach scope i hout hstamp
    have hseat : u.seat = ⟨scope, i, u.id⟩ := by
      obtain ⟨_, -, rfl⟩ := Option.map_eq_some_iff.1 hv
      rfl
    have hunknown : ¬ m.Known ⟨scope, i, u.id⟩ := by
      rw [make?_id hv]
      exact not_known_next hmap i
    rw [← hseat] at hnodup hspent hunknown
    refine ⟨hordered', hwidens, hnodup, fun s hs => ?_, hspent⟩
    rcases List.mem_cons.1 hs with rfl | hs
    · exact hunknown
    · intro hknown
      refine henters.unknown s hs ?_
      exact ((rewrites_detach m₁ scope i _ u.id).known s).2 (hwidens₁.known hknown)

end Turns

/-- A turn enters what its loop enters. -/
theorem enters_turnWith {loop : Word → Word → LoadedModule → Turn}
    {entries : Word → Word → LoadedModule → Machine → Thread → List Seat}
    (hloop : ∀ {limit count module m t m' t'}, m.executing = true →
      loop limit count module m t = some (m', t') → m.Ordered → ¬ m'.Exhausted →
      m.Enters (entries limit count module m t) m')
    (hm : m.executing = true) (h : turnWith loop m t = some (m', t')) (hordered : m.Ordered)
    (hfresh : ¬ m'.Exhausted) : m.Enters (turnEntriesWith entries m t) m' := by
  unfold turnWith at h
  unfold turnEntriesWith
  cases hmodule : t.module with
  | none =>
    rw [hmodule] at h
    cases h
    exact .nil hordered (.refl _)
  | some module =>
    rw [hmodule] at h
    exact hloop hm h hordered hfresh

/-- **Instructions** enter new threads only, each of them once. -/
theorem enters_loop {host : Host} (hhost : host.Obeys Never) {fuel : Nat} {limit count : Word}
    {module : LoadedModule} (hm : m.executing = true)
    (h : loop host fuel limit count module m t = some (m', t')) (hordered : m.Ordered)
    (hfresh : ¬ m'.Exhausted) : m.Enters (loopEntries host fuel limit count module m t) m' := by
  induction fuel generalizing limit count module m t m' t' with
  | zero => cases h
  | succ fuel ih =>
    have hkill : ∀ {reason data}, some (m.kill t reason data) = some (m', t') → m.Enters [] m' := by
      intro reason data heq
      cases heq
      obtain ⟨hordered', hwidens⟩ := (stirs_kill t reason data).orderly hordered hfresh
      exact .nil hordered' hwidens
    have hturn : ∀ {m t m' t'}, m.executing = true →
        turnWith (loop host fuel) m t = some (m', t') → Acts Never m t m' t' :=
      acts_turn hhost tame_never
    have hinner : ∀ {m t m' t'}, m.executing = true →
        turnWith (loop host fuel) m t = some (m', t') → m.Ordered → ¬ m'.Exhausted →
        m.Enters (turnEntriesWith (loopEntries host fuel) m t) m' := by
      intro m t m' t' hm hrun hordered hfresh
      exact enters_turnWith (fun hm h => ih hm h) hm hrun hordered hfresh
    unfold loop at h
    unfold loopEntries
    split at h
    · rename_i hstop
      cases h
      rw [if_pos hstop]
      exact .nil hordered (.refl _)
    · rename_i hstop
      rw [if_neg hstop]
      split at h
      · rename_i hlimit
        rw [if_pos hlimit]
        exact hkill h
      · rename_i hlimit
        rw [if_neg hlimit]
        split at h
        · rename_i hfetch
          rw [hfetch]
          exact hkill h
        · rename_i op operands hfetch
          rw [hfetch]
          dsimp only at h ⊢
          generalize { t with codePtr := t.codePtr + 1 + op.arity } = u at h ⊢
          have hstep : ∀ {m₁ u₁ waits}, step host (turnWith (loop host fuel))
              (execWith (turnWith (loop host fuel)) fuel) module op operands m u = some (m₁, u₁, waits) →
              ¬ m₁.Exhausted →
              m.Enters (stepEntries (turnEntriesWith (loopEntries host fuel)) op operands m u) m₁ := by
            intro m₁ u₁ waits hs hfresh₁
            unfold stepEntries
            split
            · obtain ⟨hordered₁, hwidens, -⟩ :=
                (acts_step hturn hhost tame_never stirs_execWith hm hs).orderly hordered hfresh₁
              exact .nil hordered₁ hwidens
            · rename_i name args hcall
              rw [step_of_some hcall] at hs
              obtain ⟨⟨r, m₂⟩, hstart, heq⟩ := Option.map_eq_some_iff.1 hs
              cases heq
              exact enters_startResult hturn hinner hordered hfresh₁ hstart
          split at h
          · cases h
          · rename_i hs
            cases h
            rw [hs, List.append_nil]
            exact hstep hs hfresh
          · rename_i m₁ u₁ hs
            rw [hs]
            have hbusy := ((acts_step hturn hhost tame_never stirs_execWith hm hs).executing
              tame_never).trans hm
            have hfirst := hstep hs fun he =>
              hfresh (he.mono (acts_loop hhost tame_never hbusy h).trace)
            exact hfirst.append (ih hbusy h hfirst.ordered hfresh)

/-- **A turn** enters new threads only, each of them once. -/
theorem enters_turn {host : Host} (hhost : host.Obeys Never) {fuel : Nat} (hm : m.executing = true)
    (h : turn host fuel m t = some (m', t')) (hordered : m.Ordered) (hfresh : ¬ m'.Exhausted) :
    m.Enters (turnEntries host fuel m t) m' :=
  enters_turnWith (fun hm h => enters_loop hhost hm h) hm h hordered hfresh

end ScriptMachine.Machine
