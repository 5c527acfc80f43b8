import ScriptMachine.Proofs.Machine.Takes
import ScriptMachine.Proofs.Machine.Unlimited
import ScriptMachine.Proofs.Machine.Visits

/-!
# Turns within what the host does

A tick gives turns to the threads that it visits, and a script that is started for its result has its turn
at once.  Such a start may happen in a turn, so there are turns within turns (`Machine.Comprises`).  All of
them begin alike: the machine is in order, and a placeholder keeps the seat of the thread that is out
(`Machine.Begun`).

When a turn is over the thread is put back, and what happens from then on until the host has the machine
again changes no more of the thread than its state (`HasTurn.ends`).
-/

namespace ScriptMachine

namespace Thread

/-- The thread as it carries out the instruction where it stands. -/
def behind (t : Thread) (op : Opcode) : Thread := { t with codePtr := t.codePtr + 1 + op.arity }

end Thread

namespace Machine

open Thread

variable {fuel k k' : Nat} {limit count count' : Word} {x : LoadedModule} {op : Opcode}
  {operands : List Word} {m m' n n' n₁ : Machine} {t t' u u' u₁ w : Thread} {s : Seat} {scope : ScopeId}
  {name : ScriptName} {args : List Word} {info : ThreadInfo} {q : Machine × Thread}

/-! ## Instructions of a turn -/

/-- The turn of `t` that begins with `m` comes to an instruction with `n` and `u`, and carries it out. -/
structure Dispatches (fuel : Nat) (m : Machine) (t : Thread) (k : Nat) (count : Word) (x : LoadedModule)
    (op : Opcode) (operands : List Word) (n : Machine) (u : Thread) : Prop where
  module : t.module = some x
  passes : Passes quietHost m.settings.branchLimit x fuel 0 m t (k + 1) count n u
  running : u.state = .running
  awake : u.delay = 0
  more : m.settings.branchLimit = 0 ∨ count < m.settings.branchLimit
  fetch : fetchAt x.code u.codePtr = .ok (op, operands)

/-- One more instruction is passed at the end. -/
theorem Passes.snoc {host : Host} (h : Passes host limit x fuel count m t (k + 1) count' n u)
    (hstate : u.state = .running) (hdelay : u.delay = 0) (hlimit : limit = 0 ∨ count' < limit)
    (hfetch : fetchAt x.code u.codePtr = .ok (op, operands))
    (hstep : step host (turn host k) (execWith (turn host k) k) x op operands n (u.behind op) =
      some (n₁, u₁, false)) :
    Passes host limit x fuel count m t k (if limit = 0 then count' else count' + 1) n₁ u₁ := by
  generalize hk : k + 1 = l at h
  induction h with
  | here =>
    subst hk
    exact .next hstate hdelay hlimit hfetch hstep .here
  | next hstate₀ hdelay₀ hlimit₀ hfetch₀ hstep₀ _ ih =>
    exact .next hstate₀ hdelay₀ hlimit₀ hfetch₀ hstep₀ (ih hstate hdelay hlimit hfetch hstep hk)

/-- The instructions that are passed are a play. -/
theorem Passes.plays {limit : Word} (hreal : t.isPlaceholder = false)
    (h : Passes quietHost limit x fuel count m t k count' m' t') : Plays m t m' t' := by
  induction h with
  | here => exact .refl _ _
  | @next fuel count m t op operands m₁ t₁ _ _ _ _ hstate hdelay _ _ hstep _ ih =>
    have hfirst : Plays m { t with codePtr := t.codePtr + 1 + op.arity } m₁ t₁ :=
      plays_step plays_turn hreal hstate hdelay hstep
    have hadvance : Plays m t m { t with codePtr := t.codePtr + 1 + op.arity } :=
      .perform (performs_advance hstate _)
    exact (hadvance.trans hfirst).trans (ih (hfirst.same.isPlaceholder_eq.trans hreal))

/-- What leads up to an instruction is a play. -/
theorem Dispatches.plays (h : Dispatches fuel m t k count x op operands n u) : Plays m t n u :=
  h.passes.plays (by rw [isPlaceholder, h.module]; rfl)

/-- What the turn comes to, from the instruction on. -/
theorem Dispatches.turn_eq (h : Dispatches fuel m t k count x op operands n u) :
    turn quietHost fuel m t =
      match step quietHost (turn quietHost k) (execWith (turn quietHost k) k) x op operands n
        (u.behind op) with
      | none => none
      | some (m₁, t₁, true) => some (m₁, t₁)
      | some (m₁, t₁, false) => loop quietHost k m.settings.branchLimit
          (if m.settings.branchLimit = 0 then count else count + 1) x m₁ t₁ := by
  rw [turn, turnWith, h.module]
  dsimp only
  rw [h.passes.loop_eq, loop_eq h.running h.awake h.more, h.fetch]
  rfl

/-! ## How turns begin -/

/-- The turn of `t` begins: the thread is out of the tree, and a placeholder keeps its seat. -/
structure Begun (m : Machine) (t : Thread) : Prop where
  ordered : m.Ordered
  real : t.isPlaceholder = false
  known : m.Known t.seat
  vacant : m.sitter? t.seat = some (placeholder t.id)
  stamp : t.lastTick = m.tick

/-- A turn that begins may be noted. -/
theorem Begun.noting (h : Begun m t) : Begun (m.noting t) t :=
  ⟨h.ordered.of_scopes rfl, h.real, h.known, h.vacant, h.stamp⟩

/-- A thread that is taken out of its place. -/
theorem begun_detach {scope : ScopeId} {i : Nat} {j : List Thread → Nat} (hm : m.Ordered)
    (hu : (m.threadsAt scope i)[j (m.threadsAt scope i)]? = some u) (hreal : u.isPlaceholder = false)
    (hw : w.module = u.module ∧ w.seat = u.seat) (hstamp : w.lastTick = m.tick) :
    Begun (m.detach scope i j u.id) w := by
  have hmem := List.mem_of_getElem? hu
  have hseat : w.seat = ⟨scope, i, u.id⟩ := hw.2.trans (hm.seat_eq hmem hreal)
  have hid : w.id = u.id := congrArg Seat.id hseat
  obtain ⟨map, place, hmap, hplace, -⟩ := exists_threadsAt hmem
  have hmodule : m.scopes.module? scope i = some place := by
    rw [ScopeTree.module?_eq, hmap]
    exact hplace
  have hat : place.threads[j place.threads]? = some u := by
    rwa [threadsAt, hmodule] at hu
  refine ⟨hm.detach hmodule hat, ?_, ?_, ?_, hstamp⟩
  · rw [isPlaceholder, hw.1]
    exact hreal
  · rw [hseat]
    exact ((rewrites_detach m scope i j u.id).known _).2 (hm.known hmem)
  · rw [hseat, hid, hm.distinct.sitter?_detach hu, if_pos rfl, hm.distinct.sitter? hu]
    rfl

/-- The turn of a new thread. -/
theorem Ordered.startedTurn?_eq (hm : m.Ordered) {slot : ScriptSlot}
    (hslot : m.resolveScript? scope name = some slot) (args : List Word) (info : ThreadInfo) :
    ∃ map place v, m.scopes.map? scope = some map ∧ map.modules[slot.moduleIndex]? = some place ∧
      Thread.make? map.nextThreadId place.module scope slot.moduleIndex slot.scriptIndex args info =
        some v ∧
      (m.canTakeName scope name slot = true → map.Single slot.moduleIndex slot.scriptIndex) ∧
      (place.threads ++ [v]).find? (·.id == v.id) = some v ∧
      m.startedTurn? scope name args info =
        some ({ (m.spawn scope slot.moduleIndex slot.scriptIndex args info
            (m.canTakeName scope name slot)).2.detach scope slot.moduleIndex
              (fun ts => ts.findIdx (·.id == v.id)) v.id with executing := true },
          { v with lastTick := m.tick }) := by
  obtain ⟨map, place, v, hmap, hfind, hplace, hv⟩ := hm.exists_make? hslot args info
  have hid := make?_id hv
  have hname := single_of_canTakeName (m := m) hmap hfind
  -- the ids of the other threads were given out before
  have hlast : (place.threads ++ [v]).find? (·.id == v.id) = some v := by
    have hnone : place.threads.find? (·.id == v.id) = none := by
      refine List.find?_eq_none.2 fun t ht heq => ?_
      have hmem : t ∈ m.threadsAt scope slot.moduleIndex := by
        rw [threadsAt, ScopeTree.module?_eq, hmap, Option.bind_some, hplace]
        exact ht
      obtain ⟨map₁, hmap₁, hbelow⟩ := hm.known hmem
      cases hmap.symm.trans hmap₁
      dsimp only at hbelow
      rw [beq_iff_eq.1 heq, hid] at hbelow
      exact UInt32.lt_irrefl _ hbelow
    simp [List.find?_append, hnone]
  refine ⟨map, place, v, hmap, hplace, hv, hname, hlast, ?_⟩
  obtain ⟨m₁, hspawn⟩ : ∃ m₁, m.spawn scope slot.moduleIndex slot.scriptIndex args info
      (m.canTakeName scope name slot) = (some v.id, m₁) :=
    ⟨_, (spawn_eq hmap hplace hv _).trans (by rw [hid])⟩
  have hmodule := module?_spawn hmap hplace hv (m.canTakeName scope name slot)
  have htick := (Stirs.spawn hmap hplace hv hname).evolves.tick
  rw [hspawn] at hmodule htick
  simp only [startedTurn?, hslot, hspawn, hmodule, Option.bind_some, ModuleScope.thread?, hlast,
    Option.map_some, ModuleScope.modifyThread, updateFirst_eq_modify]
  exact congrArg (fun now => some (_, { v with lastTick := now })) htick

/-- The turn of a thread that is started for its result begins, and its seat is a new one. -/
theorem Ordered.begun_started (hm : m.Ordered) (h : m.startedTurn? scope name args info = some q)
    (hfresh : ¬ q.1.Exhausted) : Begun q.1 q.2 ∧ q.1.tick = m.tick ∧
      ∃ slot map, m.resolveScript? scope name = some slot ∧ m.scopes.map? scope = some map ∧
        q.2.seat = ⟨scope, slot.moduleIndex, map.nextThreadId⟩ ∧ q.2.state = .running := by
  cases hslot : m.resolveScript? scope name with
  | none =>
    rw [startedTurn?, hslot] at h
    cases h
  | some slot =>
    obtain ⟨map, place, v, hmap, hplace, hv, hname, hlast, heq⟩ := hm.startedTurn?_eq hslot args info
    cases h.symm.trans heq
    have hseat : v.seat = ⟨scope, slot.moduleIndex, map.nextThreadId⟩ ∧ v.isPlaceholder = false ∧
        v.state = .running := by
      obtain ⟨script, -, rfl⟩ := Option.map_eq_some_iff.1 hv
      exact ⟨rfl, rfl, rfl⟩
    have htick := (Stirs.spawn hmap hplace hv hname).evolves.tick
    obtain ⟨-, -, hordered, -⟩ := hm.started hmap hplace hv hname hlast rfl hfresh
    have hat := getElem?_started hmap hplace hv (m.canTakeName scope name slot) hlast
    have hbegun := begun_detach (w := { v with lastTick := m.tick }) (j := fun ts => ts.findIdx (·.id == v.id))
      hordered hat hseat.2.1 ⟨rfl, rfl⟩ htick.symm
    exact ⟨⟨hbegun.ordered.of_scopes rfl, hbegun.real, hbegun.known, hbegun.vacant, hbegun.stamp⟩, htick,
      slot, map, rfl, hmap, hseat.1, hseat.2.2⟩

/-! ## How turns end -/

/-- Every thread in the tree stays there, and no more of it changes than its state. -/
def Retains (m m' : Machine) : Prop :=
  ∀ s t, m.Known s → m.sitter? s = some t → t.isPlaceholder = false →
    m'.Known s ∧ ∃ t', m'.sitter? s = some t' ∧ t.Restates t'

theorem Retains.refl (m : Machine) : Retains m m := fun _ t hs ht _ => ⟨hs, t, ht, .refl t⟩

theorem Retains.trans {m'' : Machine} (h : Retains m m') (h' : Retains m' m'') : Retains m m'' := by
  intro s t hs ht hreal
  obtain ⟨hs', t', ht', hr⟩ := h s t hs ht hreal
  obtain ⟨hs'', t'', ht'', hr'⟩ := h' s t' hs' ht' (hr.same.isPlaceholder_eq.trans hreal)
  exact ⟨hs'', t'', ht'', hr.trans hr'⟩

/-- A machine that widens retains its threads. -/
theorem Widens.retains (h : m.Widens m') : Retains m m' := by
  intro s t hs ht _
  have hrel := h.sitter? hs
  rw [ht] at hrel
  generalize m'.sitter? s = r at hrel
  cases hrel with
  | some hr => exact ⟨h.known hs, _, rfl, hr⟩

/-- A machine retains its threads when one is put back. -/
theorem retains_reattach (m : Machine) (scope : ScopeId) (i : Nat) (u : Thread) :
    Retains m (m.reattach scope i u) := by
  intro s t hs ht hreal
  obtain ⟨v, f, -, -, hback⟩ := rewrites_reattach m scope i u
  refine ⟨(hback.known s).2 hs, ?_⟩
  rcases sitter?_reattach m scope i u s with heq | ⟨-, p, hp, hplace, -⟩
  · exact ⟨t, heq.trans ht, .refl t⟩
  · cases ht.symm.trans hp
    cases hplace.symm.trans hreal

/-- What was asked of a thread while it was out changes no more of it than its state. -/
theorem restates_settled (t : Thread) (asked : ThreadState) : t.Restates (settled t asked) := by
  unfold settled
  split
  · exact .inr ⟨.stopped, by decide, rfl⟩
  · split
    · exact .refl t
    · exact .inr ⟨.paused, by decide, rfl⟩
  · exact .refl t

/-- A thread comes into the seat that its placeholder kept. -/
theorem sitter?_reattach_self {i : Nat} {p : Thread} (hp : m.sitter? ⟨scope, i, u.id⟩ = some p)
    (hplace : p.isPlaceholder = true) :
    (m.reattach scope i u).sitter? ⟨scope, i, u.id⟩ = some (settled u p.state) := by
  obtain ⟨y, hy, hfind⟩ : ∃ y, m.scopes.module? scope i = some y ∧
      y.threads.find? (·.id == u.id) = some p := by
    rw [sitter?, threadsAt] at hp
    cases hy : m.scopes.module? scope i with
    | none =>
      rw [hy] at hp
      cases hp
    | some y =>
      rw [hy] at hp
      exact ⟨y, rfl, hp⟩
  have hback : m.Rewrites scope i
      (fun ts => ts.modify (ts.findIdx (·.id == u.id)) fun _ => settled u p.state)
      (m.reattach scope i u) := by
    rw [reattach_eq hy hfind hplace]
    refine rewrites_modifyMap (List.modify_nil ..) rfl rfl (fun _ => rfl) (fun _ => rfl) fun map => ?_
    simp only [MapScope.modifyModule, updateFirst_eq_modify]
  rw [hback.sitter? rfl fun _ _ => (same_settled u p.state).id, if_pos rfl, hp]
  rfl

/-- When its turn is over, the seat of a thread is still kept. -/
theorem Begun.over (h : Begun m t) (hturn : turn quietHost fuel m t = some (n, u))
    (hfresh : ¬ n.Exhausted) : n.Ordered ∧ m.Widens n ∧ u.seat = t.seat ∧ u.isPlaceholder = false ∧
      u.lastTick = t.lastTick ∧ ∃ p, n.sitter? u.seat = some p ∧ p.isPlaceholder = true := by
  have hplays := plays_turn hturn
  have hacts : Acts Never m t n u := hplays.acts
  obtain ⟨hn, hwidens, -⟩ := hacts.orderly h.ordered hfresh
  have hsame := hplays.same
  have hseat : u.seat = t.seat := by rw [seat, seat, hsame.scope, hsame.moduleIndex, hsame.id]
  refine ⟨hn, hwidens, hseat, hsame.isPlaceholder_eq.trans h.real, hplays.lastTick, ?_⟩
  have hrel := hwidens.sitter? h.known
  rw [h.vacant] at hrel
  rw [hseat]
  generalize n.sitter? t.seat = r at hrel
  cases hrel with
  | some hr => exact ⟨_, rfl, hr.same.isPlaceholder_eq⟩

/-- A start for a result, from the turn on that it gives. -/
theorem Ordered.startResult_turn (hm : m.Ordered) (h : m.startedTurn? scope name args info = some q)
    {r : Option Word} (hresult : m.startResult (turn quietHost k) scope name args info = some (r, m'))
    (hfresh : ¬ m'.Exhausted) : Begun q.1 q.2 ∧ q.1.tick = m.tick ∧
      ∃ n u p, turn quietHost k (q.1.noting q.2) q.2 = some (n, u) ∧ ¬ n.Exhausted ∧ Retains n m' ∧
        n.sitter? u.seat = some p ∧ p.isPlaceholder = true ∧
        m'.sitter? u.seat = some (settled u p.state) ∧
        r = if u.state = .stopped then some u.result else none := by
  obtain ⟨slot, hslot, hcomes⟩ := startResult_of_some h
  rw [hcomes] at hresult
  obtain ⟨⟨n₀, u⟩, hrun, heq⟩ := Option.map_eq_some_iff.1 hresult
  obtain ⟨⟨n, u'⟩, hturn, heq'⟩ := Option.map_eq_some_iff.1 hrun
  cases heq'
  cases heq
  have hfreshn : ¬ n.Exhausted := fun he => hfresh (he.mono (trace_reattach ..))
  have hacts : Acts Never (q.1.noting q.2) q.2 n u := (plays_turn hturn).acts
  have hfreshq : ¬ q.1.Exhausted := fun he => hfreshn (he.mono hacts.trace)
  obtain ⟨hbegun, htick, slot', map, hslot', -, hseat, -⟩ := hm.begun_started h hfreshq
  cases hslot.symm.trans hslot'
  obtain ⟨-, -, hsame, -, -, p, hp, hplace⟩ := hbegun.noting.over hturn hfreshn
  refine ⟨hbegun, htick, n, u, p, hturn, hfreshn, ?_, hp, hplace, ?_, rfl⟩
  · exact retains_reattach { n with
      running := n.running.drop (q.2.module.map (·.serial)).toList.length, executing := m.executing }
      scope slot.moduleIndex u
  · have hat : u.seat = ⟨scope, slot.moduleIndex, u.id⟩ := by
      have hid : u.id = map.nextThreadId := congrArg Seat.id (hsame.trans hseat)
      rw [hsame, hseat, hid]
    rw [hat] at hp ⊢
    exact sitter?_reattach_self (m := { n with
      running := n.running.drop (q.2.module.map (·.serial)).toList.length, executing := m.executing }) hp
      hplace

/-! ## Turns within turns -/

/-- The turn of `u` that begins with `n` is the turn of `t` that begins with `m`, or it happens within that
one: the script of `u` is started for its result there. -/
inductive Comprises (fuel : Nat) (m : Machine) (t : Thread) : Nat → Machine → Thread → Prop
  | self : Comprises fuel m t fuel m t
  | inner {k n u k' count x op operands n₁ u₁ p q} (h : Comprises fuel m t k n u)
      (hd : Dispatches k n u k' count x op operands n₁ u₁)
      (hcall : resultCall? op operands n₁ (u₁.behind op) = some p)
      (hstarted : n₁.startedTurn? u₁.scope p.1 p.2 u₁.info = some q) :
    Comprises fuel m t k' (q.1.noting q.2) q.2

/-- The trace only grows until the turn begins. -/
theorem trace_startedTurn? (h : m.startedTurn? scope name args info = some q) :
    m.trace <:+ q.1.trace := by
  obtain ⟨map, place, v, u, i, j, takesName, hmap, hplace, hv, hname, -, -, rfl, -⟩ := exists_started h
  exact (Stirs.spawn hmap hplace hv hname).evolves.trace

/-- The trace only grows up to a turn within. -/
theorem Comprises.trace (h : Comprises fuel m t k n u) : m.trace <:+ n.trace := by
  induction h with
  | self => exact List.suffix_refl _
  | inner _ hd _ hstarted ih =>
    have hacts : Acts Never _ _ _ _ := hd.plays.acts
    exact (ih.trans hacts.trace).trans (trace_startedTurn? hstarted)

/-- **Turns within turns begin alike.** -/
theorem Comprises.begun (h : Comprises fuel m t k n u) (hm : Begun m t) (hfresh : ¬ n.Exhausted) :
    Begun n u := by
  induction h with
  | self => exact hm
  | @inner k n u k' count x op operands n₁ u₁ p q _ hd _ hstarted ih =>
    have hfresh₁ : ¬ n₁.Exhausted := fun he => hfresh (he.mono (trace_startedTurn? hstarted))
    have hacts : Acts Never n u n₁ u₁ := hd.plays.acts
    have hbegun := ih fun he => hfresh₁ (he.mono hacts.trace)
    obtain ⟨hordered, -, -⟩ := hacts.orderly hbegun.ordered hfresh₁
    exact (hordered.begun_started hstarted hfresh).1.noting

/-- A turn in which a script is started for its result goes on when it has the answer. -/
theorem Dispatches.onward {p : ScriptName × List Word} {n' n₁ : Machine} {u' u₁ : Thread}
    (hd : Dispatches k n u k' count x op operands n₁ u₁)
    (hcall : resultCall? op operands n₁ (u₁.behind op) = some p) (hbegun : Begun n u)
    (hends : turn quietHost k n u = some (n', u')) (hfresh : ¬ n'.Exhausted) :
    n₁.Ordered ∧ n.Widens n₁ ∧ ∃ r n₂,
      n₁.startResult (turn quietHost k') u₁.scope p.1 p.2 u₁.info = some (r, n₂) ∧ ¬ n₂.Exhausted ∧
      n₂.Ordered ∧ n₂.Widens n' := by
  obtain ⟨r, n₂, hresult, hloop⟩ : ∃ r n₂,
      n₁.startResult (turn quietHost k') u₁.scope p.1 p.2 u₁.info = some (r, n₂) ∧
      loop quietHost k' n.settings.branchLimit
        (if n.settings.branchLimit = 0 then count else count + 1) x n₂
        (((u₁.behind op).takeArgs (operands.headD 0)).2.push (r.getD 0)) = some (n', u') := by
    rw [hd.turn_eq, step_of_some hcall] at hends
    cases hresult : n₁.startResult (turn quietHost k') (u₁.behind op).scope p.1 p.2
        (u₁.behind op).info with
    | none =>
      rw [hresult] at hends
      cases hends
    | some y =>
      rw [hresult] at hends
      exact ⟨y.1, y.2, hresult, hends⟩
  have hreal : u₁.isPlaceholder = false := hd.plays.same.isPlaceholder_eq.trans hbegun.real
  have hacts : Acts Never n u n₁ u₁ := hd.plays.acts
  have hstarts : Acts Never n₁ u₁ n₂ u₁ := (plays_startResult plays_turn hreal hresult).acts
  have hrest : Acts Never n₂ (((u₁.behind op).takeArgs (operands.headD 0)).2.push (r.getD 0)) n' u' := by
    have hreal' : (((u₁.behind op).takeArgs (operands.headD 0)).2.push (r.getD 0)).isPlaceholder =
      false := hreal
    exact (plays_loop hreal' hloop).acts
  have hfresh₂ : ¬ n₂.Exhausted := fun he => hfresh (he.mono hrest.trace)
  have hfresh₁ : ¬ n₁.Exhausted := fun he => hfresh₂ (he.mono hstarts.trace)
  obtain ⟨hordered₁, hwidens₁, -⟩ := hacts.orderly hbegun.ordered hfresh₁
  have hordered₂ := (hstarts.orderly hordered₁ hfresh₂).1
  exact ⟨hordered₁, hwidens₁, r, n₂, hresult, hfresh₂, hordered₂, (hrest.orderly hordered₂ hfresh).2.1⟩

/-- **Turns within turns end**, and threads that were put back stay in the tree until the outer turn is
over. -/
theorem Comprises.ends (h : Comprises fuel m t k n u) (hm : Begun m t)
    (hturn : turn quietHost fuel m t = some (m', t')) (hfresh : ¬ m'.Exhausted) :
    Begun n u ∧ n.tick = m.tick ∧ ∃ n' u', turn quietHost k n u = some (n', u') ∧ ¬ n'.Exhausted ∧
      Retains n' m' ∧ (u = t ∧ u' = t' ∨ ∃ w, m'.Known u'.seat ∧ m'.sitter? u'.seat = some w ∧
        w.isPlaceholder = false ∧ u'.Restates w) := by
  induction h with
  | self => exact ⟨hm, rfl, m', t', hturn, hfresh, .refl m', .inl ⟨rfl, rfl⟩⟩
  | @inner k n u k' count x op operands n₁ u₁ p q _ hd hcall hstarted ih =>
    obtain ⟨hbegun, htick, n', u', hends, hfresh', hretains, -⟩ := ih
    obtain ⟨hordered₁, hwidens₁, r, n₂, hresult, hfresh₂, hordered₂, hwidens⟩ :=
      hd.onward hcall hbegun hends hfresh'
    obtain ⟨hbegun', htick', n'', u'', w, hinner, hfresh'', hretains', -, -, hsit, -⟩ :=
      hordered₁.startResult_turn hstarted hresult hfresh₂
    have honward : Retains n₂ m' := hwidens.retains.trans hretains
    have hback : (settled u'' w.state).seat = u''.seat ∧ (settled u'' w.state).isPlaceholder = false := by
      have hsame := same_settled u'' w.state
      have hover := hbegun'.noting.over hinner hfresh''
      exact ⟨by rw [seat, seat, hsame.scope, hsame.moduleIndex, hsame.id],
        hsame.isPlaceholder_eq.trans hover.2.2.2.1⟩
    obtain ⟨hknown, w', hw', hrestates⟩ :=
      honward u''.seat _ (hordered₂.known_of_sitter? hsit) hsit hback.2
    refine ⟨hbegun'.noting, htick'.trans (hwidens₁.tick.trans htick), n'', u'', hinner, hfresh'',
      hretains'.trans honward, .inr ⟨w', hknown, hw', ?_, ?_⟩⟩
    · exact hrestates.same.isPlaceholder_eq.trans hback.2
    · exact (restates_settled u'' w.state).trans hrestates

/-- The trace only grows until the thread is back. -/
theorem trace_back {b : Bool} (hrun : runDetached (turn quietHost fuel) m t = some q) (scope : ScopeId)
    (i : Nat) : m.trace <:+ ({ q.1 with executing := b }.reattach scope i q.2).trace := by
  obtain ⟨⟨n, u⟩, hturned, rfl⟩ := Option.map_eq_some_iff.1 hrun
  have hacts : Acts Never (m.noting t) t n u := (plays_turn hturned).acts
  exact hacts.trace.trans (trace_reattach { n with
    running := n.running.drop (t.module.map (·.serial)).toList.length, executing := b } scope i u)

/-- **Turns that a start or a visit gives end**, and what the tree has in their seats when the thread that
ran is put back is what they left but for its state. -/
theorem Comprises.back {i : Nat} {b : Bool} (h : Comprises fuel (m.noting t) t k n u) (hm : Begun m t)
    (hown : t.seat = ⟨scope, i, t.id⟩) (hrun : runDetached (turn quietHost fuel) m t = some q)
    (hfresh : ¬ ({ q.1 with executing := b }.reattach scope i q.2).Exhausted) :
    Begun n u ∧ ∃ n' u' w, turn quietHost k n u = some (n', u') ∧ ¬ n'.Exhausted ∧
      ({ q.1 with executing := b }.reattach scope i q.2).Known u.seat ∧
      ({ q.1 with executing := b }.reattach scope i q.2).sitter? u.seat = some w ∧
      u'.Restates w ∧
      w.lastTick = ({ q.1 with executing := b }.reattach scope i q.2).tick := by
  obtain ⟨⟨m', t'⟩, hturn, rfl⟩ := Option.map_eq_some_iff.1 hrun
  have hfresh' : ¬ m'.Exhausted := fun he => hfresh (he.mono (trace_reattach ..))
  obtain ⟨hm', hwidens, hsame, -, -, p, hp, hplace⟩ := hm.noting.over hturn hfresh'
  obtain ⟨hbegun, htick, n', u', hends, hfreshn, -, hsits⟩ := h.ends hm.noting hturn hfresh'
  obtain ⟨-, -, hseat, -, hstamp, -⟩ := hbegun.over hends hfreshn
  have hnow : u'.lastTick = m'.tick := by
    rw [hstamp, hbegun.stamp, htick]
    exact hwidens.tick.symm
  obtain ⟨v, f, -, -, hback⟩ := rewrites_reattach
    { m' with running := m'.running.drop (t.module.map (·.serial)).toList.length, executing := b }
    scope i t'
  refine ⟨hbegun, n', u', ?_⟩
  rcases hsits with ⟨rfl, rfl⟩ | ⟨w, hknown, hw, hreal, hrestates⟩
  · refine ⟨settled u' p.state, hends, hfreshn, (hback.known _).2 ?_, ?_, restates_settled .., ?_⟩
    · exact hsame ▸ hm'.known_of_sitter? hp
    · have hid : u'.id = u.id := congrArg Seat.id hsame
      have hat : u.seat = ⟨scope, i, u'.id⟩ := by rw [hid, hown]
      rw [hsame, hat] at hp
      rw [hat]
      exact sitter?_reattach_self (m := { m' with
        running := m'.running.drop (u.module.map (·.serial)).toList.length, executing := b }) hp hplace
    · exact (restates_settled ..).lastTick_eq.trans (hnow.trans hback.tick.symm)
  · obtain ⟨hknown', w', hw', hr⟩ := retains_reattach
      { m' with running := m'.running.drop (t.module.map (·.serial)).toList.length, executing := b }
      scope i t' u'.seat w hknown hw hreal
    rw [hseat] at hknown' hw'
    have hall := hrestates.trans hr
    exact ⟨w', hends, hfreshn, hknown', hw', hall, hall.lastTick_eq.trans (hnow.trans hback.tick.symm)⟩

/-! ## What the host does -/

/-- What the host does that gives turns to threads. -/
inductive Service where
  | tick
  | start (scope : ScopeId) (name : ScriptName) (args : List Word) (info : ThreadInfo)

namespace Service

/-- Does what the host asks for, with the result of the script if there is one. -/
def run (host : Host) (fuel : Nat) (m : Machine) : Service → Option (Option Word × Machine)
  | tick => (m.exec host fuel).map fun m => (none, m)
  | start scope name args info => m.startResult (turn host fuel) scope name args info

end Service

/-- The turn of `u` that begins with `n` is one of those that the service gives, in whatever way. -/
inductive HasTurn (fuel : Nat) (m : Machine) : Service → Nat → Machine → Thread → Prop
  | visit {x p k n u} (hx : x ∈ m.tickVisits quietHost fuel) (hturn : x.turn? = some p)
      (h : Comprises fuel (p.1.noting p.2) p.2 k n u) : HasTurn fuel m .tick k n u
  | start {scope name args info p k n u} (hstarted : m.startedTurn? scope name args info = some p)
      (h : Comprises fuel (p.1.noting p.2) p.2 k n u) : HasTurn fuel m (.start scope name args info) k n u

/-- The turn begins that a visit gives. -/
theorem Underway.begun_turn {x : Visiting} (hx : x.machine.Underway) (hturn : x.turn? = some q) :
    Begun q.1 q.2 ∧ q.2.seat = ⟨x.scope, x.moduleIndex, q.2.id⟩ ∧ x.seat? = some q.2.seat := by
  obtain ⟨u, m₀, hu, hworks, hscopes, -, -, rfl⟩ := Visiting.exists_turn hturn
  obtain ⟨-, hat⟩ := Visiting.thread?_eq_some.1 hu
  have hreal : u.isPlaceholder = false := hx.filled.real (getElem?_threadsAt ▸ hat)
  have hordered : m₀.Ordered := hx.ordered.of_scopes hscopes
  have hat₀ : (m₀.threadsAt x.scope x.moduleIndex)[x.index]? = some u := by
    rwa [threadsAt_congr hscopes]
  have hseat := hordered.seat_eq (List.mem_of_getElem? hat₀) hreal
  have htick : m₀.tick = x.machine.tick := hworks.stirs.evolves.tick
  refine ⟨begun_detach (j := fun _ => x.index) hordered hat₀ hreal ⟨rfl, rfl⟩ htick.symm, hseat, ?_⟩
  rw [Visiting.seat?, hu]
  exact congrArg some hseat.symm

/-- Turns that a visit gives end with it. -/
theorem Comprises.back_visit {x : Visiting} {v : Visit} {b : Machine}
    (h : Comprises fuel (q.1.noting q.2) q.2 k n u) (hx : x.machine.Underway) (hturn : x.turn? = some q)
    (hrun : x.run quietHost fuel = some (v, b)) (hfresh : ¬ b.Exhausted) :
    Begun n u ∧ ∃ n' u' w, turn quietHost k n u = some (n', u') ∧ ¬ n'.Exhausted ∧ b.Known u.seat ∧
      b.sitter? u.seat = some w ∧ u'.Restates w ∧ w.lastTick = b.tick := by
  rw [Visiting.run, visit_of_some hturn] at hrun
  obtain ⟨r, hrunned, heq⟩ := Option.map_eq_some_iff.1 hrun
  cases heq
  obtain ⟨hbegun, hown, -⟩ := hx.begun_turn hturn
  exact h.back (b := r.1.executing) hbegun hown hrunned hfresh

/-- Turns that a start for a result gives end with it. -/
theorem Comprises.back_start {r : Option Word} (h : Comprises fuel (q.1.noting q.2) q.2 k n u)
    (hm : ¬ m.Exhausted → m.Ordered) (hstarted : m.startedTurn? scope name args info = some q)
    (hrun : m.startResult (turn quietHost fuel) scope name args info = some (r, m'))
    (hfresh : ¬ m'.Exhausted) : Begun n u ∧ ∃ n' u' w, turn quietHost k n u = some (n', u') ∧
      ¬ n'.Exhausted ∧ m'.Known u.seat ∧ m'.sitter? u.seat = some w ∧ u'.Restates w := by
  obtain ⟨slot, hslot, hcomes⟩ := startResult_of_some hstarted
  rw [hcomes] at hrun
  obtain ⟨p, hrunned, heq⟩ := Option.map_eq_some_iff.1 hrun
  cases heq
  have hfreshq : ¬ q.1.Exhausted := fun he => hfresh (he.mono (trace_back hrunned ..))
  have hordered := hm fun he => hfreshq (he.mono (trace_startedTurn? hstarted))
  obtain ⟨hbegun, -, slot', map, hslot', -, hseat, -⟩ := hordered.begun_started hstarted hfreshq
  cases hslot.symm.trans hslot'
  have hown : q.2.seat = ⟨scope, slot.moduleIndex, q.2.id⟩ := by
    rw [hseat, show q.2.id = map.nextThreadId from congrArg Seat.id hseat]
  obtain ⟨hbegun', n', u', w, hends, hfresh', hknown, hw, hrestates, -⟩ :=
    h.back hbegun hown hrunned hfresh
  exact ⟨hbegun', n', u', w, hends, hfresh', hknown, hw, hrestates⟩

/-- **Turns begin alike**, whatever the host asks for. -/
theorem HasTurn.begun {service : Service} (hm : Managed m)
    (hturn : HasTurn fuel m service k n u) (hfresh : ¬ n.Exhausted) : Begun n u := by
  cases hturn with
  | @visit x p _ _ _ hx hturn h =>
    obtain ⟨before, after, hsplit⟩ := List.append_of_mem hx
    have hwalk : Walk quietHost fuel m.begun before x.machine := leads_maps _ _ before x after hsplit
    obtain ⟨v, m₀, -, hworks, -, -, -, hp⟩ := Visiting.exists_turn hturn
    have hvisit : x.machine.trace <:+ p.1.trace := by
      rw [hp]
      exact hworks.stirs.evolves.trace
    have hfreshp : ¬ p.1.Exhausted := fun he => hfresh (he.mono h.trace)
    have hfreshx : ¬ x.machine.Exhausted := fun he => hfreshp (he.mono hvisit)
    have hfreshm : ¬ m.Exhausted := fun he => hfreshx (he.mono (hwalk.trace rfl))
    have hx := hwalk.underway (hm.underway hfreshm) hfreshx
    exact h.begun (hx.begun_turn hturn).1.noting hfresh
  | @start _ _ _ _ p _ _ _ hstarted h =>
    have hfreshp : ¬ p.1.Exhausted := fun he => hfresh (he.mono h.trace)
    have hordered := hm.ordered fun he => hfreshp (he.mono (trace_startedTurn? hstarted))
    exact h.begun (hordered.begun_started hstarted hfreshp).1.noting hfresh

/-- **Turns end** when the host has the machine again, and what the tree has in their seats then is what
they left but for its state. -/
theorem HasTurn.ends {service : Service} {r : Option Word} (hm : Managed m)
    (hrest : m.executing = false) (hturn : HasTurn fuel m service k n u)
    (hrun : service.run quietHost fuel m = some (r, m')) (hfresh : ¬ m'.Exhausted) :
    Begun n u ∧ ∃ n' u', turn quietHost k n u = some (n', u') ∧ ¬ n'.Exhausted ∧ m'.Known u.seat ∧
      ∀ w, m'.sitter? u.seat = some w → u'.Restates w := by
  cases hturn with
  | @visit x p _ _ _ hx hturn h =>
    obtain ⟨m₂, hexec, heq⟩ := Option.map_eq_some_iff.1 hrun
    cases heq
    obtain ⟨m₁, hwalk, rfl⟩ := walk_exec hrest hexec
    obtain ⟨before, after, hsplit⟩ := List.append_of_mem hx
    rw [hsplit] at hwalk
    have hfresh₁ : ¬ m₁.Exhausted := hfresh
    have hfreshm : ¬ m.Exhausted := fun he => hfresh₁ (he.mono (hwalk.trace rfl))
    obtain ⟨v, b, hfirst, hx, -, hvisit, hunder, hfreshb, hlast⟩ :=
      hwalk.exists_visit (hm.underway hfreshm) hfresh₁
    -- the turn that the visit gives, and the walk after it
    obtain ⟨hbegun, n', u', w, hends, hfresh', hknown, hw, hrestates, hstamp⟩ :=
      h.back_visit hx hturn hvisit hfreshb
    have hspent : b.Spent u.seat := by
      refine ⟨hknown, fun w' hw' => .inr ?_⟩
      cases hw.symm.trans hw'
      exact hstamp
    obtain ⟨hspent', hback⟩ := hlast.rests hunder hfresh₁ hspent
    refine ⟨hbegun, n', u', hends, hfresh', hspent'.1, fun w' hw' => ?_⟩
    obtain ⟨w₀, hw₀, hr⟩ := hback w' hw'
    cases hw.symm.trans hw₀
    exact hrestates.trans hr
  | start hstarted h =>
    obtain ⟨hbegun, n', u', w, hends, hfresh', hknown, hw, hrestates⟩ :=
      h.back_start hm.ordered hstarted hrun hfresh
    refine ⟨hbegun, n', u', hends, hfresh', hknown, fun w' hw' => ?_⟩
    cases hw.symm.trans hw'
    exact hrestates

end Machine

end ScriptMachine
