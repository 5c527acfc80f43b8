import ScriptMachine.Proofs.Machine.ViewRuns

/-!
# Traces and ticks, in the view

Two machines that do the same have traces of their own, which do not show the same where they begin.
`Duo.Aligned` leaves the traces out; what both machines do then adds the same events to both
(`Duo.Aligned.follows`).

At rest no thread shows when it had its last turn.  When a tick begins, none had its turn in it yet,
since noted ticks are never later than the machine's; so machines that are aligned at rest are aligned
as threads that had their turn begin to be told (`Duo.Aligned.begins`), and when the tick has ended
(`Duo.Aligned.ends`).
-/

namespace ScriptMachine

/-! ## Traces of their own -/

/-- The vantage from which these events came before the trace. -/
def Vantage.after (V : Vantage) (past : List Event) : Vantage := { V with past }

/-- The machine as if nothing had happened in it. -/
def Machine.cleared (m : Machine) : Machine := { m with trace := [] }

/-- A trace that is cleared is not among what is kept. -/
theorem Machine.Orderly.cleared {sources : Nat → Bytes} {now : Nat} {busy : Bool} {m : Machine}
    (h : Orderly sources now busy m) : Orderly sources now busy m.cleared :=
  ⟨⟨h.consistent.strings, h.consistent.modules, h.consistent.places, h.consistent.led⟩, h.settled,
    h.tick, h.executing⟩

namespace Duo

open Machine

variable (D : Duo)

/-- The machines, with what came before their traces. -/
def since (past past' : List Event) : Duo :=
  { D with left := D.left.after past, right := D.right.after past' }

/-- The right machine in both places. -/
def rightward : Duo :=
  { D with left := D.right, leftSources := D.rightSources, obeysLeft := D.obeysRight }

/-- The machines show the same but for their traces. -/
structure Aligned (busy : Bool) (m m' : Machine) : Prop where
  view : m.cleared.view D.lens (D.left.after []) = m'.cleared.view D.lens (D.right.after [])
  left : Orderly D.leftSources D.left.now busy m
  right : Orderly D.rightSources D.right.now busy m'

variable {D} {busy : Bool} {m m' m₁ m₁' y : Machine}

/-- The trace and the rest of what shows. -/
theorem view_after {L : Lens} (m : Machine) (V : Vantage) (past : List Event) :
    m.view L (V.after past) =
      { m.cleared.view L (V.after []) with trace := m.trace.map V.event ++ past } := rfl

/-- The right machine begins where the left one is. -/
theorem Aligned.paired (h : D.Aligned busy m m') :
    (D.since [] (m.trace.map D.left.event)).Paired busy m m'.cleared := by
  have hview : m.view D.lens (D.left.after []) =
      m'.cleared.view D.lens (D.right.after (m.trace.map D.left.event)) := by
    rw [view_after, h.view, List.append_nil]
    rfl
  exact ⟨hview, h.left, h.right.cleared⟩

/-- The right machine begins with a trace of its own, or with none. -/
theorem paired_cleared (h : Orderly D.rightSources D.right.now busy m') :
    (D.rightward.since (m'.trace.map D.right.event) []).Paired busy m'.cleared m' := by
  have hview : m'.cleared.view D.lens (D.right.after (m'.trace.map D.right.event)) =
      m'.view D.lens (D.right.after []) := by
    rw [view_after m', List.append_nil]
    rfl
  exact ⟨hview, h.cleared, h⟩

/-- Machines in step, seen from the other side. -/
theorem Paired.back {past past' : List Event} (h : (D.rightward.since past past').Paired busy m m') :
    (D.rightward.since past' past).Paired busy m' m := ⟨h.view.symm, h.right, h.left⟩

/-- What both machines come to, where the right one had no trace, and had one. -/
theorem aligned_of_paired (h : (D.since [] (m.trace.map D.left.event)).Paired busy m₁ y)
    (h' : (D.rightward.since (m'.trace.map D.right.event) []).Paired busy y m₁') :
    D.Aligned busy m₁ m₁' ∧ ∃ events,
      m₁.trace.map D.left.event = events ++ m.trace.map D.left.event ∧
      m₁'.trace.map D.right.event = events ++ m'.trace.map D.right.event := by
  refine ⟨⟨?_, h.left, h'.right⟩, y.trace.map D.right.event, ?_, ?_⟩
  · have hleft := congrArg (fun x : Machine => { x with trace := [] }) h.view
    have hright := congrArg (fun x : Machine => { x with trace := [] }) h'.view
    exact hleft.trans hright
  · have htrace := congrArg Machine.trace h.view
    exact (List.append_nil _).symm.trans htrace
  · have htrace := congrArg Machine.trace h'.view
    exact (List.append_nil _).symm.trans htrace.symm

/-- Where the left machine comes to an answer, so does the right one, and they show the same then. -/
def Carries {α : Type} (D : Duo) (busy : Bool) (F F' : Machine → Option (α × Machine)) : Prop :=
  ∀ ⦃m m' a m₁⦄, D.Paired busy m m' → F m = some (a, m₁) →
    ∃ m₁', F' m' = some (a, m₁') ∧ D.Paired busy m₁ m₁'

/-- **What shows the same does the same**, whatever the traces are. -/
theorem Aligned.follows {α : Type} {F : Machine → Option (α × Machine)} {a : α}
    (hm : D.Aligned busy m m') (hboth : ∀ past, (D.since [] past).Carries busy F F)
    (hright : ∀ past, (D.rightward.since past []).Carries busy F F) (h : F m = some (a, m₁)) :
    ∃ m₁', F m' = some (a, m₁') ∧ D.Aligned busy m₁ m₁' ∧ ∃ events,
      m₁.trace.map D.left.event = events ++ m.trace.map D.left.event ∧
      m₁'.trace.map D.right.event = events ++ m'.trace.map D.right.event := by
  obtain ⟨y, hy, hpaired⟩ := hboth _ hm.paired h
  obtain ⟨m₁', h', hpaired'⟩ := hright _ (paired_cleared hm.right) hy
  exact ⟨m₁', h', aligned_of_paired hpaired hpaired'⟩

end Duo

/-! ## Ticks begin and end -/

/-- Values that are changed alike where they are. -/
theorem OrdMap.mapValues_congr {κ α β : Type} [Ord κ] [Std.TransOrd κ] [Std.LawfulEqOrd κ] {f g : α → β}
    {m : OrdMap κ α} (h : ∀ k a, m.find? k = some a → f a = g a) : m.mapValues f = m.mapValues g := by
  apply OrdMap.ext_find?
  intro k
  rw [OrdMap.find?_mapValues, OrdMap.find?_mapValues]
  cases hfind : m.find? k with
  | none => rfl
  | some a => exact congrArg some (h k a hfind)

/-- A map shows only which ticks its threads noted. -/
theorem MapScope.recast_congr {σ : ModuleName → Nat} {g g' : Nat → Nat} {m : MapScope}
    (h : ∀ s ∈ m.modules, ∀ t ∈ s.threads, g t.lastTick = g' t.lastTick) :
    m.recast σ g = m.recast σ g' := by
  have hmodules : m.modules.map (ModuleScope.recast σ g) = m.modules.map (ModuleScope.recast σ g') := by
    refine List.map_congr_left fun s hs => ?_
    have hthreads : s.threads.map (Thread.recast σ g) = s.threads.map (Thread.recast σ g') := by
      refine List.map_congr_left fun t ht => ?_
      rw [Thread.recast, Thread.recast, h s hs t ht]
    rw [ModuleScope.recast, ModuleScope.recast, hthreads]
  rw [recast, recast, hmodules]

/-- A tree shows what its maps show. -/
theorem ScopeTree.recast_congr {σ : ModuleName → Nat} {g g' : Nat → Nat} {s : ScopeTree}
    (h : ∀ id map, s.map? id = some map → map.recast σ g = map.recast σ g') :
    s.recast σ g = s.recast σ g' := by
  have hglobals : s.globals.mapValues (GlobalScope.recast σ g) =
      s.globals.mapValues (GlobalScope.recast σ g') := by
    refine OrdMap.mapValues_congr fun a x hx => ?_
    have hhubs : x.hubs.mapValues (HubScope.recast σ g) = x.hubs.mapValues (HubScope.recast σ g') := by
      refine OrdMap.mapValues_congr fun b y hy => ?_
      have hmaps : y.maps.mapValues (MapScope.recast σ g) = y.maps.mapValues (MapScope.recast σ g') := by
        refine OrdMap.mapValues_congr fun c map hmap => ?_
        exact h ⟨a, b, c⟩ map (by simp [map?, hub?, global?, hx, hy, hmap])
      rw [HubScope.recast, HubScope.recast, hmaps]
    rw [GlobalScope.recast, GlobalScope.recast, hhubs]
  rw [recast, recast, hglobals]

/-- Ticks that are not later than the one before are told from the current one. -/
theorem MapScope.Settled.recast_stamp {id : ScopeId} {now : Nat} {m : MapScope} (h : m.Settled id now)
    (σ : ModuleName → Nat) :
    m.recast σ (stamp true (now + 1)) = m.recast σ (stamp false now) := by
  refine recast_congr fun s hs t ht => ?_
  have hpast := (h s hs t ht).past
  rw [stamp, stamp, if_neg (by omega), if_neg (by simp)]

namespace Vantage

/-- The vantage at some tick. -/
def during (V : Vantage) (told : Bool) (now : Nat) : Vantage := { V with told, now }

/-- At rest no thread shows when it had its last turn. -/
theorem stamp_of_not_told {V : Vantage} (h : V.told = false) : V.stamp = fun _ => 0 :=
  funext fun n => if_neg (by simp [h])

/-- Only what is in the tree is in sight. -/
def Genuine (V : Vantage) : Prop := ∀ s id map, (V.tree s).map? id = some map → s.map? id = some map

end Vantage

/-- The event but for serial numbers and noted ticks. -/
def Event.plain (e : Event) : Event := e.recast (fun _ => 0) fun _ => 0

theorem Vantage.plain_event (V : Vantage) (e : Event) : (V.event e).plain = e.plain := by
  cases e with
  | threadStart t => exact congrArg Event.threadStart (Thread.recast_recast ..)
  | threadStop t => exact congrArg Event.threadStop (Thread.recast_recast ..)
  | _ => rfl

/-- What happened, the newest first, but for serial numbers and noted ticks. -/
def Machine.story (m : Machine) : List Event := m.trace.map Event.plain

/-- The story is the trace without what the vantage tells apart. -/
theorem Machine.story_eq (V : Vantage) (m : Machine) : m.story = (m.trace.map V.event).map Event.plain := by
  rw [story, List.map_map]
  exact List.map_congr_left fun e _ => (V.plain_event e).symm

namespace Machine

variable {m m₁ m₂ m' m₁' m₂' : Machine}

/-- The same happened on the way from `m` to `m₁` and from `m'` to `m₁'`. -/
def SameNews (m m₁ m' m₁' : Machine) : Prop :=
  ∃ events, m₁.story = events ++ m.story ∧ m₁'.story = events ++ m'.story

/-- The news of two stretches are the same on both sides. -/
theorem SameNews.trans (h : SameNews m m₁ m' m₁') (h' : SameNews m₁ m₂ m₁' m₂') :
    SameNews m m₂ m' m₂' := by
  obtain ⟨events, hm, hm'⟩ := h
  obtain ⟨events', hm₁, hm₁'⟩ := h'
  exact ⟨events' ++ events, by rw [hm₁, hm, List.append_assoc], by rw [hm₁', hm', List.append_assoc]⟩

/-- What shows the same is the same but for serial numbers and noted ticks. -/
theorem sameNews_of_events {V V' : Vantage} (h : ∃ events,
    m₁.trace.map V.event = events ++ m.trace.map V.event ∧
    m₁'.trace.map V'.event = events ++ m'.trace.map V'.event) : SameNews m m₁ m' m₁' := by
  obtain ⟨events, hm, hm'⟩ := h
  refine ⟨events.map Event.plain, ?_, ?_⟩
  · rw [story_eq V, hm, List.map_append, ← story_eq]
  · rw [story_eq V', hm', List.map_append, ← story_eq]

end Machine

namespace Duo

open Machine

variable (D : Duo)

/-- The machines, each at some tick. -/
def during (told : Bool) (now now' : Nat) : Duo :=
  { D with left := D.left.during told now, right := D.right.during told now' }

variable {D} {now now' : Nat} {m m' : Machine}

/-- **A tick begins**, and no thread had its turn yet. -/
theorem Aligned.begins (hleft : D.left.Genuine) (hright : D.right.Genuine)
    (h : (D.during false now now').Aligned false m m') :
    (D.during true (now + 1) (now' + 1)).Aligned true { m with executing := true, tick := m.tick + 1 }
      { m' with executing := true, tick := m'.tick + 1 } := by
  have hview : ∀ {V : Vantage} {x : Machine} {sources n}, V.Genuine → Orderly sources n false x →
      { x with executing := true, tick := x.tick + 1 }.cleared.view D.lens
          ((V.during true (n + 1)).after []) =
        { x.cleared.view D.lens ((V.during false n).after []) with executing := true, tick := 1 } := by
    intro V x sources n hV hx
    have htree : (V.tree x.scopes).recast (fun _ => 0) (ScriptMachine.stamp true (n + 1)) =
        (V.tree x.scopes).recast (fun _ => 0) (ScriptMachine.stamp false n) := by
      refine ScopeTree.recast_congr fun id map hmap => ?_
      have hsettled := hx.settled id map (hV _ id map hmap)
      rw [hx.tick] at hsettled
      exact hsettled.recast_stamp _
    have htick : ScriptMachine.stamp true (n + 1) (x.tick + 1) = 1 := by
      rw [hx.tick]
      exact if_pos ⟨rfl, Nat.succ_pos n, rfl⟩
    have hparts := congr (congrArg (fun s k => { x.cleared.view D.lens ((V.during false n).after []) with
      executing := true, scopes := s, tick := k }) htree) htick
    exact hparts
  have hkept : ∀ {x : Machine} {sources n}, Orderly sources n false x →
      Orderly sources (n + 1) true { x with executing := true, tick := x.tick + 1 } := by
    intro x sources n hx
    exact ⟨⟨hx.consistent.strings, hx.consistent.modules, hx.consistent.places, hx.consistent.led⟩,
      fun id map hmap => (hx.settled id map hmap).mono (Nat.le_succ _), congrArg (· + 1) hx.tick, rfl⟩
  refine ⟨?_, hkept h.left, hkept h.right⟩
  have hrest := congrArg (fun x : Machine => { x with executing := true, tick := 1 }) h.view
  exact (hview hleft h.left).trans (hrest.trans (hview hright h.right).symm)

/-- **A tick ends**, and is not told any more. -/
theorem Aligned.ends (h : (D.during true now now').Aligned true m m') :
    (D.during false now now').Aligned false { m with executing := false } { m' with executing := false } := by
  have hview : ∀ (V : Vantage) (x : Machine) (n : Nat),
      { x with executing := false }.cleared.view D.lens ((V.during false n).after []) =
        { x.cleared.view D.lens ((V.during true n).after []) with
          executing := false
          scopes := (x.cleared.view D.lens ((V.during true n).after [])).scopes.recast
            (fun _ => 0) fun _ => 0
          tick := 0 } := by
    intro V x n
    have htree : ((V.tree x.scopes).recast (fun _ => 0) (ScriptMachine.stamp true n)).recast
        (fun _ => 0) (fun _ => 0) = (V.tree x.scopes).recast (fun _ => 0) (ScriptMachine.stamp false n) := by
      rw [ScopeTree.recast_recast]
      refine congrArg (ScopeTree.recast _ · _) (funext fun k => ?_)
      rw [stamp, if_neg (by simp)]
    have htick : 0 = ScriptMachine.stamp false n x.tick := (if_neg (by simp)).symm
    have hparts := congr (congrArg (fun s k => { x.cleared.view D.lens ((V.during true n).after []) with
      executing := false, scopes := s, tick := k }) htree) htick
    exact hparts.symm
  refine ⟨?_, h.left.setExecuting false, h.right.setExecuting false⟩
  have hrest := congrArg (fun x : Machine => { x with
    executing := false, scopes := x.scopes.recast (fun _ => 0) (fun _ => 0), tick := 0 }) h.view
  exact (hview D.left m now).trans (hrest.trans (hview D.right m' now').symm)

end Duo

end ScriptMachine
