import Mathlib.Logic.Function.Basic
import ScriptMachine.Proofs.Machine.Seats

/-!
# A census of threads

A census follows threads through their lives.  Every thread has a label of its own from its start on,
so that threads are told apart even where a scope is made anew and gives out the same ids.  The census
knows which label sits in which seat of the tree, which labels are running, and what has been reported
of each label.  `Census.Step` is what can happen to a thread: it starts in a free seat, is taken out to
run, is put back, or is reported stopped and gone.  So in every census each label has one report of
its start, and one report of its end if and only if it neither sits in the tree nor runs
(`Census.Steps.proper`).
-/

namespace ScriptMachine

/-- Which threads there are, and what has been reported of them. -/
structure Census where
  /-- The label of the thread in a seat. -/
  seated : Seat → Option Nat := fun _ => none
  /-- The labels of the threads that run, the innermost first. -/
  running : List Nat := []
  /-- The reports with the labels of their threads, the newest first. -/
  history : List (Nat × Event) := []
  /-- The number of labels given so far. -/
  count : Nat := 0

namespace Census

/-- The threads in the reports that a label has started. -/
def starts (c : Census) (l : Nat) : List Thread :=
  c.history.filterMap fun
    | (k, .threadStart t) => if k = l then some t else none
    | _ => none

/-- The threads in the reports that a label has ended. -/
def stops (c : Census) (l : Nat) : List Thread :=
  c.history.filterMap fun
    | (k, .threadStop t) => if k = l then some t else none
    | _ => none

/-- The label sits in the tree or runs. -/
def Lives (c : Census) (l : Nat) : Prop := (∃ s, c.seated s = some l) ∨ l ∈ c.running

/-- The thread is the one that was started with the label. -/
def Is (c : Census) (l : Nat) (t : Thread) : Prop := ∃ t₀ ∈ c.starts l, t₀.Same t

/-- What happens to one thread. -/
inductive Step : Census → Census → Prop
  /-- A thread starts, and this is reported. -/
  | start {c : Census} {s : Seat} (t : Thread) (hs : c.seated s = none) :
    Step c { c with
      seated := Function.update c.seated s (some c.count)
      history := (c.count, .threadStart t) :: c.history
      count := c.count + 1 }
  /-- A thread is taken out of the tree to run. -/
  | take {c : Census} {s : Seat} {l : Nat} (hs : c.seated s = some l) :
    Step c { c with seated := Function.update c.seated s none, running := l :: c.running }
  /-- The thread that runs is put into the tree. -/
  | put {c : Census} {s : Seat} {l : Nat} {rest : List Nat} (hs : c.seated s = none)
      (hrunning : c.running = l :: rest) :
    Step c { c with seated := Function.update c.seated s (some l), running := rest }
  /-- A thread leaves the tree, and its end is reported. -/
  | stop {c : Census} {s : Seat} {l : Nat} {t : Thread} (hs : c.seated s = some l) (ht : c.Is l t)
      (hstate : t.state = .stopped) :
    Step c { c with
      seated := Function.update c.seated s none
      history := (l, .threadStop t) :: c.history }
  /-- The thread that runs is gone, and its end is reported. -/
  | lose {c : Census} {l : Nat} {rest : List Nat} {t : Thread} (hrunning : c.running = l :: rest)
      (ht : c.Is l t) (hstate : t.state = .stopped) :
    Step c { c with running := rest, history := (l, .threadStop t) :: c.history }

/-- What happens to threads, one after another. -/
inductive Steps : Census → Census → Prop
  | refl (c : Census) : Steps c c
  | tail {c c' c'' : Census} (h : Steps c c') (h' : Step c' c'') : Steps c c''

theorem Steps.trans {c c' c'' : Census} (h : Steps c c') (h' : Steps c' c'') : Steps c c'' := by
  induction h' with
  | refl => exact h
  | tail _ hstep ih => exact ih.tail hstep

theorem Step.steps {c c' : Census} (h : Step c c') : Steps c c' := (Steps.refl c).tail h

/-- Labels are in one place each, and reports are as they should be. -/
structure Proper (c : Census) : Prop where
  injective : ∀ s s' l, c.seated s = some l → c.seated s' = some l → s = s'
  nodup : c.running.Nodup
  apart : ∀ s l, c.seated s = some l → l ∉ c.running
  below : ∀ l, c.Lives l → l < c.count
  unborn : ∀ l, c.count ≤ l → c.starts l = [] ∧ c.stops l = []
  /-- Each label has one report of its start.  Its end is reported once if it is gone, and else not at
  all. -/
  reported : ∀ l < c.count, ∃ t₀, c.starts l = [t₀] ∧ (c.Lives l → c.stops l = []) ∧
    (¬ c.Lives l → ∃ t, c.stops l = [t] ∧ t₀.Same t ∧ t.state = .stopped)

/-- At first nobody is counted. -/
theorem proper_empty : Proper {} :=
  ⟨nofun, .nil, nofun, fun _ h => h.elim nofun nofun, fun _ _ => ⟨rfl, rfl⟩, nofun⟩

variable {c c' : Census} {l k : Nat} {t : Thread}

/-- The reports stay when a thread moves. -/
theorem Proper.move {seated : Seat → Option Nat} {running : List Nat} (h : c.Proper)
    (hinjective : ∀ s s' l, seated s = some l → seated s' = some l → s = s') (hnodup : running.Nodup)
    (hapart : ∀ s l, seated s = some l → l ∉ running)
    (hlives : ∀ l, ({ c with seated, running } : Census).Lives l ↔ c.Lives l) :
    ({ c with seated, running } : Census).Proper := by
  refine ⟨hinjective, hnodup, hapart, fun l hl => h.below l ((hlives l).1 hl), h.unborn, fun l hl => ?_⟩
  rw [hlives l]
  exact h.reported l hl

/-- A thread is gone, and its end is reported. -/
theorem Proper.leave {seated : Seat → Option Nat} {running : List Nat} (h : c.Proper)
    (hinjective : ∀ s s' l, seated s = some l → seated s' = some l → s = s') (hnodup : running.Nodup)
    (hapart : ∀ s l, seated s = some l → l ∉ running)
    (hlives : ∀ k, ({ c with seated, running } : Census).Lives k ↔ c.Lives k ∧ k ≠ l)
    (hl : c.Lives l) (ht : c.Is l t) (hstate : t.state = .stopped) :
    ({ c with seated, running, history := (l, .threadStop t) :: c.history } : Census).Proper := by
  have hstarts : ∀ k, starts { c with seated, running, history := (l, .threadStop t) :: c.history } k =
      c.starts k := fun k => rfl
  have hstops : ∀ k, stops { c with seated, running, history := (l, .threadStop t) :: c.history } k =
      if l = k then t :: c.stops k else c.stops k := by
    intro k
    by_cases heq : l = k <;> simp [stops, heq]
  have hlives' : ∀ k, Lives { c with seated, running, history := (l, .threadStop t) :: c.history } k ↔
      c.Lives k ∧ k ≠ l := hlives
  refine ⟨hinjective, hnodup, hapart, fun k hk => h.below k ((hlives' k).1 hk).1, fun k hk => ?_,
    fun k hk => ?_⟩
  · have hne : l ≠ k := fun heq => Nat.not_le.2 (h.below l hl) (heq ▸ hk)
    rw [hstarts, hstops, if_neg hne]
    exact h.unborn k hk
  · obtain ⟨t₀, hstart, hlive, hgone⟩ := h.reported k hk
    rw [hstarts, hstops, hlives']
    refine ⟨t₀, hstart, fun hk => ?_, fun hk => ?_⟩
    · rw [if_neg (Ne.symm hk.2)]
      exact hlive hk.1
    · by_cases heq : l = k
      · subst heq
        obtain ⟨t₁, ht₁, hsame⟩ := ht
        rw [hstart, List.mem_singleton] at ht₁
        subst ht₁
        rw [if_pos rfl, hlive hl]
        exact ⟨t, rfl, hsame, hstate⟩
      · rw [if_neg heq]
        exact hgone fun hlives => hk ⟨hlives, Ne.symm heq⟩

/-! ## One seat changes -/

section Seating

variable {seated : Seat → Option Nat} {s s' : Seat} {o : Option Nat}

/-- Who sits where, after one seat changed. -/
theorem update_eq_some_iff : Function.update seated s o s' = some k ↔
    s' = s ∧ o = some k ∨ s' ≠ s ∧ seated s' = some k := by
  by_cases heq : s' = s
  · subst heq
    simp
  · simp [heq]

/-- A label takes a free seat. -/
theorem exists_update_some (hs : seated s = none) :
    (∃ s', Function.update seated s (some l) s' = some k) ↔ (∃ s', seated s' = some k) ∨ k = l := by
  simp only [update_eq_some_iff]
  constructor
  · rintro ⟨s', ⟨-, hk⟩ | ⟨-, hk⟩⟩
    · exact .inr (Option.some.inj hk).symm
    · exact .inl ⟨s', hk⟩
  · rintro (⟨s', hs'⟩ | rfl)
    · refine ⟨s', .inr ⟨?_, hs'⟩⟩
      rintro rfl
      cases hs.symm.trans hs'
    · exact ⟨s, .inl ⟨rfl, rfl⟩⟩

/-- A label leaves its only seat. -/
theorem exists_update_none (hs : seated s = some l) (honly : ∀ s', seated s' = some l → s' = s) :
    (∃ s', Function.update seated s none s' = some k) ↔ (∃ s', seated s' = some k) ∧ k ≠ l := by
  simp only [update_eq_some_iff]
  constructor
  · rintro ⟨s', ⟨-, hk⟩ | ⟨hne, hk⟩⟩
    · cases hk
    · refine ⟨⟨s', hk⟩, ?_⟩
      rintro rfl
      exact hne (honly s' hk)
  · rintro ⟨⟨s', hs'⟩, hne⟩
    refine ⟨s', .inr ⟨?_, hs'⟩⟩
    rintro rfl
    exact hne (Option.some.inj (hs'.symm.trans hs))

/-- Labels have one seat each after one of them has taken its seat. -/
theorem Proper.injective_some (h : c.Proper) (hl : ∀ s', c.seated s' ≠ some l) (s₁ s₂ : Seat) (k : Nat)
    (h₁ : Function.update c.seated s (some l) s₁ = some k)
    (h₂ : Function.update c.seated s (some l) s₂ = some k) : s₁ = s₂ := by
  rcases update_eq_some_iff.1 h₁ with ⟨heq₁, hk₁⟩ | ⟨-, hk₁⟩ <;>
    rcases update_eq_some_iff.1 h₂ with ⟨heq₂, hk₂⟩ | ⟨-, hk₂⟩
  · exact heq₁.trans heq₂.symm
  · exact absurd (hk₂.trans hk₁.symm) (hl s₂)
  · exact absurd (hk₁.trans hk₂.symm) (hl s₁)
  · exact h.injective s₁ s₂ k hk₁ hk₂

/-- Labels have one seat each after one of them has left its seat. -/
theorem Proper.injective_none (h : c.Proper) (s₁ s₂ : Seat) (k : Nat)
    (h₁ : Function.update c.seated s none s₁ = some k)
    (h₂ : Function.update c.seated s none s₂ = some k) : s₁ = s₂ := by
  rcases update_eq_some_iff.1 h₁ with ⟨-, hk₁⟩ | ⟨-, hk₁⟩
  · cases hk₁
  · rcases update_eq_some_iff.1 h₂ with ⟨-, hk₂⟩ | ⟨-, hk₂⟩
    · cases hk₂
    · exact h.injective s₁ s₂ k hk₁ hk₂

end Seating

/-! ## What happens to one thread -/

/-- A thread starts with a label that is new. -/
theorem Proper.start {s : Seat} (h : c.Proper) (hs : c.seated s = none) (t : Thread) :
    ({ c with
        seated := Function.update c.seated s (some c.count)
        history := (c.count, .threadStart t) :: c.history
        count := c.count + 1 } : Census).Proper := by
  generalize hc' : ({ c with
      seated := Function.update c.seated s (some c.count)
      history := (c.count, .threadStart t) :: c.history
      count := c.count + 1 } : Census) = c'
  have hnew : ∀ l, c.Lives l → l ≠ c.count := fun l hl => Nat.ne_of_lt (h.below l hl)
  have hstarts : ∀ k, c'.starts k = if c.count = k then t :: c.starts k else c.starts k := by
    intro k
    subst hc'
    by_cases heq : c.count = k <;> simp [starts, heq]
  have hstops : ∀ k, c'.stops k = c.stops k := by
    intro k
    subst hc'
    rfl
  have hlives : ∀ k, c'.Lives k ↔ c.Lives k ∨ k = c.count := by
    intro k
    subst hc'
    exact (or_congr_left (exists_update_some hs)).trans or_right_comm
  have hcount : c'.count = c.count + 1 := by rw [← hc']
  refine ⟨?_, ?_, ?_, fun l hl => ?_, fun l hl => ?_, fun l hl => ?_⟩
  · subst hc'
    exact h.injective_some fun s' hs' => hnew _ (.inl ⟨s', hs'⟩) rfl
  · subst hc'
    exact h.nodup
  · subst hc'
    intro s₁ l h₁ hl
    rcases update_eq_some_iff.1 h₁ with ⟨-, h₁⟩ | ⟨-, h₁⟩
    · exact hnew l (.inr hl) (Option.some.inj h₁).symm
    · exact h.apart s₁ l h₁ hl
  · rw [hcount]
    rcases (hlives l).1 hl with hl | rfl
    · exact Nat.lt_succ_of_lt (h.below l hl)
    · exact Nat.lt_succ_self _
  · rw [hcount] at hl
    rw [hstarts, hstops, if_neg (Nat.ne_of_lt hl)]
    exact h.unborn l (Nat.le_of_succ_le hl)
  · rw [hcount] at hl
    rw [hstarts, hstops, hlives]
    rcases Nat.eq_or_lt_of_le (Nat.le_of_lt_succ hl) with rfl | hlt
    · obtain ⟨hstart, hstop⟩ := h.unborn c.count (Nat.le_refl _)
      rw [if_pos rfl, hstart]
      exact ⟨t, rfl, fun _ => hstop, fun hnot => absurd (.inr rfl) hnot⟩
    · rw [if_neg (Nat.ne_of_gt hlt)]
      obtain ⟨t₀, hstart, hlive, hgone⟩ := h.reported l hlt
      refine ⟨t₀, hstart, fun hl => hlive (hl.resolve_right (Nat.ne_of_lt hlt)), fun hnot => ?_⟩
      exact hgone fun hl => hnot (.inl hl)

/-- A thread is taken out of its seat to run. -/
theorem Proper.take {s : Seat} (h : c.Proper) (hs : c.seated s = some l) :
    ({ c with seated := Function.update c.seated s none, running := l :: c.running } : Census).Proper := by
  have honly : ∀ s', c.seated s' = some l → s' = s := fun s' hs' => h.injective s' s l hs' hs
  refine h.move h.injective_none (List.nodup_cons.2 ⟨h.apart s l hs, h.nodup⟩) (fun s₁ k h₁ hk => ?_)
    fun k => ?_
  · rcases update_eq_some_iff.1 h₁ with ⟨-, h₁⟩ | ⟨hne, h₁⟩
    · cases h₁
    · rcases List.mem_cons.1 hk with rfl | hk
      · exact hne (honly s₁ h₁)
      · exact h.apart s₁ k h₁ hk
  · show (∃ s', Function.update c.seated s none s' = some k) ∨ k ∈ l :: c.running ↔ _
    rw [exists_update_none hs honly, List.mem_cons]
    constructor
    · rintro (⟨hk, -⟩ | rfl | hk)
      · exact .inl hk
      · exact .inl ⟨s, hs⟩
      · exact .inr hk
    · rintro (hk | hk)
      · by_cases heq : k = l
        · exact .inr (.inl heq)
        · exact .inl ⟨hk, heq⟩
      · exact .inr (.inr hk)

/-- The thread that runs takes a free seat. -/
theorem Proper.put {s : Seat} {rest : List Nat} (h : c.Proper) (hs : c.seated s = none)
    (hrunning : c.running = l :: rest) :
    ({ c with seated := Function.update c.seated s (some l), running := rest } : Census).Proper := by
  obtain ⟨hhead, hnodup⟩ := List.nodup_cons.1 (hrunning ▸ h.nodup)
  have hapart : ∀ s' k, c.seated s' = some k → k ≠ l ∧ k ∉ rest := by
    intro s' k hk
    have hout := h.apart s' k hk
    rwa [hrunning, List.mem_cons, not_or] at hout
  refine h.move (h.injective_some fun s' hs' => (hapart s' l hs').1 rfl) hnodup (fun s₁ k h₁ hk => ?_)
    fun k => ?_
  · rcases update_eq_some_iff.1 h₁ with ⟨-, h₁⟩ | ⟨-, h₁⟩
    · exact hhead (Option.some.inj h₁ ▸ hk)
    · exact (hapart s₁ k h₁).2 hk
  · show (∃ s', Function.update c.seated s (some l) s' = some k) ∨ k ∈ rest ↔ _ ∨ k ∈ c.running
    rw [exists_update_some hs, hrunning, List.mem_cons, or_assoc]

/-- A thread leaves its seat, and its end is reported. -/
theorem Proper.stop {s : Seat} (h : c.Proper) (hs : c.seated s = some l) (ht : c.Is l t)
    (hstate : t.state = .stopped) :
    ({ c with
        seated := Function.update c.seated s none
        history := (l, .threadStop t) :: c.history } : Census).Proper := by
  have honly : ∀ s', c.seated s' = some l → s' = s := fun s' hs' => h.injective s' s l hs' hs
  refine h.leave h.injective_none h.nodup (fun s₁ k h₁ => ?_) (fun k => ?_) (.inl ⟨s, hs⟩) ht hstate
  · rcases update_eq_some_iff.1 h₁ with ⟨-, h₁⟩ | ⟨-, h₁⟩
    · cases h₁
    · exact h.apart s₁ k h₁
  · show (∃ s', Function.update c.seated s none s' = some k) ∨ k ∈ c.running ↔ _
    have hne : k ∈ c.running → k ≠ l := fun hk heq => h.apart s l hs (heq ▸ hk)
    rw [exists_update_none hs honly, Lives, or_and_right, and_iff_left_of_imp hne]

/-- The thread that runs is gone, and its end is reported. -/
theorem Proper.lose {rest : List Nat} (h : c.Proper) (hrunning : c.running = l :: rest) (ht : c.Is l t)
    (hstate : t.state = .stopped) :
    ({ c with running := rest, history := (l, .threadStop t) :: c.history } : Census).Proper := by
  obtain ⟨hhead, hnodup⟩ := List.nodup_cons.1 (hrunning ▸ h.nodup)
  have hmem : ∀ k, k ∈ c.running ↔ k = l ∨ k ∈ rest := by
    intro k
    rw [hrunning, List.mem_cons]
  refine h.leave h.injective hnodup (fun s k hk hrest => h.apart s k hk ((hmem k).2 (.inr hrest)))
    (fun k => ⟨?_, ?_⟩) (.inr ((hmem l).2 (.inl rfl))) ht hstate
  · rintro (⟨s', hs'⟩ | hk)
    · refine ⟨.inl ⟨s', hs'⟩, ?_⟩
      rintro rfl
      exact h.apart s' k hs' ((hmem k).2 (.inl rfl))
    · refine ⟨.inr ((hmem k).2 (.inr hk)), ?_⟩
      rintro rfl
      exact hhead hk
  · rintro ⟨⟨s', hs'⟩ | hk, hne⟩
    · exact .inl ⟨s', hs'⟩
    · exact .inr (((hmem k).1 hk).resolve_left hne)

/-- **One step** keeps a census proper. -/
theorem Step.proper (hstep : Step c c') (h : c.Proper) : c'.Proper := by
  cases hstep with
  | start t hs => exact h.start hs t
  | take hs => exact h.take hs
  | put hs hrunning => exact h.put hs hrunning
  | stop hs ht hstate => exact h.stop hs ht hstate
  | lose hrunning ht hstate => exact h.lose hrunning ht hstate

/-- **Every census is proper.** -/
theorem Steps.proper (h : Steps c c') (hc : c.Proper) : c'.Proper := by
  induction h with
  | refl => exact hc
  | tail _ hstep ih => exact hstep.proper ih

/-- A label stays that of its thread. -/
theorem Steps.is (h : Steps c c') (ht : c.Is l t) : c'.Is l t := by
  induction h with
  | refl => exact ht
  | @tail c₁ c₂ _ hstep ih =>
    obtain ⟨t₀, ht₀, hsame⟩ := ih
    refine ⟨t₀, ?_, hsame⟩
    cases hstep with
    | start t hs =>
      simp only [starts, List.filterMap_cons]
      split
      · exact ht₀
      · exact List.mem_cons_of_mem _ ht₀
    | take hs => exact ht₀
    | put hs hrunning => exact ht₀
    | stop hs ht hstate => exact ht₀
    | lose hrunning ht hstate => exact ht₀

/-! ## Trees that fit a census -/

/-- The thread has the label, and is in no state in which threads are not. -/
structure Has (c : Census) (l : Nat) (t : Thread) : Prop where
  is : c.Is l t
  real : t.isPlaceholder = false
  awake : t.state ≠ .inactive

/-- The census fits a tree in whose seats the threads `sit` are, the threads that run, and the reports
there have been. -/
structure Fits (c : Census) (sit : Seat → Option Thread) (stack : List Thread)
    (reports : List Event) : Prop where
  seated : ∀ s l, c.seated s = some l → ∃ t, sit s = some t ∧ c.Has l t
  vacant : ∀ s t, c.seated s = none → sit s = some t → t.isPlaceholder = true
  running : List.Forall₂ c.Has c.running stack
  reports : reports = c.history.map Prod.snd

variable {sit sit' : Seat → Option Thread} {stack : List Thread} {reports : List Event} {s : Seat}
  {u v : Thread}

/-- Where nobody is, nobody is counted. -/
theorem fits_empty : Fits {} (fun _ => none) [] [] := ⟨nofun, nofun, .nil, rfl⟩

/-- Those who are counted stay so. -/
theorem Has.steps (h : c.Has l t) (hsteps : Steps c c') : c'.Has l t :=
  ⟨hsteps.is h.is, h.real, h.awake⟩

/-- The thread goes on. -/
theorem Has.same (h : c.Has l t) (hsame : t.Same u) (hawake : u.state ≠ .inactive) : c.Has l u := by
  obtain ⟨⟨t₀, ht₀, hsame₀⟩, hreal, -⟩ := h
  exact ⟨⟨t₀, ht₀, hsame₀.trans hsame⟩, hsame.isPlaceholder_eq.trans hreal, hawake⟩

/-- The state of a thread does not matter for its count. -/
theorem Has.restates (h : c.Has l t) (hr : t.Restates u) : c.Has l u := by
  refine h.same hr.same ?_
  rcases hr with rfl | ⟨state, hstate, rfl⟩
  · exact h.awake
  · exact hstate

/-- Every thread in the tree is counted. -/
theorem Fits.has (h : c.Fits sit stack reports) (hu : sit s = some u) (hreal : u.isPlaceholder = false) :
    ∃ l, c.seated s = some l ∧ c.Has l u := by
  cases hs : c.seated s with
  | none => exact absurd (hreal.symm.trans (h.vacant s u hs hu)) (by decide)
  | some l =>
    obtain ⟨t, ht, hhas⟩ := h.seated s l hs
    cases hu.symm.trans ht
    exact ⟨l, rfl, hhas⟩

/-- Threads in the tree are put into states. -/
theorem Fits.restate (h : c.Fits sit stack reports)
    (hsit : ∀ s, Option.Rel Thread.Restates (sit s) (sit' s)) : c.Fits sit' stack reports := by
  refine ⟨fun s l hs => ?_, fun s t' hs ht' => ?_, h.running, h.reports⟩
  · obtain ⟨t, ht, hhas⟩ := h.seated s l hs
    have hrel := hsit s
    rw [ht] at hrel
    generalize hb : sit' s = b at hrel
    cases hrel with
    | some hr => exact ⟨_, rfl, hhas.restates hr⟩
  · have hrel := hsit s
    rw [ht'] at hrel
    generalize ha : sit s = a at hrel
    cases hrel with
    | some hr =>
      rw [hr.same.isPlaceholder_eq]
      exact h.vacant s _ hs ha

/-- The innermost of the threads that run goes on. -/
theorem Fits.proceed (h : c.Fits sit (t :: stack) reports) (hsame : t.Same u)
    (hawake : t.state ≠ .inactive → u.state ≠ .inactive) : c.Fits sit (u :: stack) reports := by
  obtain ⟨l, rest, hhas, hrest, heq⟩ := List.forall₂_cons_right_iff.1 h.running
  refine ⟨h.seated, h.vacant, ?_, h.reports⟩
  rw [heq]
  exact .cons (hhas.same hsame (hawake hhas.awake)) hrest

/-- One seat changes, and with it the census. -/
theorem Fits.update (h : c.Fits sit stack reports) (hsteps : Steps c c')
    {o : Option Nat} {p : Option Thread} (hseated : c'.seated = Function.update c.seated s o)
    (hsit : sit' = Function.update sit s p)
    (hnew : ∀ l, o = some l → ∃ t, p = some t ∧ c'.Has l t)
    (hvacant : ∀ t, o = none → p = some t → t.isPlaceholder = true) :
    (∀ s l, c'.seated s = some l → ∃ t, sit' s = some t ∧ c'.Has l t) ∧
      ∀ s t, c'.seated s = none → sit' s = some t → t.isPlaceholder = true := by
  subst hsit
  rw [hseated]
  constructor
  · intro s' l hs'
    by_cases heq : s' = s
    · subst heq
      rw [Function.update_self] at hs' ⊢
      exact hnew l hs'
    · rw [Function.update_of_ne heq] at hs' ⊢
      obtain ⟨t, ht, hhas⟩ := h.seated s' l hs'
      exact ⟨t, ht, hhas.steps hsteps⟩
  · intro s' t hs' ht
    by_cases heq : s' = s
    · subst heq
      rw [Function.update_self] at hs' ht
      exact hvacant t hs' ht
    · rw [Function.update_of_ne heq] at hs' ht
      exact h.vacant s' t hs' ht

/-- Threads that run are counted in later censuses too. -/
theorem Fits.stack_steps (h : c.Fits sit stack reports) (hsteps : Steps c c') :
    List.Forall₂ c'.Has c.running stack :=
  h.running.imp fun _ _ hhas => hhas.steps hsteps

/-- A thread in the tree goes on. -/
theorem Fits.renew (h : c.Fits sit stack reports) (hu : sit s = some u) (hreal : u.isPlaceholder = false)
    (hsame : u.Same v) (hawake : v.state ≠ .inactive) :
    c.Fits (Function.update sit s (some v)) stack reports := by
  obtain ⟨l, hl, hhas⟩ := h.has hu hreal
  obtain ⟨hseated, hvacant⟩ := h.update (.refl c) (o := some l) (by rw [← hl, Function.update_eq_self])
    rfl (p := some v) (fun k hk => by
      cases hk
      exact ⟨v, rfl, hhas.same hsame hawake⟩) nofun
  exact ⟨hseated, hvacant, h.running, h.reports⟩

/-- A thread starts. -/
theorem Fits.start (h : c.Fits sit stack reports) (hs : sit s = none) (hreal : t.isPlaceholder = false)
    (hawake : t.state ≠ .inactive) :
    ∃ c', Steps c c' ∧ c'.Fits (Function.update sit s (some t)) stack (.threadStart t :: reports) := by
  have hfree : c.seated s = none := by
    cases hl : c.seated s with
    | none => rfl
    | some l =>
      obtain ⟨u, hu, -⟩ := h.seated s l hl
      cases hs.symm.trans hu
  have hsteps := (Step.start t hfree).steps
  refine ⟨_, hsteps, ?_⟩
  obtain ⟨hseated, hvacant⟩ := h.update hsteps rfl rfl (p := some t) (fun l hl => by
    refine ⟨t, rfl, ⟨t, ?_, .refl t⟩, hreal, hawake⟩
    rw [← Option.some.inj hl]
    simp [starts]) nofun
  exact ⟨hseated, hvacant, h.stack_steps hsteps, congrArg _ h.reports⟩

/-- A thread is taken out of the tree to run; another one stands in for it. -/
theorem Fits.take (h : c.Fits sit stack reports) (hu : sit s = some u) (hreal : u.isPlaceholder = false)
    (hsame : u.Same v) (hawake : v.state ≠ .inactive) {p : Thread} (hp : p.isPlaceholder = true) :
    ∃ c', Steps c c' ∧ c'.Fits (Function.update sit s (some p)) (v :: stack) reports := by
  obtain ⟨l, hl, hhas⟩ := h.has hu hreal
  have hsteps := (Step.take hl).steps
  refine ⟨_, hsteps, ?_⟩
  obtain ⟨hseated, hvacant⟩ := h.update hsteps rfl rfl (p := some p) nofun
    fun t _ ht => by
      cases ht
      exact hp
  exact ⟨hseated, hvacant, .cons ((hhas.same hsame hawake).steps hsteps) (h.stack_steps hsteps), h.reports⟩

/-- The thread that runs takes the seat of one that stands in. -/
theorem Fits.put (h : c.Fits sit (u :: stack) reports) {p : Thread} (hs : sit s = some p)
    (hp : p.isPlaceholder = true) (hr : u.Restates v) :
    ∃ c', Steps c c' ∧ c'.Fits (Function.update sit s (some v)) stack reports := by
  obtain ⟨l, rest, hhas, hrest, heq⟩ := List.forall₂_cons_right_iff.1 h.running
  have hfree : c.seated s = none := by
    cases hl : c.seated s with
    | none => rfl
    | some k =>
      obtain ⟨t, ht, hhas'⟩ := h.seated s k hl
      cases hs.symm.trans ht
      exact absurd (hp.symm.trans hhas'.real) (by decide)
  have hsteps := (Step.put hfree heq).steps
  refine ⟨_, hsteps, ?_⟩
  obtain ⟨hseated, hvacant⟩ := h.update hsteps rfl rfl (p := some v) (fun k hk => by
    cases hk
    exact ⟨v, rfl, (hhas.restates hr).steps hsteps⟩) nofun
  exact ⟨hseated, hvacant, hrest.imp fun _ _ hhas => hhas.steps hsteps, h.reports⟩

/-- A thread leaves the tree. -/
theorem Fits.stop (h : c.Fits sit stack reports) (hu : sit s = some u) (hreal : u.isPlaceholder = false)
    (hsame : u.Same v) (hstate : v.state = .stopped) :
    ∃ c', Steps c c' ∧ c'.Fits (Function.update sit s none) stack (.threadStop v :: reports) := by
  obtain ⟨l, hl, hhas⟩ := h.has hu hreal
  have hsteps := (Step.stop hl (hhas.same hsame (by rw [hstate]; decide)).is hstate).steps
  refine ⟨_, hsteps, ?_⟩
  obtain ⟨hseated, hvacant⟩ := h.update hsteps rfl rfl (p := none) nofun nofun
  exact ⟨hseated, hvacant, h.stack_steps hsteps, congrArg _ h.reports⟩

/-- The thread that runs is gone. -/
theorem Fits.lose (h : c.Fits sit (u :: stack) reports) :
    ∃ c', Steps c c' ∧ c'.Fits sit stack (.threadStop { u with state := .stopped } :: reports) := by
  obtain ⟨l, rest, hhas, hrest, heq⟩ := List.forall₂_cons_right_iff.1 h.running
  have hstopped : c.Has l { u with state := .stopped } := hhas.restates (.inr ⟨.stopped, by decide, rfl⟩)
  have hsteps := (Step.lose heq hstopped.is rfl).steps
  refine ⟨_, hsteps, fun s l hs => ?_, h.vacant, hrest.imp fun _ _ hhas => hhas.steps hsteps,
    congrArg _ h.reports⟩
  obtain ⟨t, ht, hhas'⟩ := h.seated s l hs
  exact ⟨t, ht, hhas'.steps hsteps⟩

/-- The seat of a thread that stands in is gone. -/
theorem Fits.forget (h : c.Fits sit stack reports) {p : Thread} (hs : sit s = some p)
    (hp : p.isPlaceholder = true) : c.Fits (Function.update sit s none) stack reports := by
  refine ⟨fun s' l hs' => ?_, fun s' t hs' ht => ?_, h.running, h.reports⟩
  · obtain ⟨t, ht, hhas⟩ := h.seated s' l hs'
    refine ⟨t, ?_, hhas⟩
    rw [Function.update_of_ne, ht]
    rintro rfl
    cases hs.symm.trans ht
    exact absurd (hp.symm.trans hhas.real) (by decide)
  · by_cases heq : s' = s
    · subst heq
      rw [Function.update_self] at ht
      cases ht
    · rw [Function.update_of_ne heq] at ht
      exact h.vacant s' t hs' ht

/-- **Seats go away** together with their threads, whose ends are reported one after another. -/
theorem Fits.clear {gone : List (Seat × Thread)} (h : c.Fits sit stack reports)
    (hgone : ∀ p ∈ gone, sit p.1 = some p.2) (hnodup : (gone.map Prod.fst).Nodup) :
    ∃ c', Steps c c' ∧ c'.Fits (fun s => if s ∈ gone.map Prod.fst then none else sit s) stack
      (((gone.map Prod.snd).filter (!·.isPlaceholder)).foldl
        (fun reports t => .threadStop { t with state := .stopped } :: reports) reports) := by
  induction gone generalizing c sit reports with
  | nil => exact ⟨c, .refl c, by simpa using h⟩
  | cons p rest ih =>
    obtain ⟨hhead, hrest⟩ := List.nodup_cons.1 hnodup
    have hp := hgone p List.mem_cons_self
    have hlater : ∀ q ∈ rest, Function.update sit p.1 none q.1 = some q.2 := by
      intro q hq
      have hne : q.1 ≠ p.1 := fun heq => hhead (heq ▸ List.mem_map_of_mem hq)
      rw [Function.update_of_ne hne]
      exact hgone q (List.mem_cons_of_mem _ hq)
    have hsit : (fun s => if s ∈ rest.map Prod.fst then none else Function.update sit p.1 none s) =
        fun s => if s ∈ (p :: rest).map Prod.fst then none else sit s := by
      funext s
      by_cases heq : s = p.1
      · subst heq
        simp
      · simp only [Function.update_of_ne heq, List.map_cons, List.mem_cons, heq, false_or]
    rw [← hsit, List.map_cons]
    cases hplace : p.2.isPlaceholder with
    | true =>
      rw [List.filter_cons_of_neg (by simp [hplace])]
      exact ih (h.forget hp hplace) hlater hrest
    | false =>
      rw [List.filter_cons_of_pos (by simp [hplace])]
      obtain ⟨c₁, hsteps, hc₁⟩ := h.stop hp hplace (Thread.Restates.same (.inr ⟨.stopped, by decide, rfl⟩)) rfl
      obtain ⟨c₂, hsteps', hc₂⟩ := ih hc₁ hlater hrest
      exact ⟨c₂, hsteps.trans hsteps', hc₂⟩

end Census

end ScriptMachine
