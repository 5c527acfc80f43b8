import ScriptMachine.Machine.Turn

/-!
# What host functions may do

A host function is a program over the machine and the calling thread.  `HostProgram.Obeys A` says
that each of its own changes is one that `A` allows, whatever the scripts it starts and the ticks it
runs do in between.  What holds across the changes `A` allows, across starting scripts and across
ticks then holds across the whole program (`HostProgram.Obeys.run`).
-/

namespace ScriptMachine

/-- A rule for changes of a machine together with a thread. -/
abbrev ChangeRule := Machine → Thread → Machine → Thread → Prop

/-- Every change the program itself makes, from this machine and thread on, is allowed. -/
def HostProgram.Obeys {α : Type} (A : ChangeRule) : HostProgram α → Machine → Thread → Prop
  | .done _, _, _ => True
  | .look next, m, t => (next m t).Obeys A m t
  | .put m' t' next, m, t => A m t m' t' ∧ next.Obeys A m' t'
  | .startResult _ _ _ _ next, _, t => ∀ r m', (next r).Obeys A m' t
  | .tick next, _, t => ∀ m', next.Obeys A m' t

/-- Every change that a host function makes is allowed. -/
def Host.Obeys (host : Host) (A : ChangeRule) : Prop :=
  ∀ key args m t, (host key args).Obeys A m t

/-- A program that obeys a rule obeys every rule that allows more. -/
theorem HostProgram.Obeys.mono {α : Type} {A B : ChangeRule} {p : HostProgram α} {m : Machine}
    {t : Thread} (hAB : ∀ {m t m' t'}, A m t m' t' → B m t m' t') (hp : p.Obeys A m t) : p.Obeys B m t := by
  induction p generalizing m t with
  | done b => trivial
  | look next ih => exact ih m t hp
  | put m₁ t₁ next ih => exact ⟨hAB hp.1, ih hp.2⟩
  | startResult scope name args info next ih => exact fun r m' => ih r (hp r m')
  | tick next ih => exact fun m' => ih (hp m')

/-- A host that obeys a rule obeys every rule that allows more. -/
theorem Host.Obeys.mono {A B : ChangeRule} {host : Host} (hAB : ∀ {m t m' t'}, A m t m' t' → B m t m' t')
    (h : host.Obeys A) : host.Obeys B :=
  fun key args m t => HostProgram.Obeys.mono hAB (h key args m t)

/-- A change that keeps `R`, one after another, keeps `R`. -/
theorem HostProgram.Obeys.run {α : Type} {A R : ChangeRule} {turn : Turn}
    {exec : Machine → Option Machine} {p : HostProgram α} {m m' : Machine} {t t' : Thread} {a : α}
    (refl : ∀ m t, R m t m t)
    (trans : ∀ {m₁ t₁ m₂ t₂ m₃ t₃}, R m₁ t₁ m₂ t₂ → R m₂ t₂ m₃ t₃ → R m₁ t₁ m₃ t₃)
    (allowed : ∀ {m₁ t₁ m₂ t₂}, A m₁ t₁ m₂ t₂ → R m₁ t₁ m₂ t₂)
    (start : ∀ {m₁ t₁ scope name args info r m₂},
      m₁.startResult turn scope name args info = some (r, m₂) → R m₁ t₁ m₂ t₁)
    (tick : ∀ {m₁ t₁ m₂}, exec m₁ = some m₂ → R m₁ t₁ m₂ t₁)
    (hp : p.Obeys A m t) (h : p.run turn exec m t = some (m', t', a)) : R m t m' t' := by
  induction p generalizing m t with
  | done b =>
    cases h
    exact refl _ _
  | look next ih => exact ih m t hp h
  | put m₁ t₁ next ih => exact trans (allowed hp.1) (ih hp.2 h)
  | startResult scope name args info next ih =>
    simp only [HostProgram.run] at h
    split at h
    · cases h
    · rename_i r m₁ hstart
      exact trans (start hstart) (ih r (hp r m₁) h)
  | tick next ih =>
    simp only [HostProgram.run] at h
    split at h
    · cases h
    · rename_i m₁ htick
      exact trans (tick htick) (ih (hp m₁) h)

/-- A host whose functions do nothing. -/
def Machine.quietHost : Host := fun _ _ => .done false

/-- A host whose functions do nothing breaks no rule. -/
theorem Machine.obeys_quietHost (A : ChangeRule) : quietHost.Obeys A := fun _ _ _ _ => trivial

end ScriptMachine
