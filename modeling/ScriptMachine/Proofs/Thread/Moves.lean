import ScriptMachine.Machine.Step
import ScriptMachine.Proofs.Machine.HostPrograms

/-!
# What an instruction does to its thread

Most instructions leave a thread where it is in its script: the code pointer, the frames and the
extents of the locals stay, and only data change (`Thread.Stays`).  The others jump, call, return or
start over.  `Thread.Moves` lists the five, and `step_moves` says that there is nothing else,
whatever the machine is and whatever the turns and ticks within the instruction do.  Everything that
has to hold of a thread from one instruction to the next is proved from this list.
-/

namespace ScriptMachine

namespace Thread

/-- The thread is at the same place of the same script, with locals of the same extent. -/
structure Stays (t t' : Thread) : Prop where
  id : t'.id = t.id
  module : t'.module = t.module
  scope : t'.scope = t.scope
  moduleIndex : t'.moduleIndex = t.moduleIndex
  scriptIndex : t'.scriptIndex = t.scriptIndex
  codePtr : t'.codePtr = t.codePtr
  frames : t'.frames = t.frames
  regs : t'.regs.size = t.regs.size
  arrs : t'.arrs.size = t.arrs.size
  regBase : t'.regBase = t.regBase
  arrBase : t'.arrBase = t.arrBase
  lastTick : t'.lastTick = t.lastTick

namespace Stays

variable {t t' t'' : Thread}

theorem refl (t : Thread) : Stays t t := ⟨rfl, rfl, rfl, rfl, rfl, rfl, rfl, rfl, rfl, rfl, rfl, rfl⟩

theorem trans (h : Stays t t') (h' : Stays t' t'') : Stays t t'' where
  id := h'.id.trans h.id
  module := h'.module.trans h.module
  scope := h'.scope.trans h.scope
  moduleIndex := h'.moduleIndex.trans h.moduleIndex
  scriptIndex := h'.scriptIndex.trans h.scriptIndex
  codePtr := h'.codePtr.trans h.codePtr
  frames := h'.frames.trans h.frames
  regs := h'.regs.trans h.regs
  arrs := h'.arrs.trans h.arrs
  regBase := h'.regBase.trans h.regBase
  arrBase := h'.arrBase.trans h.arrBase
  lastTick := h'.lastTick.trans h.lastTick

theorem push (h : Stays t t') (w : Word) : Stays t (t'.push w) :=
  h.trans ⟨rfl, rfl, rfl, rfl, rfl, rfl, rfl, rfl, rfl, rfl, rfl, rfl⟩

theorem pop (h : Stays t t') : Stays t t'.pop.2 := by
  unfold Thread.pop
  split
  · exact h
  · exact h.trans ⟨rfl, rfl, rfl, rfl, rfl, rfl, rfl, rfl, rfl, rfl, rfl, rfl⟩

theorem setState (h : Stays t t') (s : ThreadState) : Stays t { t' with state := s } :=
  h.trans ⟨rfl, rfl, rfl, rfl, rfl, rfl, rfl, rfl, rfl, rfl, rfl, rfl⟩

theorem setDelay (h : Stays t t') (w : Word) : Stays t { t' with delay := w } :=
  h.trans ⟨rfl, rfl, rfl, rfl, rfl, rfl, rfl, rfl, rfl, rfl, rfl, rfl⟩

theorem setPrinted (h : Stays t t') (b : Array UInt8) : Stays t { t' with printed := b } :=
  h.trans ⟨rfl, rfl, rfl, rfl, rfl, rfl, rfl, rfl, rfl, rfl, rfl, rfl⟩

end Stays

/-- What an instruction with some operands can do to its thread. -/
inductive Moves (module : LoadedModule) (op : Opcode) (operands : List Word) :
    Thread → Thread → Prop
  /-- Data change. -/
  | stay {t t'} (h : Stays t t') : Moves module op operands t t'
  /-- A jump to the first operand. -/
  | jump {t t'} (hop : op = .jump ∨ op = .jumpTrue ∨ op = .jumpZero) (h : Stays t t') :
    Moves module op operands t { t' with codePtr := (operands.headD 0).toNat }
  /-- A jump to the second operand. -/
  | jumpEqual {t t'} (hop : op = .jumpEqual) (h : Stays t t') :
    Moves module op operands t { t' with codePtr := (operands.tail.headD 0).toNat }
  | call {t} (f : Function) (hop : op = .call ∨ op = .callDiscard)
      (hf : module.functions[(operands.headD 0).toNat]? = some f) (discard : Bool) :
    Moves module op operands t (t.call f (operands.headD 0) discard)
  | ret {t t'} (hop : op = .ret ∨ op = .retValue) (h : Stays t t') (value : Option Word) :
    Moves module op operands t (t'.ret value)
  /-- The script starts over. -/
  | reset {t} (s : Script) (hs : module.scripts[t.scriptIndex]? = some s) :
    Moves module op operands t (t.reset s)

end Thread

namespace Machine

open Thread

variable {m m' : Machine} {t t' : Thread}

/-- Access to variables leaves a thread where it is. -/
theorem stays_accessVar (m : Machine) (t : Thread) (level : Level) (action : VarAction) (i : Word) :
    Stays t (m.accessVar t level action i).2 := by
  have hregs : ∀ {t t' : Thread} (k : Nat) (f : Word → Word), Stays t t' →
      Stays t { t' with regs := t'.regs.modify k f } := fun k f h =>
    h.trans ⟨rfl, rfl, rfl, rfl, rfl, rfl, rfl, by simp, rfl, rfl, rfl, rfl⟩
  have harrs : ∀ {t t' : Thread} (k : Nat) (f : Sparse → Sparse), Stays t t' →
      Stays t { t' with arrs := t'.arrs.modify k f } := fun k f h =>
    h.trans ⟨rfl, rfl, rfl, rfl, rfl, rfl, rfl, rfl, by simp, rfl, rfl, rfl⟩
  have hrefl := Stays.refl t
  cases action with
  | pushReg => exact hrefl.push _
  | dropReg =>
    cases level with
    | thread => exact hregs _ _ hrefl.pop
    | _ => exact hrefl.pop
  | incReg =>
    cases level with
    | thread => exact hregs _ _ hrefl
    | _ => exact hrefl
  | decReg =>
    cases level with
    | thread => exact hregs _ _ hrefl
    | _ => exact hrefl
  | pushArr => cases level <;> exact hrefl.pop.push _
  | dropArr =>
    cases level with
    | thread => exact harrs _ _ hrefl.pop.pop
    | _ =>
      simp only [accessVar]
      split
      · exact hrefl.pop.pop
      · exact hrefl.pop.pop

/-- A start on its behalf leaves a thread where it is. -/
theorem stays_startFrom {turn : Turn} {mode : StartMode} {name : Option ScriptName}
    {args : List Word} (h : m.startFrom turn t mode name args = some (m', t')) : Stays t t' := by
  have hrefl := Stays.refl t
  unfold startFrom at h
  cases name with
  | none =>
    cases h
    exact hrefl.push _
  | some name =>
    cases mode with
    | normal =>
      simp only at h
      split at h
      · cases h
        exact hrefl.push _
      · cases h
        exact hrefl.push _
    | forced =>
      cases h
      split
      · exact (hrefl.setState _).push _
      · exact hrefl.push _
    | result =>
      obtain ⟨⟨r, m₁⟩, -, heq⟩ := Option.map_eq_some_iff.1 h
      cases heq
      exact hrefl.push _

/-- Halting a script leaves a thread where it is. -/
theorem stays_haltFrom (m : Machine) (t : Thread) (pause : Bool) (name : Option ScriptName) :
    Stays t (m.haltFrom t pause name).2 := by
  have hrefl := Stays.refl t
  cases name with
  | none => exact hrefl.push _
  | some name =>
    simp only [haltFrom]
    generalize (if pause = true then ThreadState.paused else ThreadState.stopped) = state
    split
    · exact (hrefl.setState _).push _
    · exact hrefl.push _

/-- Printing an array leaves a thread where it is. -/
theorem stays_printArray (m : Machine) (t : Thread) (i : Word) : Stays t (m.printArray t i).2 := by
  have hrefl := Stays.refl t
  unfold printArray
  split
  · exact hrefl
  · split <;> exact hrefl.setPrinted _

theorem stays_of_some_eq {p : Machine × Thread} (hp : Stays t p.2) (h : some p = some (m', t')) :
    Stays t t' := by
  cases h
  exact hp

/-- A built-in function leaves a thread where it is. -/
theorem stays_callBuiltin {turn : Turn} {f : Builtin} {args : List Word}
    (h : m.callBuiltin turn t f args = some (m', t')) : Stays t t' := by
  have hrefl := Stays.refl t
  cases f <;> simp only [callBuiltin] at h
  case nop => cases h; exact hrefl
  case printBegin => cases h; exact hrefl.setPrinted _
  case printString => cases h; exact hrefl.setPrinted _
  case printNumber => cases h; exact hrefl.setPrinted _
  case printChar => cases h; exact hrefl.setPrinted _
  case printFixed => cases h; exact hrefl.setPrinted _
  case printEnd => cases h; exact hrefl.setPrinted _
  case printArray => exact stays_of_some_eq (stays_printArray ..) h
  case startNumber => exact stays_startFrom h
  case startName => exact stays_startFrom h
  case startForcedNumber => exact stays_startFrom h
  case startForcedName => exact stays_startFrom h
  case startResultNumber => exact stays_startFrom h
  case startResultName => exact stays_startFrom h
  case stopNumber => exact stays_of_some_eq (stays_haltFrom ..) h
  case stopName => exact stays_of_some_eq (stays_haltFrom ..) h
  case pauseNumber => exact stays_of_some_eq (stays_haltFrom ..) h
  case pauseName => exact stays_of_some_eq (stays_haltFrom ..) h
  case activeNumber => cases h; exact hrefl.push _
  case setResult => cases h; exact ⟨rfl, rfl, rfl, rfl, rfl, rfl, rfl, rfl, rfl, rfl, rfl, rfl⟩
  case random => cases h; exact hrefl.push _
  case stringLength => cases h; exact hrefl.push _
  case checkLock =>
    split at h
    · cases h
      exact hrefl.push _
    · cases h
      exact hrefl.push _

/-- Taking arguments leaves a thread where it is. -/
theorem stays_takeArgs (t : Thread) (count : Word) : Stays t (t.takeArgs count).2 :=
  ⟨rfl, rfl, rfl, rfl, rfl, rfl, rfl, rfl, rfl, rfl, rfl, rfl⟩

/-- What functions do to the calling thread, if taking arguments and ending by force do it too, is done by
calls. -/
theorem callFunc_of_calls {R : Thread → Thread → Prop} (refl : ∀ t, R t t)
    (trans : ∀ {t t' t''}, R t t' → R t' t'' → R t t'') (hargs : ∀ t count, R t (takeArgs t count).2)
    (hend : ∀ t : Thread, R t { t with state := .stopped }) {host : Host} {A : ChangeRule}
    (hhost : host.Obeys A) (hA : ∀ {m t m' t'}, A m t m' t' → R t t') {turn : Turn}
    (hbuiltin : ∀ {m t f args m' t'}, callBuiltin turn m t f args = some (m', t') → R t t')
    {exec : Machine → Option Machine} {count func : Word} {waits : Bool}
    (h : callFunc host turn exec m t count func = some (m', t', waits)) : R t t' := by
  refine trans (hargs t count) ?_
  unfold callFunc at h
  simp only at h
  split at h
  · split at h
    · obtain ⟨⟨m₁, t₁⟩, hcall, heq⟩ := Option.map_eq_some_iff.1 h
      cases heq
      exact hbuiltin hcall
    · cases h
      exact hend _
  · split at h
    · exact HostProgram.Obeys.run (R := fun _ t _ t' => R t t') (fun _ t => refl t) trans
        hA (fun _ => refl _) (fun _ => refl _) (hhost _ _ _ _) h
    · cases h
      exact hend _

/-- A function call leaves its thread where it is, as long as host functions do. -/
theorem stays_callFunc {host : Host} {A : ChangeRule} (hhost : host.Obeys A)
    (hA : ∀ {m t m' t'}, A m t m' t' → Stays t t') {turn : Turn} {exec : Machine → Option Machine}
    {count func : Word} {waits : Bool}
    (h : callFunc host turn exec m t count func = some (m', t', waits)) : Stays t t' :=
  callFunc_of_calls .refl Stays.trans stays_takeArgs (fun t => (Stays.refl t).setState _) hhost hA
    stays_callBuiltin h

/-- **One instruction.**  An instruction leaves its thread where it is, or jumps, calls, returns or
starts over, and it does the last four as its operands say. -/
theorem step_moves {host : Host} {A : ChangeRule} (hhost : host.Obeys A)
    (hA : ∀ {m t m' t'}, A m t m' t' → Stays t t') {turn : Turn} {exec : Machine → Option Machine}
    {module : LoadedModule} {op : Opcode} {operands : List Word} {waits : Bool}
    (h : step host turn exec module op operands m t = some (m', t', waits)) :
    Moves module op operands t t' := by
  have hrefl := Stays.refl t
  cases op with
  | nop => cases h; exact .stay hrefl
  | kill => cases h; exact .stay (hrefl.setState _)
  | terminate => cases h; exact .stay (hrefl.setState _)
  | suspend => cases h; exact .stay (hrefl.setState _)
  | restart =>
    simp only [step] at h
    split at h
    · rename_i s hs
      cases h
      exact .reset s hs
    · cases h
      exact .stay (hrefl.setState _)
  | delay => cases h; exact .stay (hrefl.pop.setDelay _)
  | delayLit => cases h; exact .stay (hrefl.setDelay _)
  | waitNumber => cases h; exact .stay (hrefl.pop.setState _)
  | waitName => cases h; exact .stay (hrefl.pop.setState _)
  | waitTag => cases h; exact .stay (hrefl.pop.setState _)
  | pushLit => cases h; exact .stay (hrefl.push _)
  | drop => cases h; exact .stay hrefl.pop
  | copy => cases h; exact .stay (hrefl.push _)
  | swap => cases h; exact .stay ((hrefl.pop.pop.push _).push _)
  | var level action =>
    simp only [step, Option.some.injEq, Prod.mk.injEq] at h
    exact h.2.1 ▸ .stay (stays_accessVar ..)
  | binary b => cases h; exact .stay (hrefl.pop.pop.push _)
  | unary u => cases h; exact .stay (hrefl.pop.push _)
  | jump => cases h; exact .jump (.inl rfl) hrefl
  | jumpTrue =>
    simp only [step, Option.some.injEq, Prod.mk.injEq] at h
    rw [← h.2.1]
    generalize t.pop.1 = w
    have hpop := hrefl.pop
    generalize t.pop.2 = t₁ at hpop ⊢
    split
    · exact .jump (.inr (.inl rfl)) hpop
    · exact .stay hpop
  | jumpZero =>
    simp only [step, Option.some.injEq, Prod.mk.injEq] at h
    rw [← h.2.1]
    generalize t.pop.1 = w
    have hpop := hrefl.pop
    generalize t.pop.2 = t₁ at hpop ⊢
    split
    · exact .jump (.inr (.inr rfl)) hpop
    · exact .stay hpop
  | jumpEqual =>
    simp only [step] at h
    split at h
    · cases h
      exact .jumpEqual rfl hrefl.pop
    · cases h
      exact .stay hrefl
  | call =>
    simp only [step] at h
    split at h
    · rename_i f hf
      cases h
      exact .call f (.inl rfl) hf _
    · cases h
      exact .stay (hrefl.setState _)
  | callDiscard =>
    simp only [step] at h
    split at h
    · rename_i f hf
      cases h
      exact .call f (.inr rfl) hf _
    · cases h
      exact .stay (hrefl.setState _)
  | ret => cases h; exact .ret (.inl rfl) hrefl _
  | retValue => cases h; exact .ret (.inr rfl) hrefl.pop _
  | callFunc => exact .stay (stays_callFunc hhost hA h)

end Machine

end ScriptMachine
