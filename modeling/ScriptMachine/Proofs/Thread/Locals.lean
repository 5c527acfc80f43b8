import Mathlib.Algebra.Ring.Nat
import ScriptMachine.Proofs.Thread.Framing
import ScriptMachine.Proofs.Thread.Unseen

/-!
# Calls and their locals

The locals of the script and of all functions that are called lie in one array, and a frame remembers
nothing but where the locals of its caller begin.

Where they begin is told by the counts that the script and the functions declare: every frame begins
where the locals beneath it end (`Thread.Laid`).  Every instruction keeps this, and so does whatever
leaves the place of the thread and the extent of its locals alone.

That the locals of a caller are left alone does not depend on the counts.  From a call on, all frames
above the caller begin no earlier than its locals end, and instructions reach no local before the
beginning of their frame (`Thread.Beneath`).  So as long as the call has not come back, the caller's
locals are what they were, and when it comes back they are all there is (`Thread.Beneath.returns`).
-/

namespace ScriptMachine

/-! ## Where locals lie -/

section

variable (x : Module) (own : Nat) (count : Function → Nat)

/-- How many locals the script and the functions that are called declare. -/
def localsEnd (frames : List Frame) : Nat :=
  own + (frames.map fun f => ((x.functions[f.func.toNat]?).map count).getD 0).sum

/-- Where the locals of the current frame begin: behind those of all callers. -/
def localsStart : List Frame → Nat
  | [] => 0
  | _ :: rest => localsEnd x own count rest

/-- Where locals of one kind lie, as the counts tell: how many there are, where those of the current
frame begin, and what the frames remember of the beginnings of their callers. -/
structure LaidOut (saved : Frame → Nat) (frames : List Frame) (base size : Nat) : Prop where
  size : size = localsEnd x own count frames
  base : base = localsStart x own count frames
  saved : ∀ f rest, f :: rest <:+ frames → saved f = localsStart x own count rest

end

namespace LaidOut

variable {x : Module} {own : Nat} {count : Function → Nat} {saved : Frame → Nat}
  {frames rest : List Frame} {f : Frame} {base size : Nat}

/-- At the start of the script. -/
theorem start (x : Module) (own : Nat) (count : Function → Nat) (saved : Frame → Nat) :
    LaidOut x own count saved [] 0 own :=
  ⟨rfl, rfl, fun _ _ h => absurd (List.suffix_nil.1 h) (List.cons_ne_nil _ _)⟩

/-- A call puts the locals of the function behind the others. -/
theorem call (h : LaidOut x own count saved frames base size) {g : Function}
    (hg : x.functions[f.func.toNat]? = some g) (hsaved : saved f = base) :
    LaidOut x own count saved (f :: frames) size (size + count g) where
  size := by
    rw [h.size]
    simp only [localsEnd, List.map_cons, List.sum_cons, hg, Option.map_some, Option.getD_some]
    omega
  base := h.size
  saved f' rest hsuffix := by
    rcases List.suffix_cons_iff.1 hsuffix with heq | hsuffix
    · cases heq
      exact hsaved.trans h.base
    · exact h.saved f' rest hsuffix

/-- A return cuts them off. -/
theorem ret (h : LaidOut x own count saved (f :: rest) base size) :
    LaidOut x own count saved rest (saved f) (min base size) where
  size := by
    have hend : localsEnd x own count rest ≤ localsEnd x own count (f :: rest) := by
      simp only [localsEnd, List.map_cons, List.sum_cons]
      omega
    rw [h.size, h.base]
    exact Nat.min_eq_left hend
  base := h.saved f rest (List.suffix_refl _)
  saved f' rest' hsuffix := h.saved f' rest' (hsuffix.trans (List.suffix_cons ..))

end LaidOut

/-- No function has more parameters than registers to take them. -/
def Module.ParamsFit (x : Module) : Prop := ∀ f ∈ x.functions, f.paramCount ≤ f.regCount

namespace Thread

/-- The locals of a thread of the module lie as its script and the functions it called declare. -/
structure Laid (t : Thread) (x : Module) : Prop where
  runs : t.module.map (·.toModule) = some x
  called : ∀ f ∈ t.frames, f.func.toNat < x.functions.size
  locals : ∃ s, x.scripts[t.scriptIndex]? = some s ∧
    LaidOut x s.regCount.toNat (·.regCount.toNat) (·.regBase) t.frames t.regBase t.regs.size ∧
    LaidOut x s.arrCount.toNat (·.arrCount.toNat) (·.arrBase) t.frames t.arrBase t.arrs.size

variable {x : Module} {t t' u v : Thread}

/-- The place of the thread and the extent of its locals are all that matters. -/
theorem Laid.stays (h : t.Laid x) (hs : Stays t t') : t'.Laid x := by
  obtain ⟨s, hscript, hregs, harrs⟩ := h.locals
  refine ⟨hs.module ▸ h.runs, hs.frames ▸ h.called, s, hs.scriptIndex ▸ hscript, ?_, ?_⟩
  · rw [hs.frames, hs.regBase, hs.regs]
    exact hregs
  · rw [hs.frames, hs.arrBase, hs.arrs]
    exact harrs

/-- Where the code goes on does not matter. -/
theorem Laid.place (h : t.Laid x) (n : Nat) : Laid { t with codePtr := n } x :=
  ⟨h.runs, h.called, h.locals⟩

/-- At its start a script has its locals laid. -/
theorem laid_reset {s : Script} (hrun : t.module.map (·.toModule) = some x)
    (hs : x.scripts[t.scriptIndex]? = some s) : (t.reset s).Laid x := by
  refine ⟨hrun, fun f hf => ?_, s, hs, ?_, ?_⟩
  · rw [reset] at hf
    exact absurd hf List.not_mem_nil
  · have hsize : (t.reset s).regs.size = s.regCount.toNat := by
      simp only [reset, List.size_toArray, List.length_append, List.length_take, List.length_replicate]
      omega
    rw [hsize]
    exact .start ..
  · have hsize : (t.reset s).arrs.size = s.arrCount.toNat := by
      simp only [reset, Array.size_replicate]
    rw [hsize]
    exact .start ..

/-- A call lays the locals of the function above the others. -/
theorem Laid.call (h : t.Laid x) (hparams : x.ParamsFit) {f : Function} {index : Word}
    (hf : x.functions[index.toNat]? = some f) (discard : Bool) : (t.call f index discard).Laid x := by
  obtain ⟨s, hscript, hregs, harrs⟩ := h.locals
  refine ⟨h.runs, fun frame hframe => ?_, s, hscript, ?_, ?_⟩
  · rcases List.mem_cons.1 hframe with heq | hmem
    · rw [heq]
      exact (Array.getElem?_eq_some_iff.1 hf).1
    · exact h.called frame hmem
  · have hfit : f.paramCount.toNat ≤ f.regCount.toNat :=
      UInt32.le_iff_toNat_le.1 (hparams f (Array.mem_of_getElem? hf))
    have hsize : (t.call f index discard).regs.size = t.regs.size + f.regCount.toNat := by
      simp only [Thread.call, ← Array.length_toList, Array.toList_appendList, List.length_append,
        List.length_replicate, List.length_reverse, List.length_take]
      omega
    rw [hsize]
    exact hregs.call hf rfl
  · have hsize : (t.call f index discard).arrs.size = t.arrs.size + f.arrCount.toNat := by
      simp only [Thread.call, Array.size_append, Array.size_replicate]
    rw [hsize]
    exact harrs.call hf rfl

/-- A return takes the locals of the function away. -/
theorem Laid.ret (h : t.Laid x) (value : Option Word) : (t.ret value).Laid x := by
  obtain ⟨s, hscript, hregs, harrs⟩ := h.locals
  unfold Thread.ret
  split
  · exact ⟨h.runs, h.called, h.locals⟩
  · rename_i f rest hframes
    rw [hframes] at hregs harrs
    have hback : Laid { t with
        frames := rest, regs := t.regs.take t.regBase, arrs := t.arrs.take t.arrBase
        regBase := f.regBase, arrBase := f.arrBase, codePtr := f.ret } x := by
      refine ⟨h.runs, fun g hg => h.called g ?_, s, hscript, ?_, ?_⟩
      · rw [hframes]
        exact List.mem_cons_of_mem f hg
      · simpa only [Array.take_eq_extract, Array.size_extract, Nat.sub_zero] using hregs.ret
      · simpa only [Array.take_eq_extract, Array.size_extract, Nat.sub_zero] using harrs.ret
    dsimp only
    split
    · exact hback
    · exact hback.stays ((Stays.refl _).push _)

/-- **One instruction** leaves the locals laid as they are declared. -/
theorem Laid.moves {x : LoadedModule} (h : t.Laid x.toModule) (hparams : x.ParamsFit) {op : Opcode}
    {operands : List Word} (hm : Moves x op operands t t') : t'.Laid x.toModule := by
  cases hm with
  | stay hs => exact h.stays hs
  | jump _ hs => exact (h.stays hs).place _
  | jumpEqual _ hs => exact (h.stays hs).place _
  | call f _ hf discard => exact h.call hparams hf discard
  | ret _ hs value => exact (h.stays hs).ret value
  | reset s hs => exact laid_reset h.runs hs

/-! ## What instructions do to locals -/

/-- The thread is at the same place, with the same calls and the same locals. -/
structure Rests (t t' : Thread) : Prop where
  module : t'.module = t.module
  scriptIndex : t'.scriptIndex = t.scriptIndex
  codePtr : t'.codePtr = t.codePtr
  frames : t'.frames = t.frames
  regs : t'.regs = t.regs
  arrs : t'.arrs = t.arrs
  regBase : t'.regBase = t.regBase
  arrBase : t'.arrBase = t.arrBase

/-- The calls are the same, and so are the locals beneath the current frame. -/
structure Keeps (t t' : Thread) : Prop where
  frames : t'.frames = t.frames
  regs : t'.regs.toList.take t.regBase = t.regs.toList.take t.regBase
  arrs : t'.arrs.toList.take t.arrBase = t.arrs.toList.take t.arrBase
  regBase : t'.regBase = t.regBase
  arrBase : t'.arrBase = t.arrBase

theorem Rests.refl (t : Thread) : Rests t t := ⟨rfl, rfl, rfl, rfl, rfl, rfl, rfl, rfl⟩

theorem Rests.trans (h : Rests t u) (h' : Rests u v) : Rests t v where
  module := h'.module.trans h.module
  scriptIndex := h'.scriptIndex.trans h.scriptIndex
  codePtr := h'.codePtr.trans h.codePtr
  frames := h'.frames.trans h.frames
  regs := h'.regs.trans h.regs
  arrs := h'.arrs.trans h.arrs
  regBase := h'.regBase.trans h.regBase
  arrBase := h'.arrBase.trans h.arrBase

theorem Rests.push (h : Rests t u) (w : Word) : Rests t (u.push w) :=
  h.trans ⟨rfl, rfl, rfl, rfl, rfl, rfl, rfl, rfl⟩

theorem Rests.pop (h : Rests t u) : Rests t u.pop.2 := by
  unfold Thread.pop
  split
  · exact h
  · exact h.trans ⟨rfl, rfl, rfl, rfl, rfl, rfl, rfl, rfl⟩

theorem Rests.setState (h : Rests t u) (s : ThreadState) : Rests t { u with state := s } :=
  h.trans ⟨rfl, rfl, rfl, rfl, rfl, rfl, rfl, rfl⟩

theorem Rests.setDelay (h : Rests t u) (w : Word) : Rests t { u with delay := w } :=
  h.trans ⟨rfl, rfl, rfl, rfl, rfl, rfl, rfl, rfl⟩

/-- Where locals are left alone they are kept. -/
theorem Rests.keeps (h : Rests t u) : Keeps t u :=
  ⟨h.frames, by rw [h.regs], by rw [h.arrs], h.regBase, h.arrBase⟩

/-- Where locals are left alone they lie as they did. -/
theorem Rests.laid (h : Rests t u) (ht : t.Laid x) : u.Laid x := by
  obtain ⟨s, hscript, hregs, harrs⟩ := ht.locals
  refine ⟨h.module ▸ ht.runs, h.frames ▸ ht.called, s, h.scriptIndex ▸ hscript, ?_, ?_⟩
  · rw [h.frames, h.regBase, h.regs]
    exact hregs
  · rw [h.frames, h.arrBase, h.arrs]
    exact harrs

/-- Keeping what lies beneath the frame takes no account of where the code goes on. -/
theorem Keeps.jump (h : Keeps t u) (place : Nat) : Keeps t { u with codePtr := place } :=
  ⟨h.frames, h.regs, h.arrs, h.regBase, h.arrBase⟩

/-- What an instruction that does not start the script over does to calls and locals. -/
inductive Shifts (op : Opcode) (operands : List Word) : Thread → Thread → Prop
  | keep {t t' : Thread} (h : Keeps t t') : Shifts op operands t t'
  | call {t : Thread} (f : Function) (hop : op = .call ∨ op = .callDiscard) :
    Shifts op operands t (t.call f (operands.headD 0) (op == .callDiscard))
  | ret {t : Thread} (hop : op = .ret) : Shifts op operands t (t.ret none)
  | retValue {t : Thread} (hop : op = .retValue) : Shifts op operands t (t.pop.2.ret (some t.pop.1))

end Thread

namespace Machine

open Thread

variable {m m' : Machine} {t t' : Thread}

/-- A change from a place on leaves alone what comes before it. -/
theorem take_modify_of_le {α : Type} (as : Array α) {n k : Nat} (h : n ≤ k) (f : α → α) :
    (as.modify k f).toList.take n = as.toList.take n := by
  rw [Array.toList_modify, List.take_modify, List.modify_eq_self]
  rw [List.length_take]
  omega

/-- Access to variables keeps how many locals there are. -/
theorem keeps_accessVar (m : Machine) (t : Thread) (level : Level) (action : VarAction) (i : Word) :
    Keeps t (m.accessVar t level action i).2 := by
  have hrefl := Rests.refl t
  have hregs : ∀ {u : Thread} (f : Word → Word), Rests t u →
      Keeps t { u with regs := u.regs.modify (u.regBase + i.toNat) f } := by
    intro u f h
    refine ⟨h.frames, ?_, by rw [h.arrs], h.regBase, h.arrBase⟩
    rw [h.regBase, h.regs]
    exact take_modify_of_le _ (Nat.le_add_right ..) f
  have harrs : ∀ {u : Thread} (f : Sparse → Sparse), Rests t u →
      Keeps t { u with arrs := u.arrs.modify (u.arrBase + i.toNat) f } := by
    intro u f h
    refine ⟨h.frames, by rw [h.regs], ?_, h.regBase, h.arrBase⟩
    rw [h.arrBase, h.arrs]
    exact take_modify_of_le _ (Nat.le_add_right ..) f
  cases action with
  | pushReg => exact (hrefl.push _).keeps
  | dropReg =>
    cases level with
    | thread => exact hregs _ hrefl.pop
    | _ => exact hrefl.pop.keeps
  | incReg | decReg =>
    cases level with
    | thread => exact hregs _ hrefl
    | _ => exact hrefl.keeps
  | pushArr => cases level <;> exact (hrefl.pop.push _).keeps
  | dropArr =>
    cases level with
    | thread => exact harrs _ hrefl.pop.pop
    | _ =>
      simp only [accessVar]
      split <;> exact hrefl.pop.pop.keeps

/-- Built-in functions do not see calls and locals, so they leave them alone. -/
theorem rests_callBuiltin {turn : Turn} {f : Builtin} {args : List Word}
    (h : m.callBuiltin turn t f args = some (m', t')) : Rests t t' := by
  let φ : Thread → Thread := fun u => { u with
    module := t.module, scriptIndex := t.scriptIndex, codePtr := t.codePtr, frames := t.frames
    regs := t.regs, arrs := t.arrs, regBase := t.regBase, arrBase := t.arrBase }
  have hφ : Unseen φ :=
    ⟨fun _ => rfl, fun _ => rfl, fun _ => rfl, fun _ => rfl, fun _ => rfl, fun _ => rfl,
      fun _ _ => rfl, fun _ _ => rfl, fun _ _ => rfl, fun _ _ => rfl⟩
  have hsame : m.callBuiltin turn t f args = (m.callBuiltin turn t f args).map fun p => (p.1, φ p.2) :=
    callBuiltin_unseen hφ turn m t f args
  rw [h, Option.map_some, Option.some.injEq, Prod.mk.injEq] at hsame
  rw [hsame.2]
  exact ⟨rfl, rfl, rfl, rfl, rfl, rfl, rfl, rfl⟩

section

variable {host : Host} {A : ChangeRule} (hhost : host.Obeys A)
  (hA : ∀ {m t m' t'}, A m t m' t' → Rests t t') {turn : Turn} {exec : Machine → Option Machine}
include hhost hA

/-- A function of the table leaves the locals alone. -/
theorem rests_callFunc {count func : Word} {waits : Bool}
    (h : callFunc host turn exec m t count func = some (m', t', waits)) : Rests t t' :=
  callFunc_of_calls .refl Rests.trans (fun _ _ => ⟨rfl, rfl, rfl, rfl, rfl, rfl, rfl, rfl⟩)
    (fun t => (Rests.refl t).setState _) hhost hA rests_callBuiltin h

/-- **One instruction** leaves alone what lies beneath the current frame, or calls, or returns. -/
theorem step_shifts {module : LoadedModule} {op : Opcode} {operands : List Word} {waits : Bool}
    (hop : op ≠ .restart)
    (h : step host turn exec module op operands m t = some (m', t', waits)) :
    Shifts op operands t t' := by
  have hrefl := Rests.refl t
  have hrest : ∀ {p : Machine × Thread × Bool}, Keeps t p.2.1 → some p = some (m', t', waits) →
      Shifts op operands t t' := by
    intro p hp heq
    cases heq
    exact .keep hp
  have hjump : ∀ (condition : Bool) (place : Nat),
      Keeps t (if condition then { t.pop.2 with codePtr := place } else t.pop.2) := by
    intro condition place
    split
    · exact hrefl.pop.keeps.jump place
    · exact hrefl.pop.keeps
  cases op with
  | restart => exact absurd rfl hop
  | nop => exact hrest hrefl.keeps h
  | kill | terminate | suspend => exact hrest (hrefl.setState _).keeps h
  | delay => exact hrest (hrefl.pop.setDelay _).keeps h
  | delayLit => exact hrest (hrefl.setDelay _).keeps h
  | waitNumber | waitName | waitTag => exact hrest (hrefl.pop.setState _).keeps h
  | pushLit | copy => exact hrest (hrefl.push _).keeps h
  | drop => exact hrest hrefl.pop.keeps h
  | swap => exact hrest ((hrefl.pop.pop.push _).push _).keeps h
  | var level action => exact hrest (keeps_accessVar ..) h
  | binary _ => exact hrest (hrefl.pop.pop.push _).keeps h
  | unary _ => exact hrest (hrefl.pop.push _).keeps h
  | jump => exact hrest (hrefl.keeps.jump _) h
  | jumpTrue | jumpZero => exact hrest (hjump _ _) h
  | jumpEqual =>
    simp only [step] at h
    split at h
    · exact hrest (hrefl.pop.keeps.jump _) h
    · exact hrest hrefl.keeps h
  | call | callDiscard =>
    simp only [step] at h
    split at h
    · rename_i f hf
      cases h
      exact .call f (by simp)
    · exact hrest (hrefl.setState _).keeps h
  | ret =>
    cases h
    exact .ret rfl
  | retValue =>
    cases h
    exact .retValue rfl
  | callFunc => exact .keep (rests_callFunc hhost hA h).keeps

end

end Machine

end ScriptMachine
