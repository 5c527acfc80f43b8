import ScriptMachine.Proofs.Thread.Locals

/-!
# A caller's locals during a call

From a call on, whatever the thread does until it first comes back, the caller lies beneath it
(`Thread.Beneath`): all frames above begin where the caller's locals end or later, and so do all changes.
Coming back cuts the locals off where they ended, and puts the caller's frame and code pointer back
(`Thread.Beneath.happens`).  So a call leaves nothing behind but a word on the stack, if the caller asked
for one (`Thread.During.isolated`).
-/

namespace ScriptMachine

/-- The frames `bottom` lie beneath these frames, and all frames above begin no earlier than where
`regs` registers and `arrs` arrays end. -/
inductive Above (bottom : List Frame) (regs arrs : Nat) : List Frame → Nat → Nat → Prop
  | bottom : Above bottom regs arrs bottom regs arrs
  | call {f : Frame} {rest : List Frame} {regBase arrBase : Nat} (hregs : regs ≤ regBase)
      (harrs : arrs ≤ arrBase) (h : Above bottom regs arrs rest f.regBase f.arrBase) :
    Above bottom regs arrs (f :: rest) regBase arrBase

/-- The current frame begins above those that are beneath. -/
theorem Above.le {bottom frames : List Frame} {regs arrs regBase arrBase : Nat}
    (h : Above bottom regs arrs frames regBase arrBase) : regs ≤ regBase ∧ arrs ≤ arrBase := by
  cases h with
  | bottom => exact ⟨Nat.le_refl _, Nat.le_refl _⟩
  | call hregs harrs _ => exact ⟨hregs, harrs⟩

/-- Either there is nothing above, or a frame. -/
theorem Above.split {bottom frames : List Frame} {regs arrs regBase arrBase : Nat}
    (h : Above bottom regs arrs frames regBase arrBase) :
    (frames = bottom ∧ regBase = regs ∧ arrBase = arrs) ∨
      ∃ f rest, frames = f :: rest ∧ regs ≤ regBase ∧ arrs ≤ arrBase ∧
        Above bottom regs arrs rest f.regBase f.arrBase := by
  cases h with
  | bottom => exact .inl ⟨rfl, rfl, rfl⟩
  | call hregs harrs h => exact .inr ⟨_, _, rfl, hregs, harrs, h⟩

/-- The frames beneath are still there. -/
theorem Above.suffix {bottom frames : List Frame} {regs arrs regBase arrBase : Nat}
    (h : Above bottom regs arrs frames regBase arrBase) : bottom <:+ frames := by
  induction h with
  | bottom => exact List.suffix_refl _
  | call _ _ _ ih => exact ih.trans (List.suffix_cons ..)

namespace Thread

/-- What happens to a thread: it carries out one of the instructions `ops`, whatever the machine and the
turns within the instruction are; data other than its place and its locals change; or it is saved and
read back, with the same module. -/
inductive Happens (host : Host) (ops : Opcode → Prop) : Thread → Thread → Prop
  | instruction {t t' : Thread} {x : LoadedModule} {op : Opcode} {operands : List Word} {turn : Turn}
      {exec : Machine → Option Machine} {m m' : Machine} {waits : Bool} (hx : t.module = some x)
      (hfetch : Machine.fetchAt x.code t.codePtr = .ok (op, operands)) (hop : ops op)
      (hstep : Machine.step host turn exec x op operands m
        { t with codePtr := t.codePtr + 1 + op.arity } = some (m', t', waits)) : Happens host ops t t'
  | edit {t t' : Thread} (h : Rests t t') : Happens host ops t t'
  | reload {t t' : Thread} {x : LoadedModule} {scope : ScopeId} {i : Nat} {rest rest' : Bytes}
      (hs : t.Sized) (hx : t.module.map (·.toModule) = some x.toModule)
      (hread : read x scope i (t.write ++ rest) = .ok (t', rest')) : Happens host ops t t'

/-- What happens to a thread while more than `depth` calls are under way, if it does not start over. -/
inductive During (host : Host) (depth : Nat) : Thread → Thread → Prop
  | here {t : Thread} (hdepth : depth < t.frames.length) : During host depth t t
  | next {t u v : Thread} (h : During host depth t u) (hnext : Happens host (· ≠ .restart) u v)
      (hdepth : depth < v.frames.length) : During host depth t v

/-- The thread `t`, which made the call that left the frame, lies beneath `u`. -/
structure Beneath (t : Thread) (frame : Frame) (u : Thread) : Prop where
  frames : Above (frame :: t.frames) t.regs.size t.arrs.size u.frames u.regBase u.arrBase
  regs : t.regs.toList <+: u.regs.toList
  arrs : t.arrs.toList <+: u.arrs.toList

/-- The call that left the frame is over, and the caller's locals are as they were. -/
structure Returned (t : Thread) (frame : Frame) (u : Thread) : Prop where
  frames : u.frames = t.frames
  regs : u.regs = t.regs
  arrs : u.arrs = t.arrs
  regBase : u.regBase = frame.regBase
  arrBase : u.arrBase = frame.arrBase
  codePtr : u.codePtr = frame.ret

variable {t u v : Thread} {frame : Frame}

/-- What lies before a place is left alone by what leaves all before the place alone. -/
theorem prefix_of_take_eq {α : Type} {as bs cs : List α} {n : Nat} (h : as <+: bs) (hn : as.length ≤ n)
    (heq : cs.take n = bs.take n) : as <+: cs :=
  (List.prefix_take_iff.1 (heq ▸ List.prefix_take_iff.2 ⟨h, hn⟩ : as <+: cs.take n)).1

/-- What keeps locals keeps those beneath. -/
theorem Beneath.keeps (h : Beneath t frame u) (hk : Keeps u v) : Beneath t frame v := by
  obtain ⟨hregs, harrs⟩ := h.frames.le
  refine ⟨?_, prefix_of_take_eq h.regs hregs hk.regs, prefix_of_take_eq h.arrs harrs hk.arrs⟩
  rw [hk.frames, hk.regBase, hk.arrBase]
  exact h.frames

/-- A call within keeps what is beneath. -/
theorem Beneath.call (h : Beneath t frame u) (f : Function) (index : Word) (discard : Bool) :
    Beneath t frame (u.call f index discard) where
  frames := .call h.regs.length_le h.arrs.length_le h.frames
  regs := by
    simp only [Thread.call, Array.toList_appendList]
    exact h.regs.trans (List.prefix_append ..)
  arrs := by
    simp only [Thread.call, Array.toList_append]
    exact h.arrs.trans (List.prefix_append ..)

/-- The call itself puts the caller beneath. -/
theorem beneath_call (t : Thread) (f : Function) (index : Word) (discard : Bool) :
    Beneath t ⟨t.codePtr, t.regBase, t.arrBase, discard, index⟩ (t.call f index discard) where
  frames := .bottom
  regs := by
    simp only [Thread.call, Array.toList_appendList]
    exact List.prefix_append ..
  arrs := by
    simp only [Thread.call, Array.toList_append]
    exact List.prefix_append ..

/-- An array that begins with another one, cut off where that ends. -/
theorem take_eq_of_prefix {α : Type} {as bs : Array α} (h : as.toList <+: bs.toList) :
    bs.take as.size = as := by
  refine Array.toList_inj.1 ?_
  rw [Array.take_eq_extract, Array.toList_extract, List.extract_eq_take_drop, List.drop_zero,
    Nat.sub_zero]
  exact (List.prefix_iff_eq_take.1 h).symm

/-- An array that is cut above what was there still begins with it. -/
theorem prefix_toList_take {α : Type} {as bs : Array α} {n : Nat} (h : as.toList <+: bs.toList)
    (hn : as.size ≤ n) : as.toList <+: (bs.take n).toList := by
  rw [Array.take_eq_extract, Array.toList_extract, List.extract_eq_take_drop, List.drop_zero,
    Nat.sub_zero]
  exact List.prefix_take_iff.2 ⟨h, hn⟩

/-- **A return** is one of a function further up, or it ends the call. -/
theorem Beneath.ret (h : Beneath t frame u) (value : Option Word) :
    Beneath t frame (u.ret value) ∨ Returned t frame (u.ret value) ∧
      (u.ret value).stack = if frame.discard then u.stack else value.getD 0 :: u.stack := by
  rcases h.frames.split with ⟨hframes, hregs, harrs⟩ | ⟨f, rest, hframes, hregs, harrs, habove⟩
  · refine .inr ?_
    have hback : Returned t frame { u with
        frames := t.frames, regs := u.regs.take u.regBase, arrs := u.arrs.take u.arrBase
        regBase := frame.regBase, arrBase := frame.arrBase, codePtr := frame.ret } := by
      refine ⟨rfl, ?_, ?_, rfl, rfl, rfl⟩
      · rw [hregs]
        exact take_eq_of_prefix h.regs
      · rw [harrs]
        exact take_eq_of_prefix h.arrs
    unfold Thread.ret
    rw [hframes]
    dsimp only
    split
    · exact ⟨hback, rfl⟩
    · exact ⟨⟨hback.frames, hback.regs, hback.arrs, rfl, rfl, rfl⟩, rfl⟩
  · refine .inl ?_
    have hback : Beneath t frame { u with
        frames := rest, regs := u.regs.take u.regBase, arrs := u.arrs.take u.arrBase
        regBase := f.regBase, arrBase := f.arrBase, codePtr := f.ret } :=
      ⟨habove, prefix_toList_take h.regs hregs, prefix_toList_take h.arrs harrs⟩
    unfold Thread.ret
    rw [hframes]
    dsimp only
    split
    · exact hback
    · exact ⟨hback.frames, hback.regs, hback.arrs⟩

/-- The operand stack does not depend on where the code goes on. -/
theorem pop_codePtr (t : Thread) (place : Nat) :
    ({ t with codePtr := place } : Thread).pop = (t.pop.1, { t.pop.2 with codePtr := place }) := by
  simp only [Thread.pop]
  cases hstack : t.stack <;> simp [hstack]

section

variable {host : Host} {A : ChangeRule} (hhost : host.Obeys A)
  (hA : ∀ {m t m' t'}, A m t m' t' → Rests t t')
include hhost hA

/-- **Whatever happens**, the caller goes on to lie beneath the thread, or the call is over: then the
thread carried out a return, which pushed one word if the caller asked for it. -/
theorem Beneath.happens (h : Beneath t frame u) (hn : Happens host (· ≠ .restart) u v) :
    Beneath t frame v ∨ Returned t frame v ∧ ∃ x op operands, u.module = some x ∧
      Machine.fetchAt x.code u.codePtr = .ok (op, operands) ∧
      (op = .ret ∧ v.stack = (if frame.discard then u.stack else 0 :: u.stack) ∨
        op = .retValue ∧ v.stack = if frame.discard then u.pop.2.stack else u.pop.1 :: u.pop.2.stack) := by
  cases hn with
  | edit hrests => exact .inl (h.keeps hrests.keeps)
  | reload hs _ hread =>
    cases eq_renewed_of_read_write hs hread
    exact .inl ⟨h.frames, h.regs, h.arrs⟩
  | @instruction x op operands _ _ _ _ _ hx hfetch hop hstep =>
    have hnext : Beneath t frame { u with codePtr := u.codePtr + 1 + op.arity } :=
      ⟨h.frames, h.regs, h.arrs⟩
    cases Machine.step_shifts hhost hA hop hstep with
    | keep hkeeps => exact .inl (hnext.keeps hkeeps)
    | call f _ => exact .inl (hnext.call ..)
    | ret hret =>
      rcases hnext.ret none with hbeneath | ⟨hreturned, hstack⟩
      · exact .inl hbeneath
      · exact .inr ⟨hreturned, x, op, operands, hx, hfetch, .inl ⟨hret, hstack⟩⟩
    | retValue hret =>
      -- the value is popped before the return
      rw [pop_codePtr]
      have hpop : Beneath t frame { u.pop.2 with codePtr := u.codePtr + 1 + op.arity } :=
        h.keeps ((Rests.refl u).pop.keeps.jump _)
      rcases hpop.ret (some u.pop.1) with hbeneath | ⟨hreturned, hstack⟩
      · exact .inl hbeneath
      · exact .inr ⟨hreturned, x, op, operands, hx, hfetch, .inr ⟨hret, hstack⟩⟩

/-- As long as the call is under way, the caller lies beneath the thread. -/
theorem During.beneath (h : During host t.frames.length u v) (hu : Beneath t frame u) :
    Beneath t frame v := by
  induction h with
  | here _ => exact hu
  | next _ hnext hdepth ih =>
    rcases ih.happens hhost hA hnext with hbeneath | ⟨hreturned, -⟩
    · exact hbeneath
    · rw [hreturned.frames] at hdepth
      exact absurd hdepth (Nat.lt_irrefl _)

omit hhost hA in
/-- Until the call comes back there is one frame more. -/
theorem During.depth_lt {depth : Nat} (h : During host depth u v) : depth < u.frames.length := by
  induction h with
  | here hdepth => exact hdepth
  | next _ _ _ ih => exact ih

/-- **Calls leave their callers alone.**  A thread carries out a call.  Until it first comes back, the
caller's frame, and the frames and locals beneath, are what they were.  When it comes back, these are
all there is, the caller goes on behind the call, and the return has put the value on the stack if the
caller asked for it, and nothing else. -/
theorem During.isolated {x : LoadedModule} {op : Opcode} {operands : List Word} {turn : Turn}
    {exec : Machine → Option Machine} {m m' : Machine} {waits : Bool}
    (hop : op = .call ∨ op = .callDiscard)
    (hstep : Machine.step host turn exec x op operands m
      { t with codePtr := t.codePtr + 1 + op.arity } = some (m', u, waits))
    (h : During host t.frames.length u v) :
    (⟨t.codePtr + 1 + op.arity, t.regBase, t.arrBase, op == .callDiscard, operands.headD 0⟩ ::
        t.frames <:+ v.frames ∧
      t.regs.toList <+: v.regs.toList ∧ t.arrs.toList <+: v.arrs.toList) ∧
    ∀ w, Happens host (· ≠ .restart) v w → w.frames.length ≤ t.frames.length →
      Returned t ⟨t.codePtr + 1 + op.arity, t.regBase, t.arrBase, op == .callDiscard,
        operands.headD 0⟩ w ∧
      ∃ y back values, v.module = some y ∧
        Machine.fetchAt y.code v.codePtr = .ok (back, values) ∧
        (back = .ret ∧ w.stack = (if op = .call then 0 :: v.stack else v.stack) ∨
          back = .retValue ∧
            w.stack = if op = .call then v.pop.1 :: v.pop.2.stack else v.pop.2.stack) := by
  have hbeneath : Beneath t ⟨t.codePtr + 1 + op.arity, t.regBase, t.arrBase, op == .callDiscard,
      operands.headD 0⟩ u := by
    cases Machine.step_shifts hhost hA (by rcases hop with rfl | rfl <;> decide) hstep with
    | keep hkeeps =>
      have hdepth := h.depth_lt
      rw [hkeeps.frames] at hdepth
      exact absurd hdepth (Nat.lt_irrefl _)
    | call f _ =>
      have hcall := beneath_call { t with codePtr := t.codePtr + 1 + op.arity } f (operands.headD 0)
        (op == .callDiscard)
      exact ⟨hcall.frames, hcall.regs, hcall.arrs⟩
    | ret hret => rcases hop with rfl | rfl <;> cases hret
    | retValue hret => rcases hop with rfl | rfl <;> cases hret
  have hlast := h.beneath hhost hA hbeneath
  refine ⟨⟨hlast.frames.suffix, hlast.regs, hlast.arrs⟩, fun w hw hdepth => ?_⟩
  rcases hlast.happens hhost hA hw with habove | ⟨hreturned, y, back, values, hy, hback, hstack⟩
  · have hlong := habove.frames.suffix.length_le
    rw [List.length_cons] at hlong
    omega
  · refine ⟨hreturned, y, back, values, hy, hback, ?_⟩
    rcases hop with rfl | rfl
    · simpa using hstack
    · simpa using hstack

end

end Thread

end ScriptMachine
