import ScriptMachine.Proofs.Scope.RoundTrip
import ScriptMachine.Proofs.Thread.Moves

/-!
# The frames of a thread

The locals of a thread lie one frame after another: the current frame begins within the locals, and
the frame of every caller begins no later than that of the function it called (`Thread.Framed`).
Calls put a frame behind all others and returns cut the locals where the frame began, so every
instruction keeps this.  A thread that fits its place and is framed is `Thread.Owned` by it.
-/

namespace ScriptMachine

/-- Every frame begins no later than the one that was put on top of it. -/
def FramesWithin : List Frame → (regs arrs : Nat) → Prop
  | [], _, _ => True
  | f :: rest, regs, arrs =>
    f.regBase ≤ regs ∧ f.arrBase ≤ arrs ∧ FramesWithin rest f.regBase f.arrBase

namespace Thread

/-- The frames of a thread lie one after another within its locals. -/
structure Framed (t : Thread) : Prop where
  bases : t.BasesWithin
  frames : FramesWithin t.frames t.regBase t.arrBase

/-- The thread is the same, whatever it did. -/
structure Same (t t' : Thread) : Prop where
  id : t'.id = t.id
  module : t'.module = t.module
  scope : t'.scope = t.scope
  moduleIndex : t'.moduleIndex = t.moduleIndex
  scriptIndex : t'.scriptIndex = t.scriptIndex

variable {t t' t'' : Thread}

theorem Same.refl (t : Thread) : Same t t := ⟨rfl, rfl, rfl, rfl, rfl⟩

theorem Same.trans (h : Same t t') (h' : Same t' t'') : Same t t'' where
  id := h'.id.trans h.id
  module := h'.module.trans h.module
  scope := h'.scope.trans h.scope
  moduleIndex := h'.moduleIndex.trans h.moduleIndex
  scriptIndex := h'.scriptIndex.trans h.scriptIndex

/-- Threads that are the same are both placeholders, or neither is. -/
theorem Same.isPlaceholder_eq (h : Same t t') : t'.isPlaceholder = t.isPlaceholder := by
  rw [isPlaceholder, isPlaceholder, h.module]

/-- A thread that stays is the same. -/
theorem Stays.same (h : Stays t t') : Same t t' :=
  ⟨h.id, h.module, h.scope, h.moduleIndex, h.scriptIndex⟩

/-- A restated thread is the same. -/
theorem Restated.same {now : Nat} (h : Restated now t t') : Same t t' :=
  ⟨h.stays.id, h.stays.module, h.stays.scope, h.stays.moduleIndex, h.stays.scriptIndex⟩

/-- Returning leaves a thread the same. -/
theorem ret_same (t : Thread) (value : Option Word) : Same t (t.ret value) := by
  unfold ret
  split
  · exact ⟨rfl, rfl, rfl, rfl, rfl⟩
  · dsimp only
    split <;> exact ⟨rfl, rfl, rfl, rfl, rfl⟩

/-- Instructions leave a thread the same. -/
theorem Moves.same {module : LoadedModule} {op : Opcode} {operands : List Word}
    (h : Moves module op operands t t') : Same t t' := by
  cases h with
  | stay h => exact h.same
  | jump _ h => exact h.same.trans ⟨rfl, rfl, rfl, rfl, rfl⟩
  | jumpEqual _ h => exact h.same.trans ⟨rfl, rfl, rfl, rfl, rfl⟩
  | call => exact ⟨rfl, rfl, rfl, rfl, rfl⟩
  | ret _ h => exact h.same.trans (ret_same ..)
  | reset => exact ⟨rfl, rfl, rfl, rfl, rfl⟩

/-- A thread that stays keeps its frames within its locals. -/
theorem Framed.stays (h : Framed t) (hs : Stays t t') : Framed t' := by
  obtain ⟨⟨hregs, harrs⟩, hframes⟩ := h
  refine ⟨⟨?_, ?_⟩, ?_⟩
  · rw [hs.regBase, hs.regs]
    exact hregs
  · rw [hs.arrBase, hs.arrs]
    exact harrs
  · rw [hs.frames, hs.regBase, hs.arrBase]
    exact hframes

/-- A restated thread keeps its frames within its locals. -/
theorem Framed.restated {now : Nat} (h : Framed t) (hr : Restated now t t') : Framed t' := by
  have hnoted : Framed { t with lastTick := t'.lastTick } := ⟨h.bases, h.frames⟩
  exact hnoted.stays hr.stays

/-- Returning goes back to a frame that lies within what is left. -/
theorem Framed.returns (h : Framed t) (value : Option Word) : Framed (t.ret value) := by
  obtain ⟨⟨hregs, harrs⟩, hframes⟩ := h
  unfold ret
  split
  · exact ⟨⟨hregs, harrs⟩, hframes⟩
  · rename_i f rest heq
    rw [heq] at hframes
    obtain ⟨hreg, harr, hrest⟩ := hframes
    have hback : Framed { t with
        frames := rest, regs := t.regs.take t.regBase, arrs := t.arrs.take t.arrBase
        regBase := f.regBase, arrBase := f.arrBase, codePtr := f.ret } := by
      refine ⟨⟨?_, ?_⟩, hrest⟩
      · simp only [Array.take_eq_extract, Array.size_extract]
        omega
      · simp only [Array.take_eq_extract, Array.size_extract]
        omega
    dsimp only
    split
    · exact hback
    · exact hback.stays ((Stays.refl _).push _)

/-- A thread at the start of a script has no frames. -/
theorem framed_reset (t : Thread) (s : Script) : Framed (t.reset s) :=
  ⟨⟨Nat.zero_le _, Nat.zero_le _⟩, trivial⟩

/-- Instructions keep frames within the locals. -/
theorem Framed.moves {module : LoadedModule} {op : Opcode} {operands : List Word} (h : Framed t)
    (hm : Moves module op operands t t') : Framed t' := by
  cases hm with
  | stay hs => exact h.stays hs
  | jump _ hs => exact ⟨(h.stays hs).bases, (h.stays hs).frames⟩
  | jumpEqual _ hs => exact ⟨(h.stays hs).bases, (h.stays hs).frames⟩
  | call f hop hf discard =>
    refine ⟨⟨?_, ?_⟩, h.bases.1, h.bases.2, h.frames⟩
    · simp [Thread.call, ← Array.length_toList]
    · simp [Thread.call]
  | ret _ hs value => exact (h.stays hs).returns value
  | reset s hs => exact framed_reset t s

/-- What a thread does in its turn: it stays the same thread with its frames in order, and it does not
become inactive. -/
structure Proceeds (t t' : Thread) : Prop where
  same : Same t t'
  framed : Framed t → Framed t'
  lastTick : t'.lastTick = t.lastTick
  inactive : t'.state = .inactive → t.state = .inactive

theorem Proceeds.refl (t : Thread) : Proceeds t t := ⟨.refl t, fun h => h, rfl, fun h => h⟩

theorem Proceeds.trans (h : Proceeds t t') (h' : Proceeds t' t'') : Proceeds t t'' where
  same := h.same.trans h'.same
  framed hf := h'.framed (h.framed hf)
  lastTick := h'.lastTick.trans h.lastTick
  inactive hs := h.inactive (h'.inactive hs)

/-- A thread that stays and does not become inactive proceeds. -/
theorem Stays.proceeds (h : Stays t t') (hstate : t'.state = .inactive → t.state = .inactive) :
    Proceeds t t' :=
  ⟨h.same, fun hf => hf.stays h, h.lastTick, hstate⟩

/-- A thread is put into a state. -/
theorem proceeds_setState (t : Thread) {s : ThreadState} (hs : s ≠ .inactive) :
    Proceeds t { t with state := s } :=
  ((Stays.refl t).setState s).proceeds fun h => absurd h hs

/-- Instructions note no tick. -/
theorem Moves.lastTick_eq {module : LoadedModule} {op : Opcode} {operands : List Word}
    (h : Moves module op operands t t') : t'.lastTick = t.lastTick := by
  cases h with
  | stay h => exact h.lastTick
  | jump _ h => exact h.lastTick
  | jumpEqual _ h => exact h.lastTick
  | call => rfl
  | ret _ h =>
    refine Eq.trans ?_ h.lastTick
    unfold Thread.ret
    split
    · rfl
    · dsimp only
      split <;> rfl
  | reset => rfl

/-- Instructions that do not make a thread inactive let it proceed. -/
theorem Moves.proceeds {module : LoadedModule} {op : Opcode} {operands : List Word}
    (h : Moves module op operands t t') (hstate : t'.state = .inactive → t.state = .inactive) :
    Proceeds t t' :=
  ⟨h.same, fun hf => hf.moves h, h.lastTick_eq, hstate⟩

/-- The thread fits its place, and so do its frames. -/
structure Owned (t : Thread) (x : Module) (scope : ScopeId) (i : Nat) : Prop where
  fits : t.Fits x scope i
  frames : FramesWithin t.frames t.regBase t.arrBase

/-- A thread goes on to fit the place it fitted. -/
theorem Owned.same {x : Module} {scope : ScopeId} {i : Nat} (h : t.Owned x scope i)
    (hsame : Same t t') (hframed : Framed t') : t'.Owned x scope i where
  fits := {
    module := by rw [hsame.module]; exact h.fits.module
    scope := hsame.scope.trans h.fits.scope
    index := hsame.moduleIndex.trans h.fits.index
    script := by rw [hsame.scriptIndex]; exact h.fits.script
    bases := hframed.bases }
  frames := hframed.frames

/-- The frames of a thread in its place are within its locals. -/
theorem Owned.framed {x : Module} {scope : ScopeId} {i : Nat} (h : t.Owned x scope i) : t.Framed :=
  ⟨h.fits.bases, h.frames⟩

/-- A new thread fits the place it was made for. -/
theorem owned_of_make? {id : Word} {x : LoadedModule} {scope : ScopeId} {i j : Nat}
    {args : List Word} {info : ThreadInfo} (h : make? id x scope i j args info = some t) :
    t.Owned x.toModule scope i := by
  obtain ⟨s, hs, rfl⟩ := Option.map_eq_some_iff.1 h
  refine ⟨⟨rfl, rfl, rfl, ?_, (framed_reset _ s).bases⟩, trivial⟩
  exact (Array.getElem?_eq_some_iff.1 hs).1

end Thread

end ScriptMachine
