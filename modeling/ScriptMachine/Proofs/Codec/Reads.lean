import ScriptMachine.Codec.Varint

/-!
# Readers that take back what was written

`Reader.Reads r bytes a` says that `r`, given `bytes` and anything after them, answers `a` and
leaves exactly what came after.  The relation is closed under sequencing and under counted
repetition, so the round trip of a format follows the shape of its writer: `Reads.bind` for two
fields one after the other, `Reads.times` and `Reads.list` for a field that is repeated.

`Reader.Yields r P` is the other half of a reader's contract: whatever the bytes are, an answer of
`r` has the property `P`.  It collects what the readers check.
-/

namespace ScriptMachine

namespace Reader

variable {α β : Type}

/-- From `bytes` at the front, the reader takes `a` and nothing else. -/
def Reads (r : Reader α) (bytes : Bytes) (a : α) : Prop :=
  ∀ rest, r (bytes ++ rest) = .ok (a, rest)

/-- Every answer of the reader has a property. -/
def Yields (r : Reader α) (P : α → Prop) : Prop :=
  ∀ s a rest, r s = .ok (a, rest) → P a

/-- Sequencing, one argument at a time. -/
theorem bind_apply (r : Reader α) (f : α → Reader β) (s : Bytes) :
    (r >>= f) s = match r s with
      | .ok (a, rest) => f a rest
      | .error e => .error e := by
  change (r s).bind (fun p => f p.1 p.2) = _
  cases r s <;> rfl

theorem pure_apply (a : α) (s : Bytes) : (Pure.pure a : Reader α) s = .ok (a, s) := rfl

/-- A reader that takes nothing. -/
theorem Reads.pure (a : α) : Reads (Pure.pure a) [] a := fun _ => rfl

/-- Two fields one after the other. -/
theorem Reads.bind {r : Reader α} {f : α → Reader β} {b c : Bytes} {x : α} {y : β}
    (hr : Reads r b x) (hf : Reads (f x) c y) : Reads (r >>= f) (b ++ c) y := by
  intro rest
  rw [bind_apply, List.append_assoc, hr]
  exact hf rest

/-- The value just read, changed. -/
theorem Reads.map {r : Reader α} {b : Bytes} {x : α} (f : α → β) (hr : Reads r b x) :
    Reads (r >>= fun x => Pure.pure (f x)) b (f x) := by
  intro rest
  rw [bind_apply, hr]
  rfl

theorem reads_block (b : Bytes) : Reads (block b.length) b b := by
  intro rest
  simp [block]

theorem reads_signature {b : Bytes} (h : b.length = 4) : Reads (signature b) b () := by
  intro rest
  have hb : block 4 (b ++ rest) = .ok (b, rest) := h ▸ reads_block b rest
  simp only [signature, bind_apply, hb, if_true]
  rfl

theorem reads_bool (b : Bool) : Reads bool (Writer.bool b) b := by
  intro rest
  cases b <;> rfl

/-- As many values as were written, each read back on its own. -/
theorem Reads.times {r : Reader β} {w : α → Bytes} {g : α → β} {xs : List α}
    (h : ∀ x ∈ xs, Reads r (w x) (g x)) :
    Reads (times r xs.length) (xs.flatMap w) (xs.map g) := by
  induction xs with
  | nil => exact Reads.pure []
  | cons x xs ih =>
    have hx := h x List.mem_cons_self
    have hxs := ih fun y hy => h y (List.mem_cons_of_mem _ hy)
    exact hx.bind (f := fun y => Reader.times r xs.length >>= fun ys => Pure.pure (y :: ys))
      (hxs.map (g x :: ·))

/-- As many values as were written, each read back at its own position. -/
theorem Reads.timesFrom {r : Nat → Reader β} {w : α → Bytes} {g : α → β} {xs : List α} {i : Nat}
    (h : ∀ j x, xs[j]? = some x → Reads (r (i + j)) (w x) (g x)) :
    Reads (timesFrom r i xs.length) (xs.flatMap w) (xs.map g) := by
  induction xs generalizing i with
  | nil => exact Reads.pure []
  | cons x xs ih =>
    have hx : Reads (r i) (w x) (g x) := h 0 x rfl
    have hxs : Reads (Reader.timesFrom r (i + 1) xs.length) (xs.flatMap w) (xs.map g) := by
      apply ih
      intro j y hy
      have hj := h (j + 1) y (by simpa using hy)
      rwa [show i + (j + 1) = i + 1 + j by omega] at hj
    exact hx.bind (f := fun y => Reader.timesFrom r (i + 1) xs.length >>= fun ys =>
      Pure.pure (y :: ys)) (hxs.map (g x :: ·))

/-- What two steps yield is what the second yields from whatever the first does. -/
theorem Yields.bind {r : Reader α} {f : α → Reader β} {P : α → Prop} {Q : β → Prop}
    (hr : Yields r P) (hf : ∀ a, P a → Yields (f a) Q) : Yields (r >>= f) Q := by
  intro s b rest h
  rw [bind_apply] at h
  cases hs : r s with
  | error e => simp [hs] at h
  | ok p =>
    obtain ⟨a, mid⟩ := p
    rw [hs] at h
    exact hf a (hr s a mid hs) mid b rest h

/-- A reader that reads nothing yields what it is given. -/
theorem Yields.pure {P : α → Prop} {a : α} (h : P a) : Yields (Pure.pure a) P := by
  intro s b rest hb
  cases hb
  exact h

/-- A reader that fails yields nothing. -/
theorem Yields.malformed {P : α → Prop} (d : Defect) : Yields (Reader.malformed d) P := by
  intro s a rest h
  cases h

theorem Yields.trivial (r : Reader α) : Yields r fun _ => True := fun _ _ _ _ => True.intro

/-- Repetition yields lists of what one round yields. -/
theorem Yields.times {r : Reader α} {P : α → Prop} (hr : Yields r P) (n : Nat) :
    Yields (times r n) fun xs => ∀ x ∈ xs, P x := by
  induction n with
  | zero => exact Yields.pure (by simp)
  | succ n ih =>
    refine hr.bind fun x hx => ih.bind fun xs hxs => Yields.pure ?_
    intro y hy
    rcases List.mem_cons.1 hy with rfl | hy
    · exact hx
    · exact hxs y hy

/-- Repetition with positions yields lists of what the rounds yield. -/
theorem Yields.timesFrom {r : Nat → Reader α} {P : Nat → α → Prop} (hr : ∀ i, Yields (r i) (P i))
    (i n : Nat) : Yields (timesFrom r i n) fun xs => ∀ j x, xs[j]? = some x → P (i + j) x := by
  induction n generalizing i with
  | zero => exact Yields.pure (by simp)
  | succ n ih =>
    refine (hr i).bind fun x hx => (ih (i + 1)).bind fun xs hxs => Yields.pure ?_
    intro j y hy
    cases j with
    | zero => simp_all
    | succ j =>
      rw [show i + (j + 1) = i + 1 + j by omega]
      exact hxs j y (by simpa using hy)

end Reader

end ScriptMachine
