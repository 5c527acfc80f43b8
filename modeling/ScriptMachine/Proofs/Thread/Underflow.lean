import ScriptMachine.Proofs.Machine.Nesting
import ScriptMachine.Proofs.Thread.Unseen

/-!
# An empty stack reads as zeros

A stack that has run empty gives zeros, so it should not matter whether zeros lie beneath the operands
or nothing does.  `Thread.padded` puts zeros there.  What takes words from the stack takes the same
words from the padded one and leaves zeros beneath the rest, and nothing but the operand stack tells
the two threads apart.  So every instruction does the same with both, with one exception: a jump on
equality compares with 0, finds a 0 on top of the padded stack, and nothing on the empty one
(`Machine.step_padded_iff`).
-/

namespace ScriptMachine

namespace Thread

/-- The thread with `n` zeros beneath its operand stack. -/
def padded (t : Thread) (n : Nat) : Thread := { t with stack := t.stack ++ List.replicate n 0 }

/-- Zeros at the bottom do not show at the top. -/
@[simp] theorem headD_padded (t : Thread) (n : Nat) :
    (t.padded n).stack.headD 0 = t.stack.headD 0 := by
  simp only [padded]
  cases t.stack with
  | nil => cases n <;> rfl
  | cons w rest => rfl

/-- Only words other than 0 are on top of just one of the two stacks. -/
theorem head?_padded (t : Thread) (n : Nat) {w : Word} (h : t.stack = [] → w = 0 → n = 0) :
    (t.padded n).stack.head? = some w ↔ t.stack.head? = some w := by
  simp only [padded]
  cases hstack : t.stack with
  | nil =>
    cases n with
    | zero => rfl
    | succ k =>
      have hw : w ≠ 0 := fun hw => Nat.succ_ne_zero k (h hstack hw)
      simp [List.replicate_succ, hw.symm]
  | cons v rest => rfl

/-- Popping does not tell zeros at the bottom from an empty stack. -/
theorem pop_padded (t : Thread) (n : Nat) :
    ∃ k, (t.padded n).pop = (t.pop.1, t.pop.2.padded k) := by
  simp only [padded, pop]
  cases hstack : t.stack with
  | nil =>
    cases n with
    | zero => exact ⟨0, by simp [hstack]⟩
    | succ k => exact ⟨k, by simp [hstack, List.replicate_succ]⟩
  | cons w rest => exact ⟨n, rfl⟩

/-! ## Words taken together -/

section

variable (stack : List Word) (n p : Nat)

/-- Dropping words leaves those zeros that are not reached. -/
theorem drop_zeros :
    (stack ++ List.replicate n 0).drop p =
      stack.drop p ++ List.replicate (n - (p - stack.length)) 0 := by
  rw [List.drop_append, List.drop_replicate]

/-- Zeros put in front of the words taken make up for those that were not there. -/
theorem take_zeros :
    List.replicate (p - ((stack ++ List.replicate n 0).take p).length) 0 ++
        ((stack ++ List.replicate n 0).take p).reverse =
      List.replicate (p - (stack.take p).length) 0 ++ (stack.take p).reverse := by
  rw [List.take_append, List.take_replicate, List.reverse_append, List.reverse_replicate,
    ← List.append_assoc, List.replicate_append_replicate]
  congr 2
  simp only [List.length_append, List.length_take, List.length_replicate]
  omega

end

/-- Taking arguments does not tell zeros at the bottom from an empty stack. -/
theorem takeArgs_padded (t : Thread) (n : Nat) (count : Word) :
    ∃ k, (t.padded n).takeArgs count = ((t.takeArgs count).1, (t.takeArgs count).2.padded k) := by
  refine ⟨n - (min count.toNat maxArgs - t.stack.length), ?_⟩
  simp only [takeArgs, padded, take_zeros, drop_zeros]

/-- A call does not tell zeros at the bottom from an empty stack. -/
theorem call_padded (t : Thread) (n : Nat) (f : Function) (index : Word) (discard : Bool) :
    ∃ k, (t.padded n).call f index discard = (t.call f index discard).padded k := by
  refine ⟨n - (f.paramCount.toNat - t.stack.length), ?_⟩
  simp only [call, padded, take_zeros, drop_zeros]

/-- A return leaves the zeros at the bottom. -/
theorem ret_padded (t : Thread) (n : Nat) (value : Option Word) :
    (t.padded n).ret value = (t.ret value).padded n := by
  simp only [ret, padded]
  cases t.frames with
  | nil => rfl
  | cons f rest =>
    simp only
    split <;> rfl

/-- A built-in function has its arguments already, and of the stack it sees nothing more. -/
theorem unseen_padded (n : Nat) : Unseen fun t => t.padded n :=
  ⟨fun _ => rfl, fun _ => rfl, fun _ => rfl, fun _ => rfl, fun _ => rfl, fun _ => rfl,
    fun _ _ => rfl, fun _ _ => rfl, fun _ _ => rfl, fun _ _ => rfl⟩

end Thread

namespace Machine

/-! ## Instructions -/

section

variable {host : Host} {turn : Turn} {exec : Machine → Option Machine} {module : LoadedModule}
variable {op : Opcode} {operands : List Word} {m : Machine} {t : Thread}

/-- Access to variables does not tell zeros at the bottom from an empty stack. -/
theorem accessVar_padded (m : Machine) (t : Thread) (level : Level) (action : VarAction) (i : Word)
    (n : Nat) :
    ∃ k, m.accessVar (t.padded n) level action i =
      ((m.accessVar t level action i).1, (m.accessVar t level action i).2.padded k) := by
  cases action with
  | pushReg => exact ⟨n, rfl⟩
  | incReg | decReg => cases level <;> exact ⟨n, rfl⟩
  | dropReg =>
    obtain ⟨k, hk⟩ := t.pop_padded n
    refine ⟨k, ?_⟩
    simp only [accessVar, hk]
    cases level <;> rfl
  | pushArr =>
    obtain ⟨k, hk⟩ := t.pop_padded n
    refine ⟨k, ?_⟩
    simp only [accessVar, hk]
    cases level <;> rfl
  | dropArr =>
    obtain ⟨k, hk⟩ := t.pop_padded n
    obtain ⟨k', hk'⟩ := t.pop.2.pop_padded k
    refine ⟨k', ?_⟩
    simp only [accessVar, hk, hk']
    cases level with
    | thread => rfl
    | _ =>
      simp only [Thread.padded]
      split <;> rfl

/-- A function of the table does not tell zeros at the bottom from an empty stack. -/
theorem step_callFunc_padded (hhost : hostCall? .callFunc operands m = none) (n : Nat) :
    ∃ k, step host turn exec module .callFunc operands m (t.padded n) =
      (step host turn exec module .callFunc operands m t).map fun p =>
        (p.1, p.2.1.padded k, p.2.2) := by
  obtain ⟨k, hk⟩ := t.takeArgs_padded n (operands.headD 0)
  refine ⟨k, ?_⟩
  simp only [hostCall?] at hhost
  simp only [step, callFunc, hk]
  split
  · split
    · rw [callBuiltin_unseen (Thread.unseen_padded k), Option.map_map, Option.map_map]
      rfl
    · rfl
  · rename_i hfunc
    rw [if_neg hfunc] at hhost
    simp only [hhost]
    rfl

/-- A jump on equality sees the difference only if it compares an empty stack with 0. -/
theorem step_jumpEqual_padded {n : Nat} (h : t.stack = [] → operands.headD 0 = 0 → n = 0) :
    ∃ k, step host turn exec module .jumpEqual operands m (t.padded n) =
      (step host turn exec module .jumpEqual operands m t).map fun p =>
        (p.1, p.2.1.padded k, p.2.2) := by
  have hhead := t.head?_padded n h
  obtain ⟨k, hk⟩ := t.pop_padded n
  by_cases heq : t.stack.head? = some (operands.headD 0)
  · refine ⟨k, ?_⟩
    simp only [step, hk, if_pos heq, if_pos (hhead.2 heq)]
    rfl
  · refine ⟨n, ?_⟩
    simp only [step, if_neg heq, if_neg (mt hhead.1 heq)]
    rfl

/-- Where it does, it jumps on the padded stack and goes on with the empty one. -/
theorem step_jumpEqual_empty (hstack : t.stack = []) (hword : operands.headD 0 = 0) (n : Nat) :
    step host turn exec module .jumpEqual operands m t = some (m, t, false) ∧
      step host turn exec module .jumpEqual operands m (t.padded (n + 1)) =
        some (m, { t with codePtr := (operands.tail.headD 0).toNat }.padded n, false) := by
  constructor
  · simp [step, hstack]
  · rw [step, hword]
    simp [Thread.padded, Thread.pop, hstack, List.replicate_succ]

/-- Every other instruction that calls no host function does the same with both stacks. -/
theorem step_padded (hop : op ≠ .jumpEqual) (hhost : hostCall? op operands m = none) (n : Nat) :
    ∃ k, step host turn exec module op operands m (t.padded n) =
      (step host turn exec module op operands m t).map fun p => (p.1, p.2.1.padded k, p.2.2) := by
  obtain ⟨k, hk⟩ := t.pop_padded n
  cases op with
  | jumpEqual => exact absurd rfl hop
  | nop | kill | terminate | suspend | delayLit | pushLit | jump => exact ⟨n, rfl⟩
  | restart =>
    simp only [step, Thread.padded]
    split
    · exact ⟨0, by simp [Thread.reset]⟩
    · exact ⟨n, rfl⟩
  | delay | waitNumber | waitName | waitTag | drop | unary _ =>
    refine ⟨k, ?_⟩
    simp only [step, hk]
    rfl
  | jumpTrue | jumpZero =>
    refine ⟨k, ?_⟩
    simp only [step, hk]
    split <;> rfl
  | copy => exact ⟨n, by simp only [step, Thread.headD_padded]; rfl⟩
  | swap | binary _ =>
    obtain ⟨k', hk'⟩ := t.pop.2.pop_padded k
    refine ⟨k', ?_⟩
    simp only [step, hk, hk']
    rfl
  | var level action =>
    obtain ⟨k', hk'⟩ := accessVar_padded m t level action (operands.headD 0) n
    refine ⟨k', ?_⟩
    simp only [step, hk']
    rfl
  | call | callDiscard =>
    simp only [step]
    split
    · rename_i f _
      exact (t.call_padded n f (operands.headD 0) _).imp fun _ hcall =>
        congrArg (fun u => some (m, u, false)) hcall
    · exact ⟨n, rfl⟩
  | ret => exact ⟨n, by simp only [step, Thread.ret_padded]; rfl⟩
  | retValue =>
    refine ⟨k, ?_⟩
    simp only [step, hk, Thread.ret_padded]
    rfl
  | callFunc => exact step_callFunc_padded hhost n

/-- Every instruction that calls no host function does the same with zeros beneath the stack, and it
leaves zeros beneath what it leaves; but not a jump on equality that compares the 0 it is given with
an empty stack, unless it leads where the code goes on anyhow. -/
theorem step_padded_iff (hhost : hostCall? op operands m = none) (n : Nat) :
    (∃ k, step host turn exec module op operands m (t.padded n) =
        (step host turn exec module op operands m t).map fun p => (p.1, p.2.1.padded k, p.2.2)) ↔
      ¬ (op = .jumpEqual ∧ t.stack = [] ∧ operands.headD 0 = 0 ∧ n ≠ 0 ∧
        (operands.tail.headD 0).toNat ≠ t.codePtr) := by
  by_cases hop : op = .jumpEqual
  · subst hop
    by_cases hfar : t.stack = [] ∧ operands.headD 0 = 0 ∧ n ≠ 0
    · obtain ⟨hstack, hword, hn⟩ := hfar
      obtain ⟨n, rfl⟩ := Nat.exists_eq_succ_of_ne_zero hn
      rw [(step_jumpEqual_empty hstack hword n).1, (step_jumpEqual_empty hstack hword n).2]
      constructor
      · rintro ⟨k, hk⟩ ⟨-, -, -, -, hfar⟩
        simp only [Option.map_some, Option.some.injEq, Prod.mk.injEq] at hk
        exact hfar (congrArg Thread.codePtr hk.2.1)
      · intro hnear
        have hplace : (operands.tail.headD 0).toNat = t.codePtr :=
          Decidable.byContradiction fun hfar => hnear ⟨rfl, hstack, hword, hn, hfar⟩
        exact ⟨n, by rw [hplace]; rfl⟩
    · have hnear : t.stack = [] → operands.headD 0 = 0 → n = 0 := fun hstack hword =>
        Decidable.byContradiction fun hn => hfar ⟨hstack, hword, hn⟩
      refine iff_of_true (step_jumpEqual_padded hnear) ?_
      rintro ⟨-, hstack, hword, hn, -⟩
      exact hfar ⟨hstack, hword, hn⟩
  · refine iff_of_true (step_padded hop hhost n) ?_
    rintro ⟨rfl, -⟩
    exact hop rfl

end

/-- A random number is drawn alike with one argument where two are due and with zeros beneath it, but
a jump on equality with 0 leaves an empty stack where it is and follows two zeros. -/
theorem step_padded_iff_oneArgument :
    let quiet : Host := fun _ _ => .done false
    let run := step quiet (fun _ _ => none) some default
    let one : Thread := { id := 1, codePtr := 3, stack := [7] }
    let bare : Thread := { id := 1, codePtr := 3 }
    (hostCall? .callFunc [2, 20] (make {}) = none ∧
      ∃ k, run .callFunc [2, 20] (make {}) (one.padded 3) =
        (run .callFunc [2, 20] (make {}) one).map fun p => (p.1, p.2.1.padded k, p.2.2)) ∧
    (hostCall? .jumpEqual [0, 9] (make {}) = none ∧
      ¬ ∃ k, run .jumpEqual [0, 9] (make {}) (bare.padded 2) =
        (run .jumpEqual [0, 9] (make {}) bare).map fun p => (p.1, p.2.1.padded k, p.2.2)) := by
  intro quiet run one bare
  refine ⟨⟨by decide, (step_padded_iff (by decide) 3).2 (by decide)⟩, rfl, fun h => ?_⟩
  exact (step_padded_iff rfl 2).1 h (by decide)

end Machine

end ScriptMachine
