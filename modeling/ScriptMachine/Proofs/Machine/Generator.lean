import Mathlib.Algebra.Ring.Int.Defs
import Mathlib.Algebra.Ring.Nat
import Mathlib.Logic.Function.Basic
import ScriptMachine.Machine.Step

/-!
# The random generator

The state of the generator is a word that goes through three steps, each of which adds to it, bit by
bit, a shifted copy of itself.  Such a step is linear and takes no word but 0 to 0, since a word that
is its own shifted copy is 0.  So the steps are injective, no state is lost, and 0 is reached from 0
alone (`nextRandom_injective`, `nextRandom_eq_zero_iff`).

A state is brought between two bounds by its remainder on division by the number of values there are.
With 64 bits for bounds and counts every number on the way is the exact one, also where all 2 ^ 32 values
lie between the bounds (`betweenExact`), and so the value does lie between them (`inRange_random`).
-/

namespace ScriptMachine

/-! ## A word and its shifted copy -/

namespace XorShift

variable {w k : Nat} {x : BitVec w}

/-- A step that adds a copy to a word is injective, if copying is linear and only 0 is its own copy. -/
theorem injective_xor {copy : BitVec w → BitVec w} (hlinear : ∀ x y, copy (x ^^^ y) = copy x ^^^ copy y)
    (hfixed : ∀ x, x = copy x → x = 0#w) : Function.Injective fun x => x ^^^ copy x := by
  intro x y h
  have hsum : (x ^^^ y) ^^^ copy (x ^^^ y) = 0#w := by
    rw [hlinear]
    calc (x ^^^ y) ^^^ (copy x ^^^ copy y)
        = (x ^^^ copy x) ^^^ (y ^^^ copy y) := by ac_rfl
      _ = 0#w := by rw [show x ^^^ copy x = y ^^^ copy y from h, BitVec.xor_self]
  have hzero : x ^^^ y = 0#w := hfixed _ (BitVec.xor_eq_zero_iff.1 hsum)
  exact BitVec.xor_eq_zero_iff.1 hzero

/-- The bits of a word that is its own copy shifted to the left are 0, from the lowest on. -/
theorem eq_zero_of_eq_shiftLeft (hk : 0 < k) (h : x = x <<< k) : x = 0#w := by
  have hbits : ∀ n i, i < n → x.getLsbD i = false := by
    intro n
    induction n with
    | zero =>
      intro i hi
      omega
    | succ n ih =>
      intro i hi
      rw [h, BitVec.getLsbD_shiftLeft]
      by_cases hlow : i < k
      · simp [hlow]
      · simp [ih (i - k) (by omega)]
  apply BitVec.eq_of_getLsbD_eq
  intro i _
  rw [hbits (i + 1) i (Nat.lt_succ_self i), BitVec.getLsbD_zero]

/-- The bits of a word that is its own copy shifted to the right are 0, from the highest on. -/
theorem eq_zero_of_eq_ushiftRight (hk : 0 < k) (h : x = x >>> k) : x = 0#w := by
  have hbits : ∀ n i, w ≤ i + n → x.getLsbD i = false := by
    intro n
    induction n with
    | zero =>
      intro i hi
      exact BitVec.getLsbD_of_ge x i hi
    | succ n ih =>
      intro i hi
      rw [h, BitVec.getLsbD_ushiftRight]
      exact ih (k + i) (by omega)
  apply BitVec.eq_of_getLsbD_eq
  intro i _
  rw [hbits w i (Nat.le_add_left w i), BitVec.getLsbD_zero]

/-- Mixing a word with itself shifted to the left loses nothing. -/
theorem injective_shiftLeft (hk : 0 < k) : Function.Injective fun x : BitVec w => x ^^^ x <<< k :=
  injective_xor (fun x y => BitVec.shiftLeft_xor_distrib x y k) fun _ => eq_zero_of_eq_shiftLeft hk

/-- Mixing a word with itself shifted to the right loses nothing. -/
theorem injective_ushiftRight (hk : 0 < k) : Function.Injective fun x : BitVec w => x ^^^ x >>> k :=
  injective_xor (fun x y => BitVec.ushiftRight_xor_distrib x y k) fun _ => eq_zero_of_eq_ushiftRight hk

end XorShift

namespace Machine

/-! ## The next state -/

/-- No two states have the same next state. -/
theorem nextRandom_injective : Function.Injective nextRandom := by
  intro x y h
  have hbits : (nextRandom x).toBitVec = (nextRandom y).toBitVec := congrArg UInt32.toBitVec h
  apply UInt32.toBitVec_inj.1
  apply XorShift.injective_shiftLeft (k := 13) (by decide)
  apply XorShift.injective_ushiftRight (k := 17) (by decide)
  apply XorShift.injective_shiftLeft (k := 5) (by decide)
  exact hbits

/-- The generator gets stuck at 0, and only there. -/
theorem nextRandom_eq_zero_iff {x : Word} : nextRandom x = 0 ↔ x = 0 := by
  have hzero : nextRandom 0 = 0 := by decide
  constructor
  · intro h
    exact nextRandom_injective (h.trans hzero.symm)
  · intro h
    rw [h, hzero]

/-! ## Values between two bounds -/

/-- How many values there are from `low` to `high`. -/
def span (low high : Int32) : UInt64 := (high.toInt64 - low.toInt64 + 1).toUInt64

/-- The value from `low` to `high` that a state of the generator stands for. -/
def between (x : Word) (low high : Int32) : Int32 :=
  (low.toInt64 + (x.toUInt64 % span low high).toInt64).toInt32

/-- The bounds may be given in either order. -/
theorem pick_eq (x : Word) (a b : Int32) : pick x a b = between x (min a b) (max a b) := by
  have hmin : min a b = if a ≤ b then a else b := rfl
  have hmax : max a b = if a ≤ b then b else a := rfl
  unfold pick
  rw [hmin, hmax]
  by_cases h : a ≤ b
  · simp only [if_pos h]
    rfl
  · simp only [if_neg h]
    rfl

/-- The lesser bound is the lesser integer. -/
theorem toInt_min (a b : Int32) : (min a b).toInt = min a.toInt b.toInt := by
  have hmin : min a b = if a ≤ b then a else b := rfl
  rw [hmin]
  split <;> rename_i h <;> rw [Int32.le_iff_toInt_le] at h <;> omega

/-- The greater bound is the greater integer. -/
theorem toInt_max (a b : Int32) : (max a b).toInt = max a.toInt b.toInt := by
  have hmax : max a b = if a ≤ b then b else a := rfl
  rw [hmax]
  split <;> rename_i h <;> rw [Int32.le_iff_toInt_le] at h <;> omega

/-- The bounds are in order once they are sorted. -/
theorem toInt_min_le_toInt_max (a b : Int32) : (min a b).toInt ≤ (max a b).toInt := by
  rw [toInt_min, toInt_max]
  omega

/-- A number that is not negative is kept when it is taken for one without a sign. -/
theorem toNat_toUInt64 {x : Int64} (h : 0 ≤ x.toInt) : (x.toUInt64.toNat : Int) = x.toInt := by
  have hbits : x.toInt = if 2 * x.toUInt64.toNat < 2 ^ 64 then (x.toUInt64.toNat : Int)
      else (x.toUInt64.toNat : Int) - (2 ^ 64 : Nat) := BitVec.toInt_eq_toNat_cond x.toBitVec
  have hlt := x.toUInt64.toNat_lt
  split at hbits <;> omega

/-- A number that has room for a sign is kept when it is given one. -/
theorem toInt_toInt64 {x : UInt64} (h : x.toNat < 2 ^ 63) : x.toInt64.toInt = x.toNat := by
  have hbits : x.toInt64.toInt = if 2 * x.toNat < 2 ^ 64 then (x.toNat : Int)
      else (x.toNat : Int) - (2 ^ 64 : Nat) := BitVec.toInt_eq_toNat_cond x.toBitVec
  rw [hbits, if_pos (by omega)]

/-- Every number on the way to a value from `low` to `high` is the exact one. -/
structure BetweenExact (x : Word) (low high : Int32) : Prop where
  difference : (high.toInt64 - low.toInt64).toInt = high.toInt - low.toInt
  count : (high.toInt64 - low.toInt64 + 1).toInt = high.toInt - low.toInt + 1
  span : ((span low high).toNat : Int) = high.toInt - low.toInt + 1
  rest : (x.toUInt64 % Machine.span low high).toInt64.toInt = x.toNat % (high.toInt - low.toInt + 1)
  sum : (low.toInt64 + (x.toUInt64 % Machine.span low high).toInt64).toInt =
    low.toInt + x.toNat % (high.toInt - low.toInt + 1)
  value : (between x low high).toInt = low.toInt + x.toNat % (high.toInt - low.toInt + 1)

/-- The intermediates between two bounds do not overflow. -/
theorem betweenExact {low high : Int32} (h : low.toInt ≤ high.toInt) (x : Word) :
    BetweenExact x low high := by
  have hlow : low.toInt64.toInt = low.toInt := Int32.toInt_toInt64 low
  have hhigh : high.toInt64.toInt = high.toInt := Int32.toInt_toInt64 high
  have hone : (1 : Int64).toInt = 1 := rfl
  have hle := low.le_toInt
  have hlt := high.toInt_lt
  have hdifference : (high.toInt64 - low.toInt64).toInt = high.toInt - low.toInt := by
    rw [Int64.toInt_sub, hlow, hhigh]
    apply Int.bmod_eq_of_le <;> omega
  have hcount : (high.toInt64 - low.toInt64 + 1).toInt = high.toInt - low.toInt + 1 := by
    rw [Int64.toInt_add, hdifference, hone]
    apply Int.bmod_eq_of_le <;> omega
  have hspan : ((span low high).toNat : Int) = high.toInt - low.toInt + 1 := by
    rw [← hcount]
    apply toNat_toUInt64
    omega
  have hrest : (x.toUInt64 % span low high).toInt64.toInt =
      x.toNat % (high.toInt - low.toInt + 1) := by
    have hrest : ((x.toUInt64 % span low high).toNat : Int) =
        x.toNat % (high.toInt - low.toInt + 1) := by
      rw [UInt64.toNat_mod, UInt32.toNat_toUInt64, Int.natCast_emod, hspan]
    rw [toInt_toInt64, hrest]
    have hx := x.toNat_lt
    have hle : (x.toUInt64 % span low high).toNat ≤ x.toNat := by
      rw [UInt64.toNat_mod, UInt32.toNat_toUInt64]
      exact Nat.mod_le ..
    omega
  have hbelow : (x.toNat : Int) % (high.toInt - low.toInt + 1) < high.toInt - low.toInt + 1 :=
    Int.emod_lt_of_pos _ (by omega)
  have hpos : 0 ≤ (x.toNat : Int) % (high.toInt - low.toInt + 1) := Int.emod_nonneg _ (by omega)
  have hsum : (low.toInt64 + (x.toUInt64 % span low high).toInt64).toInt =
      low.toInt + x.toNat % (high.toInt - low.toInt + 1) := by
    rw [Int64.toInt_add, hlow, hrest]
    apply Int.bmod_eq_of_le <;> omega
  refine ⟨hdifference, hcount, hspan, hrest, hsum, ?_⟩
  unfold between
  rw [Int64.toInt_toInt32, hsum]
  apply Int.bmod_eq_of_le <;> omega

/-- A value lies between two bounds, which are given in either order. -/
def InRange (a b v : Int32) : Prop := min a.toInt b.toInt ≤ v.toInt ∧ v.toInt ≤ max a.toInt b.toInt

/-- **A random value** lies between its bounds, whatever the state of the generator is. -/
theorem inRange_random (m : Machine) (a b : Int32) : InRange a b (m.random a b).1 := by
  have hvalue := (betweenExact (toInt_min_le_toInt_max a b) (nextRandom m.rng)).value
  rw [← pick_eq, toInt_min, toInt_max] at hvalue
  have hpick : (m.random a b).1 = pick (nextRandom m.rng) a b := rfl
  have hpos : 0 ≤ ((nextRandom m.rng).toNat : Int) % (max a.toInt b.toInt - min a.toInt b.toInt + 1) :=
    Int.emod_nonneg _ (by omega)
  have hlt : ((nextRandom m.rng).toNat : Int) % (max a.toInt b.toInt - min a.toInt b.toInt + 1) <
      max a.toInt b.toInt - min a.toInt b.toInt + 1 := Int.emod_lt_of_pos _ (by omega)
  rw [InRange, hpick, hvalue]
  omega

/-- So do all the values that are drawn one after another. -/
theorem inRange_randoms {a b v : Int32} {count : Nat} {m : Machine}
    (h : v ∈ (randoms a b count m).1) : InRange a b v := by
  induction count generalizing m with
  | zero => cases h
  | succ count ih =>
    rcases List.mem_cons.1 h with h | h
    · rw [h]
      exact inRange_random m a b
    · exact ih h

/-- A script that asks for a random value gets one between the bounds it gives; missing bounds are 0. -/
theorem callBuiltin_random (turn : Turn) (m : Machine) (t : Thread) (args : List Word) :
    ∃ v, InRange (args.getD 0 0).signed (args.getD 1 0).signed v ∧
      m.callBuiltin turn t .random args =
        some ({ m with rng := nextRandom m.rng }, t.push (.ofSigned v)) := by
  refine ⟨_, inRange_random m _ _, ?_⟩
  match args with
  | [] => rfl
  | [a] => rfl
  | a :: b :: rest => rfl

end Machine

end ScriptMachine
