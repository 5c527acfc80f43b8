import Mathlib.Algebra.Ring.Int.Defs
import Mathlib.Algebra.Ring.Nat
import ScriptMachine.Machine.Step

/-!
# Arithmetic on words

Words wrap, fixed-point numbers are multiplied and divided through words of 64 bits, and results are
rounded in two ways: a product of fixed-point numbers and a shift to the right go down, every division
goes towards zero.  Over the integers one rule holds for all of this.  A word stands for an integer
(`Word.value`), and an operation makes the word that is congruent to the exact result modulo 2 ^ 32
(`BinaryOp.eval_exact`), because the 64-bit words in between hold the exact numbers (`wideExact`).

An arithmetic instruction takes two words from the stack, of which missing ones are 0, and leaves that
one word in their place, whatever they are (`Machine.arithmetic_exact`).
-/

namespace ScriptMachine

namespace Word

/-- The integer that a word stands for. -/
def value (w : Word) : Int := w.signed.toInt

/-- The word holds what is left of an integer modulo 2 ^ 32. -/
def Represents (w : Word) (i : Int) : Prop := (w.toNat : Int) = i % 2 ^ 32

/-- The value of a word is within 32 bits. -/
theorem natAbs_value_le (w : Word) : w.value.natAbs ≤ 2 ^ 31 := by
  have hlow : -2 ^ 31 ≤ w.value := w.signed.le_toInt
  have hhigh : w.value < 2 ^ 31 := w.signed.toInt_lt
  omega

/-- Only the word 0 has the value 0. -/
theorem value_eq_zero_iff {w : Word} : w.value = 0 ↔ w = 0 := by
  constructor
  · intro h
    have hsigned : w.signed = 0 := Int32.toInt_inj.1 h
    rw [← ofSigned_signed w, hsigned]
    rfl
  · intro h
    subst h
    rfl

/-- The pattern of a signed number holds every integer that the number is the residue of. -/
theorem represents_of_bmod {x : Int32} {i : Int} (h : x.toInt = i.bmod (2 ^ 32)) :
    (ofSigned x).Represents i := by
  have hbits : x.toInt = ((ofSigned x).toNat : Int).bmod (2 ^ 32) :=
    BitVec.toInt_eq_toNat_bmod x.toBitVec
  have hrest : i % (2 ^ 32 : Nat) = (ofSigned x).toNat % (2 ^ 32 : Nat) := by
    rw [← Int.bmod_emod, ← h, hbits, Int.bmod_emod]
  have hlt := (ofSigned x).toNat_lt
  unfold Represents
  omega

/-- A signed number is represented by its word. -/
theorem represents_ofSigned (x : Int32) : (ofSigned x).Represents x.toInt :=
  represents_of_bmod (Int32.toInt_bmod x).symm

/-- A word represents its value. -/
theorem represents_value (w : Word) : w.Represents w.value := by
  have h := represents_ofSigned w.signed
  rwa [ofSigned_signed] at h

/-! ## Words of 32 bits -/

/-- Sums wrap to the word that represents them. -/
theorem represents_add (a b : Word) : (a + b).Represents (a.value + b.value) := by
  have ha := a.represents_value
  have hb := b.represents_value
  unfold Represents at *
  rw [UInt32.toNat_add]
  omega

/-- Differences wrap to the word that represents them. -/
theorem represents_sub (a b : Word) : (a - b).Represents (a.value - b.value) := by
  have ha := a.represents_value
  have hb := b.represents_value
  have hlt := b.toNat_lt
  unfold Represents at *
  rw [UInt32.toNat_sub]
  omega

/-- Products wrap to the word that represents them. -/
theorem represents_mul (a b : Word) : (a * b).Represents (a.value * b.value) := by
  have ha := a.represents_value
  have hb := b.represents_value
  unfold Represents at *
  rw [UInt32.toNat_mul, Int.mul_emod, ← ha, ← hb]
  omega

/-- Quotients are represented, that of the least number by -1 included. -/
theorem represents_div (a b : Word) :
    (ofSigned (a.signed / b.signed)).Represents (a.value.tdiv b.value) :=
  represents_of_bmod (Int32.toInt_div a.signed b.signed)

/-- Remainders are represented. -/
theorem represents_mod (a b : Word) :
    (ofSigned (a.signed % b.signed)).Represents (a.value.tmod b.value) := by
  have h := represents_ofSigned (a.signed % b.signed)
  rwa [Int32.toInt_mod] at h

/-- A shift goes by the last five bits of a word, which is the remainder of the integer by 32. -/
theorem toNat_and_31 (b : Word) : (b &&& 31).toNat = (b.value % 32).toNat := by
  have hand : (b &&& 31).toNat = b.toNat % 2 ^ 5 := by
    rw [UInt32.toNat_and]
    exact Nat.and_two_pow_sub_one_eq_mod b.toNat 5
  have hb := b.represents_value
  unfold Represents at hb
  omega

/-- A left shift multiplies by a power of two. -/
theorem represents_shiftLeft (a b : Word) :
    (a <<< (b &&& 31)).Represents (a.value * 2 ^ (b.value % 32).toNat) := by
  have hcount : (b &&& 31).toNat % 32 = (b.value % 32).toNat := by
    rw [toNat_and_31]
    omega
  have ha := a.represents_value
  unfold Represents at *
  rw [UInt32.toNat_shiftLeft, hcount, Nat.shiftLeft_eq]
  generalize (b.value % 32).toNat = s
  calc ((a.toNat * 2 ^ s % 2 ^ 32 : Nat) : Int)
      = a.toNat * 2 ^ s % 2 ^ 32 := by norm_cast
    _ = a.value % 2 ^ 32 * 2 ^ s % 2 ^ 32 := by rw [ha]
    _ = a.value * 2 ^ s % 2 ^ 32 := by rw [Int.mul_emod, Int.emod_emod, ← Int.mul_emod]

/-- A shift of bits to the right that copies the sign goes down. -/
theorem toInt_shiftRight {w : Nat} (x count : BitVec w) :
    (x.sshiftRight' count).toInt = x.toInt.fdiv (2 ^ count.toNat) := by
  rw [BitVec.toInt_sshiftRight', Int.shiftRight_eq_div_pow, Int.fdiv_eq_ediv_of_nonneg]
  · norm_cast
  · exact Int.pow_nonneg (by decide)

/-- A shift count below the width is not reduced. -/
theorem smod_of_lt {count : BitVec 32} (h : count.toNat < 32) : count.smod 32 = count := by
  have hmsb : count.msb = false := by
    rw [BitVec.msb_eq_false_iff_two_mul_lt]
    omega
  apply BitVec.eq_of_toNat_eq
  rw [BitVec.toNat_smod, hmsb]
  exact Nat.mod_eq_of_lt h

/-- A right shift divides by a power of two and rounds down. -/
theorem represents_shiftRight (a b : Word) :
    (ofSigned (a.signed >>> (b &&& 31).signed)).Represents (a.value.fdiv (2 ^ (b.value % 32).toNat)) := by
  have hlt : (b &&& 31).toNat < 32 := by
    rw [toNat_and_31]
    omega
  have hcount : ((b &&& 31).toBitVec.smod 32).toNat = (b.value % 32).toNat := by
    rw [smod_of_lt hlt]
    exact toNat_and_31 b
  have hshift := toInt_shiftRight a.toBitVec ((b &&& 31).toBitVec.smod 32)
  rw [hcount] at hshift
  have h := represents_ofSigned (a.signed >>> (b &&& 31).signed)
  rwa [show (a.signed >>> (b &&& 31).signed).toInt = _ from hshift] at h

end Word

/-! ## Words of 64 bits -/

/-- Reading a product back, if it fits. -/
theorem toInt_mul_of_natAbs_le {x y : Int64} (h : (x.toInt * y.toInt).natAbs < 2 ^ 63) :
    (x * y).toInt = x.toInt * y.toInt := by
  rw [Int64.toInt_mul]
  apply Int.bmod_eq_of_le <;> omega

/-- Shifting by 16 bits is multiplying by 65536. -/
theorem shiftLeft_sixteen (x : Int64) : x <<< 16 = x * 65536 := by
  apply Int64.toBitVec_inj.1
  rw [Int64.toBitVec_shiftLeft, Int64.toBitVec_mul]
  exact BitVec.shiftLeft_eq_mul_twoPow x.toBitVec 16

/-- Shifting back by 16 bits divides and rounds down. -/
theorem toInt_shiftRight_sixteen (x : Int64) : (x >>> 16).toInt = x.toInt.fdiv (2 ^ 16) :=
  Word.toInt_shiftRight x.toBitVec 16

/-- The 64-bit words in a multiplication and a division of fixed-point numbers hold the exact
product, shifted product, scaled dividend and quotient. -/
structure WideExact (a b : Word) : Prop where
  product : (a.signed.toInt64 * b.signed.toInt64).toInt = a.value * b.value
  lowered : ((a.signed.toInt64 * b.signed.toInt64) >>> 16).toInt = (a.value * b.value).fdiv (2 ^ 16)
  raised : (a.signed.toInt64 <<< 16).toInt = a.value * 2 ^ 16
  quotient : ((a.signed.toInt64 <<< 16) / b.signed.toInt64).toInt = (a.value * 2 ^ 16).tdiv b.value

/-- The intermediates of fixed-point operations do not overflow. -/
theorem wideExact (a b : Word) : WideExact a b := by
  have ha : a.signed.toInt64.toInt = a.value := Int32.toInt_toInt64 _
  have hb : b.signed.toInt64.toInt = b.value := Int32.toInt_toInt64 _
  have hproduct : (a.signed.toInt64 * b.signed.toInt64).toInt = a.value * b.value := by
    have hbound : (a.value * b.value).natAbs ≤ 2 ^ 31 * 2 ^ 31 := by
      rw [Int.natAbs_mul]
      exact Nat.mul_le_mul a.natAbs_value_le b.natAbs_value_le
    rw [toInt_mul_of_natAbs_le] <;> rw [ha, hb]
    omega
  have hraised : (a.signed.toInt64 <<< 16).toInt = a.value * 2 ^ 16 := by
    have hbound := a.natAbs_value_le
    have hfactor : (65536 : Int64).toInt = 2 ^ 16 := rfl
    rw [shiftLeft_sixteen, toInt_mul_of_natAbs_le] <;> rw [ha, hfactor]
    omega
  refine ⟨hproduct, ?_, hraised, ?_⟩
  · rw [toInt_shiftRight_sixteen, hproduct]
  · have hbound := a.natAbs_value_le
    rw [Int64.toInt_div_of_ne_left, hraised, hb]
    intro hmin
    rw [hmin] at hraised
    have hmin : Int64.minValue.toInt = -2 ^ 63 := Int64.toInt_minValue
    omega

/-! ## Operations -/

/-- The quotient and the remainder of a division that goes towards zero. -/
structure Truncates (a b q r : Int) : Prop where
  split : a = q * b + r
  small : r.natAbs < b.natAbs
  sign : r = 0 ∨ r.sign = a.sign

/-- Quotient and remainder, as division truncates. -/
theorem truncates_tdiv (a : Int) {b : Int} (hb : b ≠ 0) : Truncates a b (a.tdiv b) (a.tmod b) where
  split := (Int.tdiv_mul_add_tmod a b).symm
  small := by
    rw [Int.natAbs_tmod]
    exact Nat.mod_lt _ (Int.natAbs_pos.2 hb)
  sign := by
    rw [← Int.sign_eq_zero_iff_zero, Int.sign_tmod]
    by_cases hdvd : b ∣ a
    · exact .inl (if_pos hdvd)
    · exact .inr (if_neg hdvd)

/-- `result op v` holds for every arithmetic operation and its exact value, where `a` and `b` are the
operands. -/
structure ExactResults (result : BinaryOp → Int → Prop) (a b : Int) : Prop where
  add : result .add (a + b)
  sub : result .sub (a - b)
  mul : result .mul (a * b)
  divMod : b ≠ 0 → ∃ q r, Truncates a b q r ∧ result .div q ∧ result .mod r
  mulFixed : result .mulFixed ((a * b).fdiv (2 ^ 16))
  divFixed : b ≠ 0 → result .divFixed ((a * 2 ^ 16).tdiv b)
  byZero : b = 0 → result .div 0 ∧ result .mod 0 ∧ result .divFixed 0
  shiftLeft : result .shiftLeft (a * 2 ^ (b % 32).toNat)
  shiftRight : result .shiftRight (a.fdiv (2 ^ (b % 32).toNat))

/-- Weaker properties of the results follow. -/
theorem ExactResults.imp {P Q : BinaryOp → Int → Prop} {a b : Int} (h : ExactResults P a b)
    (hPQ : ∀ op v, P op v → Q op v) : ExactResults Q a b where
  add := hPQ _ _ h.add
  sub := hPQ _ _ h.sub
  mul := hPQ _ _ h.mul
  divMod hb := by
    obtain ⟨q, r, hdiv, hq, hr⟩ := h.divMod hb
    exact ⟨q, r, hdiv, hPQ _ _ hq, hPQ _ _ hr⟩
  mulFixed := hPQ _ _ h.mulFixed
  divFixed hb := hPQ _ _ (h.divFixed hb)
  byZero hb := ⟨hPQ _ _ (h.byZero hb).1, hPQ _ _ (h.byZero hb).2.1, hPQ _ _ (h.byZero hb).2.2⟩
  shiftLeft := hPQ _ _ h.shiftLeft
  shiftRight := hPQ _ _ h.shiftRight

/-- A 64-bit result is cut to the word that is congruent to it. -/
theorem Word.represents_toInt32 {x : Int64} {i : Int} (h : x.toInt = i) :
    (ofSigned x.toInt32).Represents i := by
  apply represents_of_bmod
  rw [Int64.toInt_toInt32, h]

/-- **Operations** make the words that hold the exact results. -/
theorem BinaryOp.eval_exact (a b : Word) :
    ExactResults (fun op v => (op.eval a b).Represents v) a.value b.value where
  add := Word.represents_add a b
  sub := Word.represents_sub a b
  mul := Word.represents_mul a b
  divMod hb := by
    have hne : b ≠ 0 := fun h => hb (Word.value_eq_zero_iff.2 h)
    refine ⟨_, _, truncates_tdiv a.value hb, ?_, ?_⟩
    · simp only [eval, if_neg hne]
      exact Word.represents_div a b
    · simp only [eval, if_neg hne]
      exact Word.represents_mod a b
  mulFixed := Word.represents_toInt32 (wideExact a b).lowered
  divFixed hb := by
    have hne : b ≠ 0 := fun h => hb (Word.value_eq_zero_iff.2 h)
    simp only [eval, if_neg hne]
    exact Word.represents_toInt32 (wideExact a b).quotient
  byZero hb := by
    have hzero : b = 0 := Word.value_eq_zero_iff.1 hb
    simp only [eval, if_pos hzero]
    exact ⟨rfl, rfl, rfl⟩
  shiftLeft := Word.represents_shiftLeft a b
  shiftRight := Word.represents_shiftRight a b

/-- The quotient of the least number by -1 wraps; the product of the smallest fixed-point numbers of unlike
sign goes down to the next number, and a quotient as small goes to zero. -/
example : BinaryOp.div.eval 0x80000000 0xFFFFFFFF = 0x80000000 ∧
    BinaryOp.mulFixed.eval 0xFFFFFFFF 1 = 0xFFFFFFFF ∧
    BinaryOp.divFixed.eval 0xFFFFFFFF 0x20000 = 0 := by decide

namespace Machine

/-- Of an operation on the two topmost words there remains one word in their place. -/
theorem step_binary (host : Host) (turn : Turn) (exec : Machine → Option Machine)
    (module : LoadedModule) (op : BinaryOp) (operands : List Word) (m : Machine) (t : Thread) :
    step host turn exec module (.binary op) operands m t =
      some (m, { t with
        stack := op.eval (t.stack.getD 1 0) (t.stack.getD 0 0) :: t.stack.drop 2 }, false) := by
  match hstack : t.stack with
  | [] => simp [step, Thread.pop, Thread.push, hstack]
  | [b] => simp [step, Thread.pop, Thread.push, hstack]
  | b :: a :: rest => simp [step, Thread.pop, Thread.push, hstack]

/-- The instruction replaces the two topmost words of the stack by one that holds `v`; it does nothing
else, and the thread goes on. -/
def Computes (host : Host) (turn : Turn) (exec : Machine → Option Machine) (module : LoadedModule)
    (operands : List Word) (m : Machine) (t : Thread) (op : BinaryOp) (v : Int) : Prop :=
  ∃ w : Word, w.Represents v ∧ step host turn exec module (.binary op) operands m t =
    some (m, { t with stack := w :: t.stack.drop 2 }, false)

/-- **Arithmetic instructions** leave what exact arithmetic gives for the two topmost words. -/
theorem arithmetic_exact (host : Host) (turn : Turn) (exec : Machine → Option Machine)
    (module : LoadedModule) (operands : List Word) (m : Machine) (t : Thread) :
    ExactResults (Computes host turn exec module operands m t) (t.stack.getD 1 0).value
        (t.stack.getD 0 0).value ∧
      WideExact (t.stack.getD 1 0) (t.stack.getD 0 0) := by
  refine ⟨(BinaryOp.eval_exact _ _).imp fun op v hv => ?_, wideExact _ _⟩
  exact ⟨_, hv, step_binary ..⟩

end Machine

end ScriptMachine
