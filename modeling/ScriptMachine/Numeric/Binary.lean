import ScriptMachine.Word

/-!
# Binary floating point

Scripts hold numbers that the host reads as single or double precision values.  A `Format` says how
many bits a value's exponent and fraction take; `Format.decode` reads a bit pattern as an exact
value and `Format.encode` gives the pattern of the nearest value, a tie going to the even one.  All
arithmetic is on naturals, so a conversion is exactly what its formula says.
-/

namespace ScriptMachine

/-- What a bit pattern stands for. -/
inductive Binary where
  /-- No number; the payload is aligned to the top of 52 bits. -/
  | notNumber (negative : Bool) (payload : Nat)
  /-- An infinity. -/
  | infinite (negative : Bool)
  /-- The number `mantissa * 2 ^ exponent`, with a sign of its own. -/
  | finite (negative : Bool) (mantissa : Nat) (exponent : Int)
deriving DecidableEq

namespace Binary

/-- The layout of a bit pattern: a sign, then the exponent, then the fraction. -/
structure Format where
  exponentBits : Nat
  fractionBits : Nat

/-- 32-bit patterns. -/
def single : Format := ⟨8, 23⟩

/-- 64-bit patterns. -/
def double : Format := ⟨11, 52⟩

namespace Format

/-- The largest exponent field, which is kept for infinities and non-numbers. -/
def lastField (f : Format) : Nat := (1 <<< f.exponentBits) - 1

/-- The exponent of the smallest step, that of subnormal numbers. -/
def leastExponent (f : Format) : Int :=
  2 - (1 <<< (f.exponentBits - 1) : Nat) - (f.fractionBits : Nat)

/-- The value of a bit pattern. -/
def decode (f : Format) (bits : Nat) : Binary :=
  let fraction := bits % (1 <<< f.fractionBits)
  let field := (bits >>> f.fractionBits) % (1 <<< f.exponentBits)
  let negative := (bits >>> (f.fractionBits + f.exponentBits)) % 2 = 1
  if field = f.lastField then
    if fraction = 0 then .infinite negative
    else .notNumber negative (fraction <<< (52 - f.fractionBits))
  else if field = 0 then .finite negative fraction f.leastExponent
  else .finite negative ((1 <<< f.fractionBits) + fraction) (f.leastExponent + (field - 1 : Nat))

/-- A quotient by a power of two, rounded to the nearest integer, a tie to the even one. -/
def roundShift (m places : Nat) : Nat :=
  let unit := 1 <<< places
  let low := m / unit
  let rest := 2 * (m % unit)
  if rest < unit ∨ (rest = unit ∧ low % 2 = 0) then low else low + 1

/-- The pattern of the number nearest to `mantissa * 2 ^ exponent`, without its sign. -/
def magnitude (f : Format) (mantissa : Nat) (exponent : Int) : Nat :=
  if mantissa = 0 then 0
  else
    let wide : Int := exponent + (mantissa.log2 : Nat) - (f.fractionBits : Nat)
    let step := max wide f.leastExponent
    let kept :=
      if step ≤ exponent then mantissa <<< (exponent - step).toNat
      else roundShift mantissa (step - exponent).toNat
    min (((step - f.leastExponent).toNat <<< f.fractionBits) + kept)
      (f.lastField <<< f.fractionBits)

/-- The bit pattern of a value; a non-number keeps the top of its payload and is made quiet. -/
def encode (f : Format) (v : Binary) : Nat :=
  let sign (negative : Bool) : Nat :=
    if negative then 1 <<< (f.fractionBits + f.exponentBits) else 0
  let top := f.lastField <<< f.fractionBits
  match v with
  | .notNumber negative payload =>
    sign negative + top + ((payload >>> (52 - f.fractionBits)) ||| (1 <<< (f.fractionBits - 1)))
  | .infinite negative => sign negative + top
  | .finite negative mantissa exponent => sign negative + f.magnitude mantissa exponent

end Format

/-- Whether a pattern is not a number. -/
def isNotNumber : Binary → Bool
  | notNumber .. => true
  | _ => false

/-- The integer part of a value times `2 ^ places`, kept within the signed words.  What is not a
number counts as 0. -/
def toSigned (v : Binary) (places : Nat) : Int32 :=
  let clamp (negative : Bool) (n : Nat) : Int32 :=
    if negative then Int32.ofInt (-(min n 0x80000000 : Nat))
    else Int32.ofInt (min n 0x7FFFFFFF : Nat)
  match v with
  | notNumber .. => 0
  | infinite negative => clamp negative 0x80000000
  | finite negative m e =>
    let e := e + (places : Nat)
    clamp negative (if 0 ≤ e then m <<< (min e.toNat 64) else m >>> (-e).toNat)

end Binary

/-- A word that holds a single precision number, as a double precision pattern. -/
def Word.toDouble (w : Word) : UInt64 :=
  UInt64.ofNat (Binary.double.encode (Binary.single.decode w.toNat))

/-- The single precision word nearest to a double precision pattern. -/
def Word.ofDouble (bits : UInt64) : Word :=
  UInt32.ofNat (Binary.single.encode (Binary.double.decode bits.toNat))

/-- The double precision pattern in two words, the low one first. -/
def Word.joinDouble (low high : Word) : UInt64 := (high.toUInt64 <<< 32) ||| low.toUInt64

/-- The two words of a double precision pattern, the low one first. -/
def Word.splitDouble (bits : UInt64) : Word × Word := (bits.toUInt32, (bits >>> 32).toUInt32)

/-- Whether a double precision pattern is not a number. -/
def Word.isNotNumber (bits : UInt64) : Bool := (Binary.double.decode bits.toNat).isNotNumber

end ScriptMachine
