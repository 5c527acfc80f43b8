import ScriptMachine.Numeric.Binary

/-!
# Shortest decimals

The text of a number has as few digits as still single it out among the double precision numbers.
`Decimal.shortest` finds them by walking down the powers of ten: the first grid with a point inside
the interval of reals that round to the number gives the digits, and of two such points the nearer
one is taken.
-/

namespace ScriptMachine

/-- The number `digits * 10 ^ scale`. -/
structure Decimal where
  digits : Nat
  scale : Int
deriving DecidableEq

namespace Decimal

/-- The reals that round to one number, over a common denominator. -/
structure Interval where
  low : Nat
  value : Nat
  high : Nat
  denominator : Nat
  /-- Whether the ends round to the number too. -/
  closed : Bool

/-- The rounding interval of `mantissa * 2 ^ exponent`, a canonical double precision number.  Below
a power of two the neighbour is half as far away. -/
def Interval.ofBinary (mantissa : Nat) (exponent : Int) : Interval :=
  let below := if mantissa = 1 <<< 52 ∧ Binary.double.leastExponent < exponent then 1 else 2
  let up := 1 <<< (exponent - 2).toNat
  { low := (4 * mantissa - below) * up
    value := 4 * mantissa * up
    high := (4 * mantissa + 2) * up
    denominator := 1 <<< (2 - exponent).toNat
    closed := mantissa % 2 = 0 }

/-- Whether `n / d` lies in the interval. -/
def Interval.contains (i : Interval) (n d : Nat) : Bool :=
  let lower := compare (i.low * d) (n * i.denominator)
  let upper := compare (n * i.denominator) (i.high * d)
  if i.closed then lower.isLE && upper.isLE else lower == .lt && upper == .lt

/-- The point of the grid of multiples of `10 ^ scale` that stands for the interval, if there is
one: a neighbour of the value, the nearer of two, the upper one at equal distance. -/
def Interval.onGrid (i : Interval) (scale : Int) : Option Nat :=
  let up := Nat.pow 10 scale.toNat
  let down := Nat.pow 10 (-scale).toNat
  let cell := i.denominator * up
  let floor := i.value * down / cell
  let rest := i.value * down % cell
  let lowHit := i.contains (floor * up) down
  let highHit := i.contains ((floor + 1) * up) down
  match lowHit, highHit with
  | false, false => none
  | true, false => some floor
  | false, true => some (floor + 1)
  | true, true => some (if 2 * rest < cell then floor else floor + 1)

/-- Walks down the powers of ten to the first grid with a point in the interval. -/
def Interval.search (i : Interval) : (fuel : Nat) → (scale : Int) → Decimal
  | 0, scale => ⟨0, scale⟩
  | fuel + 1, scale =>
    match i.onGrid scale with
    | some digits => ⟨digits, scale⟩
    | none => i.search fuel (scale - 1)

/-- The shortest decimal that rounds to `mantissa * 2 ^ exponent`.  No double precision number needs
a power of ten below the 345th after the point. -/
def shortest (mantissa : Nat) (exponent : Int) : Decimal :=
  let i := Interval.ofBinary mantissa exponent
  let start := (Nat.toDigits 10 (i.high / i.denominator)).length
  i.search (start + 345) start

/-- The decimal without an exponent: a point only where a fraction follows, no zeros at its end. -/
def positional (d : Decimal) : String :=
  let digits := Nat.toDigits 10 d.digits
  if 0 ≤ d.scale then String.ofList (digits ++ List.replicate d.scale.toNat '0')
  else
    let places := (-d.scale).toNat
    let padded := List.replicate (places + 1 - digits.length) '0' ++ digits
    let whole := padded.take (padded.length - places)
    let fraction := padded.drop (padded.length - places)
    String.ofList (whole ++ '.' :: fraction)

end Decimal

/-- The pattern in double precision of a word read as a signed number of 65536ths. -/
def Word.fixedToDouble (w : Word) : UInt64 :=
  let i := w.signed.toInt
  UInt64.ofNat (Binary.double.encode (.finite (i < 0) i.natAbs (-16)))

/-- The whole number of 65536ths in a double precision pattern, toward zero and within the signed
words. -/
def Word.fixedOfDouble (bits : UInt64) : Word :=
  .ofSigned ((Binary.double.decode bits.toNat).toSigned 16)

/-- The decimal text of a word read as a signed number of 65536ths. -/
def Word.fixedText (w : Word) : String :=
  match Binary.double.decode w.fixedToDouble.toNat with
  | .finite negative mantissa exponent =>
    let magnitude := if mantissa = 0 then "0" else (Decimal.shortest mantissa exponent).positional
    if negative then "-" ++ magnitude else magnitude
  | _ => ""

end ScriptMachine
