import ScriptMachine.Word

/-!
# Numbers as text

Messages and listings show numbers in decimal and hexadecimal, the latter in lower case.
-/

namespace ScriptMachine

/-- The decimal text of a signed value. -/
def decimal (i : Int32) : String := toString i.toInt

/-- The lower-case hexadecimal text of a number, after `0x`. -/
def hexadecimal (n : Nat) : String := "0x" ++ String.ofList (Nat.toDigits 16 n)

/-- Decimal text set to the right in a column of at least `width` characters. -/
def column (width n : Nat) : String :=
  let digits := toString n
  String.ofList (List.replicate (width - digits.length) ' ') ++ digits

/-- The two lower-case hexadecimal digits of a byte. -/
def byteHex (b : UInt8) : String :=
  let digits := Nat.toDigits 16 b.toNat
  String.ofList (List.replicate (2 - digits.length) '0' ++ digits)

end ScriptMachine
