/-!
# Words

The machine computes on 32-bit words.  A word has no sign of its own: instructions that compare,
divide or shift right read it through the signed view `Word.signed`, everything else works on the
bit pattern.  Byte strings are lists, because the formats below are read from the front.
-/

namespace ScriptMachine

/-- The value every register, array cell and stack slot holds. -/
abbrev Word := UInt32

/-- A byte string: string constants, printed text, compiled modules and saved states. -/
abbrev Bytes := List UInt8

namespace Word

/-- The two's complement reading of a word. -/
def signed (w : Word) : Int32 := w.toInt32

/-- The word with the bit pattern of a signed value. -/
def ofSigned (i : Int32) : Word := i.toUInt32

/-- Reading a signed value's pattern back gives the value. -/
@[simp] theorem signed_ofSigned (i : Int32) : signed (ofSigned i) = i := by
  simp [signed, ofSigned]

/-- Writing a word's signed view back gives the word. -/
@[simp] theorem ofSigned_signed (w : Word) : ofSigned (signed w) = w := by
  simp [signed, ofSigned]

/-- A truth value as the machine stores it. -/
def ofBool (b : Bool) : Word := if b then 1 else 0

end Word

end ScriptMachine
