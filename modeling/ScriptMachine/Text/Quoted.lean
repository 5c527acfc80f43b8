import ScriptMachine.Word

/-!
# Quoted text

Diagnostics show texts between double quotes.  A quote, a backslash and the usual control characters
are written with a backslash, characters that would not be seen by their number, and every other
character as it is.
-/

namespace ScriptMachine.Quoted

/-- Ranges of characters that are not seen on their own: controls, spaces other than the blank, the
general blocks of combining marks, direction and format marks, and private use. -/
def hidden : List (Nat × Nat) := [
  (0x00, 0x1F), (0x7F, 0xA0), (0xAD, 0xAD), (0x0300, 0x036F), (0x0483, 0x0489), (0x0591, 0x05BD),
  (0x0600, 0x0605), (0x0610, 0x061A), (0x061C, 0x061C), (0x064B, 0x065F), (0x0670, 0x0670),
  (0x06D6, 0x06DD), (0x1160, 0x1160), (0x1680, 0x1680), (0x180B, 0x180F), (0x1AB0, 0x1ACE),
  (0x1DC0, 0x1DFF), (0x2000, 0x200F), (0x2028, 0x202F), (0x205F, 0x206F), (0x20D0, 0x20F0),
  (0x3000, 0x3000), (0x302A, 0x302F), (0x3099, 0x309A), (0xD800, 0xF8FF), (0xFE00, 0xFE0F),
  (0xFE20, 0xFE2F), (0xFEFF, 0xFEFF), (0xFF9E, 0xFF9F), (0xFFF0, 0xFFFB), (0xFFFE, 0xFFFF),
  (0xE0000, 0x10FFFF)]

/-- Whether a character is written by its number. -/
def isHidden (c : Char) : Bool := hidden.any fun (low, high) => low ≤ c.toNat && c.toNat ≤ high

/-- How a character is written between quotes. -/
def encodeChar (c : Char) : List Char :=
  match c with
  | '\x00' => ['\\', '0']
  | '\t' => ['\\', 't']
  | '\r' => ['\\', 'r']
  | '\n' => ['\\', 'n']
  | '\\' => ['\\', '\\']
  | '"' => ['\\', '"']
  | c =>
    if isHidden c then ['\\', 'u', '\x7b'] ++ Nat.toDigits 16 c.toNat ++ ['\x7d'] else [c]

/-- A text between double quotes. -/
def quote (s : String) : String :=
  String.ofList ('"' :: s.toList.flatMap encodeChar ++ ['"'])

end ScriptMachine.Quoted
