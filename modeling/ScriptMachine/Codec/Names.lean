import ScriptMachine.Codec.Varint
import ScriptMachine.Text.Utf8

/-!
# Names in saved states

A module name is written as its UTF-8 text and its two numbers, a script name as a kind byte and
then its number or text.  Module names are read strictly, script texts forgivingly.
-/

namespace ScriptMachine

/-- Reads a module name. -/
def ModuleName.read : Reader ModuleName := do
  let bytes ← Reader.string
  match Utf8.decode bytes with
  | .error _ => Reader.malformed .moduleNameText
  | .ok name => return { name, aux := ← Varint.readSize, num := ← Varint.readSize }

/-- Writes a module name. -/
def ModuleName.write (m : ModuleName) : Bytes :=
  Writer.string (Utf8.encode m.name) ++ Varint.write m.aux ++ Varint.write m.num

/-- Reads a script name. -/
def ScriptName.read : Reader ScriptName := do
  match ← Varint.read .bits8 with
  | 0 => return .number (← Varint.readSigned)
  | 1 => return .text (Utf8.lossy (← Reader.string))
  | k => Reader.malformed (.scriptNameKind k)

/-- Writes a script name. -/
def ScriptName.write : ScriptName → Bytes
  | .number n => Varint.write 0 ++ Varint.writeSigned n
  | .text s => Varint.write 1 ++ Writer.string (Utf8.encode s)

end ScriptMachine
