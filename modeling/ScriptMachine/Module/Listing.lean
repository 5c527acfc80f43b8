import ScriptMachine.Module.Basic

/-!
# Listings

The readable form of a module: a line for the module, one for each script and each function, and one
for each instruction with the place it begins at.
-/

namespace ScriptMachine.Module

/-- The line of a script. -/
def scriptLine (s : Script) : String :=
  s!"; script {s.name.display} type={s.type} flags={hexadecimal s.flags.toNat} args={s.argCount} " ++
    s!"regs={s.regCount} arrs={s.arrCount} entry={s.entry}\n"

/-- The line of the function with number `i`. -/
def functionLine (i : Nat) (f : Function) : String :=
  s!"; function {i} params={f.paramCount} regs={f.regCount} arrs={f.arrCount} entry={f.entry}\n"

/-- The lines of the code from a place on.  A word that is no opcode has a line of its own. -/
def codeLines : (fuel place : Nat) → List Word → List String
  | 0, _, _ => []
  | _, _, [] => []
  | fuel + 1, place, w :: rest =>
    match Opcode.ofWord? w with
    | none => s!"{column 6 place}  .word {hexadecimal w.toNat}\n" :: codeLines fuel (place + 1) rest
    | some op =>
      let operands := rest.take op.arity
      let shown := operands.map fun a => s!" {a}"
      s!"{column 6 place}  {op.name}{String.join shown}\n" ::
        codeLines fuel (place + 1 + operands.length) (rest.drop op.arity)

/-- The readable form of a module. -/
def listing (m : Module) : String :=
  String.join <|
    s!"; module {m.name.display}\n" ::
      m.scripts.toList.map scriptLine ++
      m.functions.toList.mapIdx functionLine ++
      codeLines m.code.size 0 m.code.toList

end ScriptMachine.Module
