import ScriptMachine.Module.Bytecode
import ScriptMachine.Proofs.Codec.Utf8
import ScriptMachine.Proofs.Codec.Varint

/-!
# Compiled units come back

A unit that respects what the format can say (`Bytecode.Writable`) is read back from its bytes to
the last one.  The format names a script by the number of a string constant, so the text of a name
has to be among the constants.
-/

namespace ScriptMachine.Bytecode

open Reader

/-- What the format can say of a unit. -/
structure Writable (b : Bytecode) : Prop where
  strings : b.strings.length < 2 ^ 64
  string : ∀ s ∈ b.strings, s.length < 2 ^ 64
  functions : b.functions.length < 2 ^ 64
  params : ∀ f ∈ b.functions, f.paramCount ≤ f.regCount
  scripts : b.scripts.length < 2 ^ 64
  args : ∀ s ∈ b.scripts, s.argCount ≤ s.regCount
  names : ∀ s ∈ b.scripts, ∀ x, s.name = .text x → Utf8.encode x ∈ b.strings
  code : b.code.length < 2 ^ 64

theorem reads_function {f : Function} (h : f.paramCount ≤ f.regCount) (i : Nat) :
    Reads (readFunction i) (writeFunction f) f := by
  intro rest
  have hw := fun w rest => Varint.reads_writeWord w rest
  simp only [readFunction, writeFunction, List.append_assoc, bind_apply, hw]
  rw [if_neg (by simpa using h)]
  rfl

/-- A name comes back through the number of its constant. -/
theorem reads_scriptName {strings : List Bytes} (hlen : strings.length < 2 ^ 64)
    {name : ScriptName} (h : ∀ x, name = .text x → Utf8.encode x ∈ strings) :
    Reads (readScriptName strings) (writeScriptName strings name) name := by
  intro rest
  cases name with
  | number n =>
    have hkind := fun rest => Varint.reads_write .bits8 (n := 0) (by decide) rest
    have hn := fun rest => Varint.reads_writeSigned n rest
    simp only [readScriptName, writeScriptName, List.append_assoc, bind_apply, hkind, hn]
    rfl
  | text x =>
    have hkind := fun rest => Varint.reads_write .bits8 (n := 1) (by decide) rest
    have hmem : Utf8.encode x ∈ strings := h x rfl
    have hi : strings.findIdx (· == Utf8.encode x) < strings.length :=
      List.findIdx_lt_length_of_exists ⟨_, hmem, by simp⟩
    have hsize := fun rest =>
      Varint.reads_size (n := strings.findIdx (· == Utf8.encode x)) (by omega) rest
    have hget : strings[strings.findIdx (· == Utf8.encode x)]? = some (Utf8.encode x) := by
      rw [List.getElem?_eq_getElem hi]
      have := List.findIdx_getElem (p := (· == Utf8.encode x)) (w := hi)
      simpa using this
    simp only [readScriptName, writeScriptName, List.append_assoc, bind_apply, hkind, hsize, hget,
      Utf8.lossy_encode]
    rfl

theorem reads_script {strings : List Bytes} (hlen : strings.length < 2 ^ 64) {s : Script}
    (hargs : s.argCount ≤ s.regCount) (hname : ∀ x, s.name = .text x → Utf8.encode x ∈ strings) :
    Reads (readScript strings) (writeScript strings s) s := by
  intro rest
  have hw := fun w rest => Varint.reads_writeWord w rest
  have hn := fun rest => reads_scriptName hlen hname rest
  simp only [readScript, writeScript, List.append_assoc, bind_apply, hw, hn]
  rw [if_neg (by simpa using hargs)]
  rfl

theorem reads_unit {b : Bytecode} (h : b.Writable) : Reads read b.write b := by
  intro rest
  have hw := fun w rest => Varint.reads_writeWord w rest
  have hsign := fun rest => reads_signature (b := signature) rfl rest
  have hversion := fun rest => reads_word32 version rest
  have hstrings := fun rest =>
    Reads.listSelf h.strings (fun s hs => reads_string (h.string s hs)) rest
  have hfunctions := fun rest => Reads.listFromSelf h.functions
    (fun j f hf => reads_function (h.params f (List.mem_of_getElem? hf)) j) rest
  have hscripts := fun rest =>
    Reads.listSelf h.scripts (fun s hs => reads_script h.strings (h.args s hs) (h.names s hs)) rest
  have hcode := fun rest => reads_string h.code rest
  simp only [read, write, List.append_assoc, bind_apply, hsign, hversion, hw, hstrings, hfunctions,
    hscripts, hcode, ne_eq, not_true_eq_false, if_false]
  rfl

/-- **Compiled units come back.**  The bytes of a unit are that unit, to the last one. -/
theorem parse_write {b : Bytecode} (h : b.Writable) : parse b.write = .ok b := by
  have hread := reads_unit h []
  rw [List.append_nil] at hread
  unfold parse
  rw [hread]
  rfl

end ScriptMachine.Bytecode
