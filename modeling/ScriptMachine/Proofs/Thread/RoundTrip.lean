import Mathlib.Tactic.MkIffOfInductiveProp
import ScriptMachine.Proofs.Codec.Utf8
import ScriptMachine.Proofs.Codec.Varint
import ScriptMachine.Proofs.OrdMap
import ScriptMachine.Thread.Codec

/-!
# Saved threads come back

A saved thread whose counts fit the format (`Thread.Sized`) is read back with everything but its
module, which the reader is given, and the tick of its last turn (`Thread.renewed`).  The reader
refuses exactly two things: a script the module does not have, and a current frame that begins past
the locals (`Thread.read_write`).  The bases kept in the frames of callers are not looked at.
-/

namespace ScriptMachine

open Reader

/-- The text of a script name is not too long. -/
def ScriptName.Sized (name : ScriptName) : Prop :=
  ∀ x, name = .text x → (Utf8.encode x).length < 2 ^ 64

instance (name : ScriptName) : Decidable name.Sized :=
  match name with
  | .text x => decidable_of_iff ((Utf8.encode x).length < 2 ^ 64)
      ⟨fun h _ hx => ScriptName.text.inj hx ▸ h, fun h => h x rfl⟩
  | .number _ => isTrue nofun

theorem reads_scriptName {name : ScriptName} (h : name.Sized) :
    Reads ScriptName.read name.write name := by
  intro rest
  cases name with
  | number n =>
    have hkind := fun rest => Varint.reads_write .bits8 (n := 0) (by decide) rest
    have hn := fun rest => Varint.reads_writeSigned n rest
    simp only [ScriptName.read, ScriptName.write, List.append_assoc, bind_apply, hkind, hn]
    rfl
  | text x =>
    have hkind := fun rest => Varint.reads_write .bits8 (n := 1) (by decide) rest
    have hx := fun rest => reads_string (h x rfl) rest
    simp only [ScriptName.read, ScriptName.write, List.append_assoc, bind_apply, hkind, hx,
      Utf8.lossy_encode]
    rfl

/-- Arrays come back. -/
theorem reads_sparse {a : Sparse} (h : a.size < 2 ^ 64) : Reads Sparse.read a.write a := by
  intro rest
  have hw := fun w rest => Varint.reads_writeWord w rest
  have hcells : Reads (list do return (← Varint.readWord, ← Varint.readWord))
      (Writer.list (fun p => Varint.writeWord p.1 ++ Varint.writeWord p.2) a.toList) a.toList := by
    refine Reads.listSelf h fun p _ rest => ?_
    simp only [List.append_assoc, bind_apply, hw]
    rfl
  simp only [Sparse.read, Sparse.write, bind_apply]
  rw [hcells rest]
  simp only [Sparse.toList, OrdMap.ofList_entries]
  rfl

theorem reads_threadInfo (i : ThreadInfo) : Reads ThreadInfo.read i.write i := by
  intro rest
  have hw := fun w rest => Varint.reads_writeWord w rest
  simp only [ThreadInfo.read, ThreadInfo.write, List.append_assoc, bind_apply, hw]
  rfl

/-- The text of a script that is waited for is not too long. -/
def ThreadState.Sized (s : ThreadState) : Prop :=
  ∀ x, s = .waitName x → (Utf8.encode x).length < 2 ^ 64

instance (s : ThreadState) : Decidable s.Sized :=
  match s with
  | .waitName x => decidable_of_iff ((Utf8.encode x).length < 2 ^ 64)
      ⟨fun h _ hx => ThreadState.waitName.inj hx ▸ h, fun h => h x rfl⟩
  | .inactive | .running | .stopped | .paused | .waitNumber _ | .waitTag .. => isTrue nofun

theorem reads_threadState {s : ThreadState} (h : s.Sized) : Reads ThreadState.read s.write s := by
  intro rest
  have hkind := fun (n : Nat) (hn : n < 2 ^ IntRange.bits8.bits) rest =>
    Varint.reads_write .bits8 hn rest
  have hw := fun w rest => Varint.reads_writeWord w rest
  have hi := fun i rest => Varint.reads_writeSigned i rest
  cases s with
  | inactive =>
    simp only [ThreadState.read, ThreadState.write, bind_apply, hkind 0 (by decide)]
    rfl
  | running =>
    simp only [ThreadState.read, ThreadState.write, bind_apply, hkind 1 (by decide)]
    rfl
  | stopped =>
    simp only [ThreadState.read, ThreadState.write, bind_apply, hkind 2 (by decide)]
    rfl
  | paused =>
    simp only [ThreadState.read, ThreadState.write, bind_apply, hkind 3 (by decide)]
    rfl
  | waitNumber n =>
    simp only [ThreadState.read, ThreadState.write, List.append_assoc, bind_apply,
      hkind 4 (by decide), hi]
    rfl
  | waitName x =>
    have hx := fun rest => reads_string (h x rfl) rest
    simp only [ThreadState.read, ThreadState.write, List.append_assoc, bind_apply,
      hkind 5 (by decide), hx, Utf8.lossy_encode]
    rfl
  | waitTag type tag =>
    simp only [ThreadState.read, ThreadState.write, List.append_assoc, bind_apply,
      hkind 6 (by decide), hw]
    rfl

/-- The numbers of a frame fit the format. -/
@[mk_iff]
structure Frame.Sized (f : Frame) : Prop where
  ret : f.ret < 2 ^ 64
  regBase : f.regBase < 2 ^ 64
  arrBase : f.arrBase < 2 ^ 64

instance (f : Frame) : Decidable f.Sized := decidable_of_iff _ f.sized_iff.symm

theorem reads_frame {f : Frame} (h : f.Sized) : Reads Frame.read f.write f := by
  intro rest
  have hret := fun rest => Varint.reads_size h.ret rest
  have hreg := fun rest => Varint.reads_size h.regBase rest
  have harr := fun rest => Varint.reads_size h.arrBase rest
  have hbool := fun b rest => reads_bool b rest
  have hw := fun w rest => Varint.reads_writeWord w rest
  simp only [Frame.read, Frame.write, List.append_assoc, bind_apply, hret, hreg, harr, hbool, hw]
  rfl

namespace Thread

/-- The counts, numbers and lengths of a thread fit the format. -/
@[mk_iff]
structure Sized (t : Thread) : Prop where
  scriptIndex : t.scriptIndex < 2 ^ 64
  codePtr : t.codePtr < 2 ^ 64
  stack : t.stack.length < 2 ^ 64
  frames : t.frames.length < 2 ^ 64
  frame : ∀ f ∈ t.frames, f.Sized
  regs : t.regs.size < 2 ^ 64
  arrs : t.arrs.size < 2 ^ 64
  arr : ∀ a ∈ t.arrs, a.size < 2 ^ 64
  regBase : t.regBase < 2 ^ 64
  arrBase : t.arrBase < 2 ^ 64
  state : t.state.Sized
  printed : t.printed.size < 2 ^ 64
  args : t.args.length < 2 ^ 64

instance (t : Thread) : Decidable t.Sized := decidable_of_iff _ t.sized_iff.symm

/-- A thread as it is when it is read back: of the module and at the place that the reader was
given, and as if it never had a turn. -/
def renewed (module : LoadedModule) (scope : ScopeId) (moduleIndex : Nat) (t : Thread) : Thread :=
  { t with module := some module, scope, moduleIndex, lastTick := 0 }

/-- The current frame of a thread begins within its locals. -/
def BasesWithin (t : Thread) : Prop := t.regBase ≤ t.regs.size ∧ t.arrBase ≤ t.arrs.size

instance (t : Thread) : Decidable t.BasesWithin := inferInstanceAs (Decidable (_ ∧ _))

/-- What is written of a thread up to the bases of its current frame. -/
def writeLocals (t : Thread) : Bytes :=
  Varint.writeWord t.id ++ Varint.write t.scriptIndex ++ Varint.write t.codePtr ++
    Writer.words t.stack.reverse ++ Writer.list Frame.write t.frames.reverse ++
    Writer.words t.regs.toList ++ Writer.list Sparse.write t.arrs.toList ++
    Varint.write t.regBase ++ Varint.write t.arrBase

/-- What is written of a thread behind the bases of its current frame. -/
def writeStatus (t : Thread) : Bytes :=
  Varint.writeWord t.result ++ Varint.writeWord t.delay ++ t.state.write ++ t.info.write ++
    Writer.string t.printed.toList ++ Writer.words t.args

/-- A thread is written with its locals first. -/
theorem write_eq (t : Thread) : t.write = t.writeLocals ++ t.writeStatus := by
  simp only [write, writeLocals, writeStatus, List.append_assoc]

/-- Reads what is written of a thread behind the bases of its current frame. -/
def readStatus (t : Thread) : Reader Thread := do
  let result ← Varint.readWord
  let delay ← Varint.readWord
  let state ← ThreadState.read
  let info ← ThreadInfo.read
  let printed ← Reader.string
  let args ← Reader.words
  pure { t with result, delay, state, info, printed := printed.toArray, args }

/-- What comes behind the locals is read back. -/
theorem reads_status {t : Thread} (h : t.Sized) (module : LoadedModule) (scope : ScopeId)
    (moduleIndex : Nat) :
    Reads (readStatus (t.renewed module scope moduleIndex)) t.writeStatus
      (t.renewed module scope moduleIndex) := by
  intro rest
  have hw := fun w rest => Varint.reads_writeWord w rest
  have hstate := fun rest => reads_threadState h.state rest
  have hinfo := fun rest => reads_threadInfo t.info rest
  have hprinted := fun rest => reads_string (b := t.printed.toList) (by simpa using h.printed) rest
  have hargs := fun rest => reads_words h.args rest
  simp only [readStatus, writeStatus, List.append_assoc, bind_apply, hw, hstate, hinfo, hprinted,
    hargs]
  rfl

/-- What the reader makes of the front of the bytes of a thread: it has looked at all that can be
wrong with them. -/
theorem read_writeLocals {t : Thread} (h : t.Sized) (module : LoadedModule) (scope : ScopeId)
    (moduleIndex : Nat) (rest : Bytes) :
    read module scope moduleIndex (t.writeLocals ++ rest) =
      if module.scripts.size ≤ t.scriptIndex then
        .error (.malformed (.threadScript t.id t.scriptIndex))
      else if t.BasesWithin then readStatus (t.renewed module scope moduleIndex) rest
      else .error (.malformed (.threadBase t.id)) := by
  have hw := fun w rest => Varint.reads_writeWord w rest
  have hscript := fun rest => Varint.reads_size h.scriptIndex rest
  have hcode := fun rest => Varint.reads_size h.codePtr rest
  have hstack : ∀ rest, words (Writer.words t.stack.reverse ++ rest) =
      .ok (t.stack.reverse, rest) := reads_words (by simpa using h.stack)
  have hframes : ∀ rest, list Frame.read (Writer.list Frame.write t.frames.reverse ++ rest) =
      .ok (t.frames.reverse, rest) :=
    Reads.listSelf (by simpa using h.frames) fun f hf => reads_frame (h.frame f (by simpa using hf))
  have hregs : ∀ rest, words (Writer.words t.regs.toList ++ rest) = .ok (t.regs.toList, rest) :=
    reads_words (by simpa using h.regs)
  have harrs : ∀ rest, list Sparse.read (Writer.list Sparse.write t.arrs.toList ++ rest) =
      .ok (t.arrs.toList, rest) :=
    Reads.listSelf (by simpa using h.arrs) fun a ha => reads_sparse (h.arr a (by simpa using ha))
  have hregBase := fun rest => Varint.reads_size h.regBase rest
  have harrBase := fun rest => Varint.reads_size h.arrBase rest
  simp only [read, writeLocals, List.append_assoc, bind_apply, hw, hscript]
  split
  · rfl
  · simp only [bind_apply, hcode, hstack, hframes, hregs, harrs, hregBase, harrBase]
    split
    · rename_i hbase
      rw [if_neg]
      · rfl
      · simp only [BasesWithin, Array.length_toList] at hbase ⊢
        omega
    · rename_i hbase
      rw [if_pos]
      · simp only [List.reverse_reverse, Array.toArray_toList]
        rfl
      · simp only [BasesWithin, Array.length_toList] at hbase ⊢
        omega

/-- **Saved threads.**  What the reader makes of the bytes of a thread. -/
theorem read_write {t : Thread} (h : t.Sized) (module : LoadedModule) (scope : ScopeId)
    (moduleIndex : Nat) (rest : Bytes) :
    read module scope moduleIndex (t.write ++ rest) =
      if module.scripts.size ≤ t.scriptIndex then
        .error (.malformed (.threadScript t.id t.scriptIndex))
      else if t.BasesWithin then .ok (t.renewed module scope moduleIndex, rest)
      else .error (.malformed (.threadBase t.id)) := by
  rw [write_eq, List.append_assoc, read_writeLocals h,
    reads_status h module scope moduleIndex rest]

/-- A thread that is read back is the one that was written, in its new place. -/
theorem eq_renewed_of_read_write {t t' : Thread} (h : t.Sized) {module : LoadedModule} {scope : ScopeId}
    {moduleIndex : Nat} {rest rest' : Bytes}
    (hread : read module scope moduleIndex (t.write ++ rest) = .ok (t', rest')) :
    t' = t.renewed module scope moduleIndex := by
  rw [read_write h] at hread
  split at hread
  · cases hread
  · split at hread
    · cases hread
      rfl
    · cases hread

end Thread

end ScriptMachine
