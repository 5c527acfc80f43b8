import ScriptMachine.Proofs.Module.Origin
import ScriptMachine.Proofs.Module.Translation
import ScriptMachine.Proofs.Thread.Moves
import ScriptMachine.Proofs.Thread.RoundTrip

/-!
# Threads stay on instructions

A run of a thread is whatever happens to it from its start on: turns, changes of its data between
turns, and being saved and read back by a machine that loaded the same bytes (`Thread.Run`).  Within
a turn the thread passes from one instruction to the next (`Machine.Passes`).

The invariant is that the code pointer and the places that callers go on at are places of the walk
through the code (`Thread.Placed`).  An instruction can only move a thread to such a place, so at
every instruction of every turn the thread stands at an instruction or exactly at the end of the
code (`Thread.Run.fetches`).
-/

namespace ScriptMachine

open Machine (fetchAt)

/-- Modules of one origin have code of one length. -/
theorem Origin.Makes.code_size {o : Origin} (hexact : o.table.Exact) (hdirects : o.table.Directs)
    {m m' : LoadedModule} (h : o.Makes m) (h' : o.Makes m') : m.code.size = m'.code.size := by
  obtain ⟨name, s, s', hload⟩ := h
  obtain ⟨name', u, u', hload'⟩ := h'
  obtain ⟨is, is', hspells, hspells', heq⟩ := Module.spells_of_load hexact hdirects hload hload'
  rw [hspells.size, hspells'.size, spell_length_congr hspells.arity hspells'.arity heq]

namespace Machine

/-- From one state of a turn to a later one, instruction by instruction.  A state is the fuel left,
the instructions counted, the machine and the thread. -/
inductive Passes (host : Host) (limit : Word) (module : LoadedModule) :
    Nat → Word → Machine → Thread → Nat → Word → Machine → Thread → Prop
  | here {fuel count m t} : Passes host limit module fuel count m t fuel count m t
  | next {fuel count m t op operands m₁ t₁ fuel' count' m' t'}
      (hstate : t.state = .running) (hdelay : t.delay = 0) (hlimit : limit = 0 ∨ count < limit)
      (hfetch : fetchAt module.code t.codePtr = .ok (op, operands))
      (hstep : step host (turn host fuel) (execWith (turn host fuel) fuel) module op operands m
        { t with codePtr := t.codePtr + 1 + op.arity } = some (m₁, t₁, false))
      (h : Passes host limit module fuel (if limit = 0 then count else count + 1) m₁ t₁
        fuel' count' m' t') :
    Passes host limit module (fuel + 1) count m t fuel' count' m' t'

/-- How a turn ends at its last state. -/
inductive Ends (host : Host) (limit : Word) (module : LoadedModule) (fuel : Nat) (count : Word)
    (m : Machine) (t : Thread) : Machine → Thread → Prop
  /-- The thread is not to run on. -/
  | blocked (h : t.state ≠ .running ∨ t.delay ≠ 0) : Ends host limit module fuel count m t m t
  | limit (h : limit ≠ 0 ∧ limit ≤ count) :
    Ends host limit module fuel count m t (m.kill t .branchLimit count).1
      (m.kill t .branchLimit count).2
  /-- There is no instruction where the thread stands. -/
  | fault {reason data} (h : fetchAt module.code t.codePtr = .error (reason, data)) :
    Ends host limit module fuel count m t (m.kill t reason data).1 (m.kill t reason data).2
  /-- A host function asked the thread to wait. -/
  | waits {op operands m' t'} (hfetch : fetchAt module.code t.codePtr = .ok (op, operands))
      (hstep : step host (turn host fuel) (execWith (turn host fuel) fuel) module op operands m
        { t with codePtr := t.codePtr + 1 + op.arity } = some (m', t', true)) :
    Ends host limit module fuel count m t m' t'

variable {host : Host} {limit count count' : Word} {module : LoadedModule} {fuel fuel' : Nat}
  {m m' : Machine} {t t' : Thread}

/-- What a turn does next, given that the thread is to run on. -/
theorem loop_eq (hstate : t.state = .running) (hdelay : t.delay = 0)
    (hlimit : limit = 0 ∨ count < limit) :
    loop host (fuel + 1) limit count module m t =
      match fetchAt module.code t.codePtr with
      | .error (reason, data) => some (m.kill t reason data)
      | .ok (op, operands) =>
        match step host (turn host fuel) (execWith (turn host fuel) fuel) module op operands m
          { t with codePtr := t.codePtr + 1 + op.arity } with
        | none => none
        | some (m, t, true) => some (m, t)
        | some (m, t, false) =>
          loop host fuel limit (if limit = 0 then count else count + 1) module m t := by
  have hgo : (t.state != .running || t.delay != 0) = false := by simp [hstate, hdelay]
  have hmore : (limit != 0 && decide (limit ≤ count)) = false := by
    rcases hlimit with rfl | hlt
    · rfl
    · simp [UInt32.not_le.2 hlt]
  rw [loop, hgo, hmore]
  rfl

/-- A turn comes out the same from every state it passes. -/
theorem Passes.loop_eq (h : Passes host limit module fuel count m t fuel' count' m' t') :
    loop host fuel limit count module m t = loop host fuel' limit count' module m' t' := by
  induction h with
  | here => rfl
  | next hstate hdelay hlimit hfetch hstep _ ih =>
    rw [Machine.loop_eq hstate hdelay hlimit, hfetch]
    simp only [hstep]
    exact ih

/-- A turn that comes to an end has passed to a last state and ends there. -/
theorem exists_passes_of_loop (h : loop host fuel limit count module m t = some (m', t')) :
    ∃ fuel₁ count₁ m₁ t₁, Passes host limit module fuel count m t (fuel₁ + 1) count₁ m₁ t₁ ∧
      Ends host limit module fuel₁ count₁ m₁ t₁ m' t' := by
  induction fuel generalizing count m t with
  | zero => cases h
  | succ fuel ih =>
    by_cases hgo : t.state = .running ∧ t.delay = 0
    · obtain ⟨hstate, hdelay⟩ := hgo
      by_cases hlimit : limit = 0 ∨ count < limit
      · rw [loop_eq hstate hdelay hlimit] at h
        cases hfetch : fetchAt module.code t.codePtr with
        | error e =>
          obtain ⟨reason, data⟩ := e
          simp only [hfetch] at h
          obtain ⟨rfl, rfl⟩ := Prod.mk.injEq .. ▸ Option.some.inj h
          exact ⟨fuel, count, m, t, .here, .fault hfetch⟩
        | ok p =>
          obtain ⟨op, operands⟩ := p
          simp only [hfetch] at h
          split at h
          · cases h
          · rename_i m₁ t₁ hstep
            cases h
            exact ⟨fuel, count, m, t, .here, .waits hfetch hstep⟩
          · rename_i m₁ t₁ hstep
            obtain ⟨fuel₁, count₁, m₂, t₂, hpasses, hends⟩ := ih h
            exact ⟨fuel₁, count₁, m₂, t₂, .next hstate hdelay hlimit hfetch hstep hpasses, hends⟩
      · have hle : limit ≠ 0 ∧ limit ≤ count := by
          simpa [not_or, UInt32.not_lt] using hlimit
        have hgo : (t.state != .running || t.delay != 0) = false := by simp [hstate, hdelay]
        have hmore : (limit != 0 && decide (limit ≤ count)) = true := by simp [hle]
        rw [loop, hgo, hmore] at h
        cases h
        exact ⟨fuel, count, m, t, .here, .limit hle⟩
    · have hor : t.state ≠ .running ∨ t.delay ≠ 0 := Decidable.not_and_iff_or_not.1 hgo
      have hstop : (t.state != .running || t.delay != 0) = true := by simpa using hor
      rw [loop, hstop] at h
      cases h
      exact ⟨fuel, count, _, _, .here, .blocked hor⟩

end Machine

namespace Thread

/-- The thread runs the module, and it and all its callers stand at places of the walk through the
code. -/
structure Placed (module : LoadedModule) (t : Thread) : Prop where
  runs : t.module = some module
  codePtr : Starts module.code t.codePtr
  ret : ∀ f ∈ t.frames, Starts module.code f.ret

variable {module : LoadedModule} {t t' : Thread}

/-- A thread that stays where it is is at a place. -/
theorem Placed.stays (h : Placed module t) (hs : Stays t t') : Placed module t' where
  runs := hs.module.trans h.runs
  codePtr := hs.codePtr ▸ h.codePtr
  ret := hs.frames ▸ h.ret

/-- Calls leave the place behind the call with the frame. -/
theorem Placed.call (h : Placed module t) (hmodule : module.Placed) {f : Function}
    (hf : f ∈ module.functions) (index : Word) (discard : Bool) :
    Placed module (t.call f index discard) := by
  refine ⟨h.runs, hmodule.function f hf, fun g hg => ?_⟩
  rcases List.mem_cons.1 hg with rfl | hg
  · exact h.codePtr
  · exact h.ret g hg

/-- Returns lead to where the caller left off. -/
theorem Placed.returns (h : Placed module t) (value : Option Word) :
    Placed module (t.ret value) := by
  unfold Thread.ret
  split
  · exact ⟨h.runs, h.codePtr, h.ret⟩
  · rename_i f rest hframes
    have hf : Starts module.code f.ret := h.ret f (by simp [hframes])
    have hrest : ∀ g ∈ rest, Starts module.code g.ret := fun g hg => h.ret g (by simp [hframes, hg])
    split
    · exact ⟨h.runs, hf, hrest⟩
    · exact ⟨h.runs, hf, hrest⟩

/-- **One instruction** moves a thread from place to place. -/
theorem Placed.moves (hmodule : module.Placed) {op : Opcode} {operands : List Word}
    (h : Placed module t) (hfetch : fetchAt module.code t.codePtr = .ok (op, operands))
    (hm : Moves module op operands { t with codePtr := t.codePtr + 1 + op.arity } t') :
    Placed module t' := by
  have hbehind : Placed module { t with codePtr := t.codePtr + 1 + op.arity } :=
    ⟨h.runs, .next h.codePtr hfetch, h.ret⟩
  have htarget := hmodule.target _ _ _ h.codePtr hfetch
  cases hm with
  | stay hs => exact hbehind.stays hs
  | jump hop hs =>
    refine ⟨(hbehind.stays hs).runs, ?_, (hbehind.stays hs).ret⟩
    have hstart := htarget 0 (by rcases hop with rfl | rfl | rfl <;> rfl)
    rwa [List.headD_eq_head?_getD, List.head?_eq_getElem?]
  | jumpEqual hop hs =>
    refine ⟨(hbehind.stays hs).runs, ?_, (hbehind.stays hs).ret⟩
    have hstart := htarget 1 (by rw [hop]; rfl)
    rwa [List.headD_eq_head?_getD, List.head?_eq_getElem?, List.getElem?_tail]
  | call f hop hf discard => exact hbehind.call hmodule (Array.mem_of_getElem? hf) _ _
  | ret hop hs value => exact (hbehind.stays hs).returns value
  | reset s hs =>
    refine ⟨h.runs, hmodule.script s (Array.mem_of_getElem? hs), fun f hf => ?_⟩
    cases hf

section

variable {host : Host} {A : ChangeRule} (hhost : host.Obeys A)
  (hA : ∀ {m t m' t'}, A m t m' t' → Stays t t') (hmodule : module.Placed)
include hhost hA hmodule

/-- A thread is at a place after all instructions it passes. -/
theorem Placed.passes {limit count count' : Word} {fuel fuel' : Nat} {m m' : Machine}
    (h : Placed module t)
    (hp : Machine.Passes host limit module fuel count m t fuel' count' m' t') :
    Placed module t' := by
  induction hp with
  | here => exact h
  | next _ _ _ hfetch hstep _ ih => exact ih (h.moves hmodule hfetch (Machine.step_moves hhost hA hstep))

/-- **One turn** leaves its thread at a place. -/
theorem Placed.turn {fuel : Nat} {m m' : Machine} (h : Placed module t)
    (ht : Machine.turn host fuel m t = some (m', t')) : Placed module t' := by
  rw [Machine.turn, Machine.turnWith, h.runs] at ht
  obtain ⟨fuel₁, count₁, m₁, t₁, hpasses, hends⟩ := Machine.exists_passes_of_loop ht
  have hlast := h.passes hhost hA hmodule hpasses
  cases hends with
  | blocked _ => exact hlast
  | limit _ => exact hlast.stays ((Stays.refl t₁).setState _)
  | fault _ => exact hlast.stays ((Stays.refl t₁).setState _)
  | waits hfetch hstep => exact hlast.moves hmodule hfetch (Machine.step_moves hhost hA hstep)

end

/-- A run of a thread of a module that was loaded from the origin. -/
inductive Run (host : Host) (o : Origin) : LoadedModule → Thread → Prop
  | start {m id scope i j args info t} (hm : o.Makes m)
      (ht : make? id m scope i j args info = some t) : Run host o m t
  /-- Between turns, data of the thread change: it is paused or goes on, its delay runs down, a tick
  is noted, and the host does with it what it may. -/
  | edit {m t t' tick} (h : Run host o m t) (ht : Stays { t with lastTick := tick } t') :
    Run host o m t'
  | turn {m t t' fuel machine machine'} (h : Run host o m t)
      (ht : Machine.turn host fuel machine t = some (machine', t')) : Run host o m t'
  /-- The thread is saved, and read back for a module of the same origin. -/
  | reload {m m' t t' scope i rest rest'} (h : Run host o m t) (hm : o.Makes m') (hs : t.Sized)
      (ht : read m' scope i (t.write ++ rest) = .ok (t', rest')) : Run host o m' t'

/-- Reading a thread back for a module of the same origin leaves it where it was. -/
theorem Placed.reload {o : Origin} (hexact : o.table.Exact) (hdirects : o.table.Directs)
    {module' : LoadedModule} (hmakes : o.Makes module) (hmakes' : o.Makes module')
    (h : Placed module t) (scope : ScopeId) (i : Nat) :
    Placed module' (t.renewed module' scope i) := by
  obtain ⟨name, s, s', hload⟩ := hmakes
  obtain ⟨name', u, u', hload'⟩ := hmakes'
  obtain ⟨is, is', hspells, hspells', heq⟩ :=
    Module.spells_of_load hexact hdirects hload hload'
  exact ⟨rfl, starts_congr hspells hspells' heq h.codePtr,
    fun f hf => starts_congr hspells hspells' heq (h.ret f hf)⟩

/-- The module of a run was made from its origin. -/
theorem Run.makes {host : Host} {o : Origin} (h : Run host o module t) : o.Makes module := by
  induction h with
  | start hm _ => exact hm
  | edit _ _ ih => exact ih
  | turn _ _ ih => exact ih
  | reload _ hm _ _ _ => exact hm

section

variable {host : Host} {A : ChangeRule} (hhost : host.Obeys A)
  (hA : ∀ {m t m' t'}, A m t m' t' → Stays t t') {o : Origin} (hmade : o.table.Made)
  (hdirects : o.table.Directs)
include hhost hA hmade hdirects

/-- **Runs.**  From its start on, a thread is at a place of the walk through its code. -/
theorem Run.placed (h : Run host o module t) (hsize : module.code.size ≤ UInt32.size) :
    Placed module t := by
  have hplaced : ∀ {m : LoadedModule}, o.Makes m → m.code.size ≤ UInt32.size → m.Placed := by
    rintro m ⟨name, s, s', hload⟩ hsize
    exact Module.placed_of_load hmade.exact hdirects hload hsize
  induction h with
  | @start m id scope i j args info t hm ht =>
    obtain ⟨s, hs, rfl⟩ := Option.map_eq_some_iff.1 ht
    refine ⟨rfl, (hplaced hm hsize).script s (Array.mem_of_getElem? hs), fun f hf => ?_⟩
    cases hf
  | @edit m t t' tick _ ht ih =>
    have hnoted : Placed m { t with lastTick := tick } :=
      ⟨(ih hsize).runs, (ih hsize).codePtr, (ih hsize).ret⟩
    exact hnoted.stays ht
  | turn hrun ht ih => exact (ih hsize).turn hhost hA (hplaced hrun.makes hsize) ht
  | reload hrun hm hs ht ih =>
    have hcode := hrun.makes.code_size hmade.exact hdirects hm
    cases eq_renewed_of_read_write hs ht
    exact (ih (hcode ▸ hsize)).reload hmade.exact hdirects hrun.makes hm _ _

/-- **Threads stay on instructions.**  At every state that a turn of a run passes, the thread is at
the beginning of an instruction, which has all its operands, and a function if it calls one; or the
thread is exactly at the end of the code, and ends there. -/
theorem Run.fetches (h : Run host o module t) (hsize : module.code.size ≤ UInt32.size)
    {limit count count' : Word} {fuel fuel' : Nat} {m m' : Machine}
    (hp : Machine.Passes host limit module fuel count m t fuel' count' m' t') :
    (Starts module.code t'.codePtr ∧ ∃ op operands,
      fetchAt module.code t'.codePtr = .ok (op, operands) ∧
      (op.calls → ∃ f, module.functions[(operands.headD 0).toNat]? = some f)) ∨
    (t'.codePtr = module.code.size ∧
      fetchAt module.code t'.codePtr = .error (.outOfBounds, UInt32.ofNat module.code.size)) := by
  have hmodule : module.Placed := by
    obtain ⟨name, s, s', hload⟩ := h.makes
    exact Module.placed_of_load hmade.exact hdirects hload hsize
  have hplaced := (h.placed hhost hA hmade hdirects hsize).passes hhost hA hmodule hp
  rcases hmodule.fetch _ hplaced.codePtr with ⟨op, operands, hfetch⟩ | hend
  · refine .inl ⟨hplaced.codePtr, op, operands, hfetch, fun hcalls => ?_⟩
    have hlt := hmodule.call _ _ _ hplaced.codePtr hfetch hcalls
    rw [← List.head?_eq_getElem?, ← List.headD_eq_head?_getD] at hlt
    exact ⟨_, Array.getElem?_eq_getElem hlt⟩
  · exact .inr ⟨hend, hend ▸ fetchAt_size module.code⟩

end

/-- A unit whose script calls a function, which returns, and ends. -/
def callingUnit : Bytecode where
  regCount := 0
  arrCount := 0
  strings := []
  functions := [{ paramCount := 0, regCount := 1, arrCount := 0, entry := 3 }]
  scripts := [{
    name := .number 1, type := 0, flags := 0, argCount := 0, regCount := 0, arrCount := 0
    entry := 0 }]
  code := [66, 0, 2, 67]

/-- The unit, loaded. -/
def callingModule : LoadedModule where
  name := { name := "calling" }
  regCount := 0
  arrCount := 0
  strings := []
  functions := callingUnit.functions.toArray
  scripts := callingUnit.scripts.toArray
  code := #[66, 0, 2, 67]
  serial := 0

/-- The thread that the first start of the script makes. -/
def callingThread : Thread where
  id := 1
  module := some callingModule

/-- A host whose functions do nothing. -/
def idleHost : Host := fun _ _ => .done false

/-- A thread of the unit within its call stands at the return. -/
theorem Run.fetches_calling :
    ∃ m' t', Run idleHost ⟨callingUnit.write, CodeTable.standard, .error⟩ callingModule callingThread ∧
      Machine.Passes idleHost 0 callingModule 9 0 (Machine.make {}) callingThread 8 0 m' t' ∧
      t'.codePtr = 3 ∧
      ((Starts callingModule.code t'.codePtr ∧ ∃ op operands,
        fetchAt callingModule.code t'.codePtr = .ok (op, operands) ∧
        (op.calls → ∃ f, callingModule.functions[(operands.headD 0).toNat]? = some f)) ∨
      (t'.codePtr = callingModule.code.size ∧ fetchAt callingModule.code t'.codePtr =
        .error (.outOfBounds, UInt32.ofNat callingModule.code.size))) := by
  have hmakes : Origin.Makes ⟨callingUnit.write, CodeTable.standard, .error⟩ callingModule :=
    ⟨{ name := "calling" }, {}, {}, rfl⟩
  have hstart : make? 1 callingModule {} 0 0 [] {} = some callingThread := rfl
  have hrun : Run idleHost _ callingModule callingThread := .start hmakes hstart
  have hpasses : Machine.Passes idleHost 0 callingModule 9 0 (Machine.make {}) callingThread 8 0
      (Machine.make {}) ({ callingThread with codePtr := 2 }.call callingUnit.functions[0] 0 true) :=
    .next rfl rfl (.inl rfl) rfl rfl .here
  have hidle : idleHost.Obeys fun _ t _ t' => Stays t t' := fun _ _ _ _ => trivial
  exact ⟨_, _, hrun, hpasses, rfl,
    hrun.fetches hidle (fun h => h) .standard CodeTable.directs_standard (by decide) hpasses⟩

end Thread

end ScriptMachine
