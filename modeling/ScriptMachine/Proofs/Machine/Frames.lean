import Mathlib.Logic.Relation
import ScriptMachine.Proofs.Machine.Lasting
import ScriptMachine.Proofs.Machine.Managed
import ScriptMachine.Proofs.Module.Acceptance
import ScriptMachine.Proofs.Thread.Callers
import ScriptMachine.Proofs.Thread.Running

/-!
# Frames and locals of all threads

`Machine.Continued` is every machine that comes about from a new one by what a host does with it, its
functions included, and by loading states that such machines saved.  In all of them the locals of every
thread lie as its script and the functions it called declare (`Continued.stacked`), because all that happens
to machines and threads keeps this (`lasting_stacked`).  Threads that begin while scripts
run have no calls yet.  From there on a thread goes on as its instructions, host functions and saved states
make it, and at each call its locals are isolated from those of the functions it calls
(`Arises.calls_isolated`).
-/

namespace ScriptMachine

namespace Module

/-- No function of a unit that was read has more parameters than registers. -/
theorem paramsFit_linkWith {data : Bytes} {unit : Bytecode} {table : CodeTable} {policy : UnknownPolicy}
    {l : Located} (hparse : Bytecode.parse data = .ok unit) (hlocate : locate unit table policy = .ok l)
    (name : ModuleName) (strings : List Word) : (l.linkWith name strings).ParamsFit := by
  intro g hg
  unfold locate at hlocate
  split at hlocate
  · cases hlocate
  · obtain ⟨cells, -, hlocate⟩ := bind_eq_ok hlocate
    obtain ⟨functions, hfunctions, hlocate⟩ := bind_eq_ok hlocate
    obtain ⟨scripts, -, hlocate⟩ := bind_eq_ok hlocate
    cases hlocate
    obtain ⟨f, hf, hlocated⟩ := exists_of_mem_mapM hfunctions (List.mem_toArray.1 hg)
    obtain ⟨w, -, heq⟩ := bind_eq_ok hlocated
    cases heq
    exact (Bytecode.counts_of_parse hparse).1 f hf

/-- A module that was made was read. -/
theorem paramsFit_of_makes {x : LoadedModule} {o : Origin} (h : o.Makes x) : x.ParamsFit := by
  obtain ⟨name, s, s', hload⟩ := h
  obtain ⟨unit, hparse, hload⟩ := bind_eq_ok hload
  obtain ⟨l, hlocate, hload⟩ := bind_eq_ok hload
  have hlink : (link name l s).1 = x.toModule := congrArg Prod.fst (Except.ok.inj hload)
  rw [← hlink, link_eq]
  exact paramsFit_linkWith hparse hlocate _ _

end Module

namespace Thread

/-- The locals of the thread lie as they are declared, unless it is a placeholder. -/
def Stacked (t : Thread) : Prop := ∀ x, t.module = some x → x.ParamsFit ∧ t.Laid x.toModule

variable {t t' : Thread}

/-- A thread that stays where it is stays stacked. -/
theorem Stacked.stays (h : t.Stacked) (hs : Stays t t') : t'.Stacked := by
  intro x hx
  obtain ⟨hparams, hlaid⟩ := h x (hs.module ▸ hx)
  exact ⟨hparams, hlaid.stays hs⟩

/-- The place in the code does not matter. -/
theorem Stacked.place (h : t.Stacked) (n : Nat) : Stacked { t with codePtr := n } :=
  fun x hx => ⟨(h x hx).1, (h x hx).2.place n⟩

/-- The tick that is noted does not matter. -/
theorem Stacked.noted (h : t.Stacked) (n : Nat) : Stacked { t with lastTick := n } := by
  intro x hx
  obtain ⟨hparams, hlaid⟩ := h x hx
  exact ⟨hparams, hlaid.runs, hlaid.called, hlaid.locals⟩

/-- A restated thread stays stacked. -/
theorem Stacked.restated {now : Nat} (h : t.Stacked) (hr : t.Restated now t') : t'.Stacked :=
  (h.noted t'.lastTick).stays hr.stays

/-- Instructions keep a thread stacked. -/
theorem Stacked.moves {x : LoadedModule} {op : Opcode} {operands : List Word} (h : t.Stacked)
    (hx : t.module = some x) (hm : Moves x op operands t t') : t'.Stacked := by
  intro y hy
  rw [hm.same.module, hx] at hy
  cases hy
  obtain ⟨hparams, hlaid⟩ := h x hx
  exact ⟨hparams, hlaid.moves hparams hm⟩

theorem stacked_placeholder (k : Word) : (placeholder k).Stacked := nofun

/-- A new thread. -/
theorem stacked_of_make? {id : Word} {x : LoadedModule} {scope : ScopeId} {i j : Nat} {args : List Word}
    {info : ThreadInfo} (hparams : x.ParamsFit) (h : make? id x scope i j args info = some t) :
    t.Stacked := by
  obtain ⟨s, hs, rfl⟩ := Option.map_eq_some_iff.1 h
  intro y hy
  cases hy
  exact ⟨hparams, laid_reset rfl hs⟩

/-- Serial numbers and noted ticks do not matter. -/
theorem Stacked.recast (h : t.Stacked) (σ : ModuleName → Nat) (g : Nat → Nat) : (t.recast σ g).Stacked := by
  intro y hy
  obtain ⟨x, hx, rfl⟩ := Option.map_eq_some_iff.1 hy
  obtain ⟨hparams, hlaid⟩ := h x hx
  refine ⟨hparams, ?_, hlaid.called, hlaid.locals⟩
  simp only [Thread.recast, hx, Option.map_some]

end Thread

namespace MapScope

/-- Functions of the modules take no more parameters than they have registers, and the locals of all
threads lie as they are declared. -/
def Stacked (m : MapScope) : Prop := ∀ s ∈ m.modules, s.module.ParamsFit ∧ ∀ t ∈ s.threads, t.Stacked

variable {known : LoadedModule → Prop} {now : Nat} {wraps : Prop} {id : ScopeId} {m m' : MapScope}

/-- The threads of one module scope are replaced by threads that were there or are stacked. -/
theorem Stacked.modifyThreads {i : Nat} {f : List Thread → List Thread} (h : m.Stacked)
    (hf : ∀ s ∈ m.modules, ∀ t ∈ f s.threads, t ∈ s.threads ∨ t.Stacked)
    (hmodules : m'.modules = m.modules.modify i fun s => { s with threads := f s.threads }) :
    m'.Stacked := by
  intro s' hs'
  refine ⟨?_, forall_threads_of_modify (fun s hs => (h s hs).2) hf hmodules s' hs'⟩
  obtain ⟨k, hk⟩ := List.getElem?_of_mem hs'
  obtain ⟨s, hs, hmodule, -⟩ := exists_of_modify_threads hmodules hk
  exact hmodule ▸ (h s (List.mem_of_getElem? hs)).1

/-- Whatever a map goes through keeps it stacked, where the modules that are added were read. -/
theorem Step.stacked (h : Step known now wraps id m m') (hknown : ∀ x, known x → x.ParamsFit)
    (hm : m.Stacked) : m'.Stacked := by
  induction h with
  | restate houtline hthreads hslots hnext =>
    intro s' hs'
    obtain ⟨i, hi⟩ := List.getElem?_of_mem hs'
    obtain ⟨s, hs, hrestated⟩ := hthreads i s' hi
    obtain ⟨hparams, hstacked⟩ := hm s (List.mem_of_getElem? hs)
    refine ⟨(mem_outline houtline hs hi).1 ▸ hparams, fun t' ht' => ?_⟩
    obtain ⟨t, ht, hr⟩ := hrestated t' ht'
    exact (hstacked t ht).restated hr
  | @spawn m m' i j s args info t hs ht hmodules hslots hnext hwraps =>
    have hnew := Thread.stacked_of_make? (hm s (List.mem_of_getElem? hs)).1 ht
    refine hm.modifyThreads (f := fun ts => ts ++ [t]) (fun s _ u hu => ?_) hmodules
    rcases List.mem_append.1 hu with hu | hu
    · exact .inl hu
    · rw [List.mem_singleton.1 hu]
      exact .inr hnew
  | skip hslot hstray => exact hm
  | reap i j hmodules hslots hnext =>
    exact hm.modifyThreads (f := fun ts => ts.eraseIdx j)
      (fun s _ t ht => .inl (List.mem_of_mem_eraseIdx ht)) hmodules
  | @add m m' module hadded hmodules hslots hnext =>
    intro s hs
    rw [hmodules] at hs
    rcases List.mem_append.1 hs with hs | hs
    · exact hm s hs
    · rw [List.mem_singleton.1 hs]
      exact ⟨hknown module hadded, fun t ht => by cases ht⟩
  | trans _ _ ih ih' => exact ih' (ih hm)

/-- A map that was loaded is as stacked as the saved one. -/
theorem Stacked.recast (h : m.Stacked) (σ : ModuleName → Nat) (g : Nat → Nat) : (m.recast σ g).Stacked := by
  intro s' hs'
  obtain ⟨s, hs, rfl⟩ := List.mem_map.1 hs'
  obtain ⟨hparams, hthreads⟩ := h s hs
  refine ⟨hparams, fun t' ht' => ?_⟩
  obtain ⟨t, ht, rfl⟩ := List.mem_map.1 ht'
  exact (hthreads t ht).recast σ g

end MapScope

namespace Machine

open Thread

/-- All maps are stacked. -/
def Stacked (m : Machine) : Prop := ∀ id map, m.scopes.map? id = some map → map.Stacked

variable {known : LoadedModule → Prop} {c : Terms} {m m' : Machine} {t t' : Thread} {scope : ScopeId}
  {i : Nat}

/-- What lets the tree advance, by modules that were read, leaves the maps stacked. -/
theorem Stacked.advance (h : m.Stacked) (hm : m.Advances known m') (hknown : ∀ x, known x → x.ParamsFit) :
    m'.Stacked :=
  hm.scopes.forall_maps (fun hstep hmap => hstep.stacked hknown hmap) (fun _ s hs => by cases hs) h

/-- Machines that evolve stay stacked. -/
theorem Stacked.evolve (h : m.Stacked) (hm : m.Evolves m') : m'.Stacked := by
  have hadvances : m.Advances (fun _ => False) m' := hm.advances
  exact h.advance hadvances nofun

/-- Threads of one module scope are replaced. -/
theorem Stacked.modifyThreads (h : m.Stacked) (scope : ScopeId) (i : Nat) {f : List Thread → List Thread}
    (hf : ∀ ts, ∀ t ∈ f ts, t ∈ ts ∨ t.Stacked) :
    ({ m with scopes := m.scopes.modifyModule scope i fun s =>
      { s with threads := f s.threads } } : Machine).Stacked :=
  ScopeTree.forall_modifyMap h fun map hmap =>
    (h scope map hmap).modifyThreads (f := f) (fun s _ => hf s.threads) rfl

/-- Taking a thread out leaves a machine stacked. -/
theorem Stacked.detach (h : m.Stacked) (scope : ScopeId) (i : Nat) (j : List Thread → Nat) (id : Word) :
    (m.detach scope i j id).Stacked := by
  refine h.modifyThreads scope i (f := fun ts => ts.modify (j ts) fun _ => placeholder id)
    fun ts t ht => ?_
  rcases mem_modify ht with ht | rfl
  · exact .inl ht
  · exact .inr (stacked_placeholder id)

/-- Putting a stacked thread back leaves a machine stacked. -/
theorem Stacked.reattach (h : m.Stacked) (ht : t.Stacked) (scope : ScopeId) (i : Nat) :
    (m.reattach scope i t).Stacked := by
  rcases reattach_cases m scope i t with ⟨s, k, p, u, -, -, -, -, hrestates, heq, -⟩ | ⟨-, -, hscopes, -⟩
  · have hu : u.Stacked := ht.stays hrestates.stays
    rw [heq]
    refine h.modifyThreads scope i (f := fun ts => ts.modify _ fun _ => u) fun ts v hv => ?_
    rcases mem_modify hv with hv | rfl
    · exact .inl hv
    · exact .inr hu
  · intro id map hmap
    exact h id map (hscopes ▸ hmap)

/-- **What lasts.**  All that happens keeps machines stacked, where hosts add modules that were read. -/
theorem lasting_stacked (hadds : ∀ m x, c.adds m x → x.ParamsFit) :
    Lasting c.rule Stacked Thread.Stacked where
  evolve h hm := hm.evolve h
  busy _ _ hm := hm
  detach scope i j id hm := hm.detach scope i j id
  reattach scope i hm ht := hm.reattach ht scope i
  thread hm hs ht := by
    obtain ⟨map, hmap, hplace⟩ := Option.bind_eq_some_iff.1 hs
    exact (hm _ map hmap _ (List.mem_of_getElem? hplace)).2 _ ht
  restated h ht := ht.restated h
  place n ht := ht.place n
  moves hx h ht := ht.moves hx h
  host h hm := by
    rcases h.2 with rfl | hdeed
    · exact hm
    · exact hm.advance hdeed.advances (hadds _)

/-! ## Runs -/

/-- A host that adds to maps what was loaded, and otherwise does whatever it likes. -/
def Terms.loaded : Terms where
  adds _ x := ∃ o, Origin.Makes o x

/-- Such hosts, with functions that keep to the same, and states that machines of such runs saved. -/
def Regime.continued : Regime := { Regime.obedient .loaded with returns := Returns }

/-- The machines that come about from a new one, with host functions that may do what a host may.  States
that are loaded were saved by such machines, and the modules come back with them. -/
def Continued : Machine → Prop := Regime.continued.Run

/-- **All threads are stacked** in such machines. -/
theorem Continued.stacked (h : Continued m) : m.Stacked := by
  have hlasting : Lasting Terms.loaded.rule Stacked Thread.Stacked :=
    lasting_stacked fun _ _ ⟨_, hmakes⟩ => Module.paramsFit_of_makes hmakes
  induction h with
  | make settings => exact fun id map hmap => by cases hmap
  | handle _ hdo ih =>
    cases hdo with
    | deed hdeed => exact hlasting.host ⟨.refl default, .inr hdeed⟩ ih
    | exec _ hexec =>
      obtain ⟨host, hhost, hexec⟩ := hexec
      exact hlasting.exec hhost (tame_rule _) ih hexec
    | startResult _ hstart =>
      obtain ⟨host, hhost, hstart⟩ := hstart
      exact hlasting.startResult hhost (tame_rule _) ih hstart
  | load _ _ htakes _ => exact htakes.elim
  | reload hX _ hsave hload hreturns ihX _ =>
    have hcoherent := fun hfresh => hX.coherent (fun _ _ ht => ht.elim)
      (fun hreturns hX hsave hload => Returns.coherent hreturns hX hsave hload) hfresh
    intro id map' hmap'
    obtain ⟨map, hmap, rfl⟩ := Returns.exists_saved hreturns hcoherent hsave hload hmap'
    exact (ihX id map hmap).recast _ _

end Machine

/-! ## What becomes of a thread -/

namespace Thread

/-- Host functions leave the calling thread where it is, and its locals alone. -/
def RestRule : ChangeRule := fun _ t _ t' => Stays t t' ∧ Rests t t'

/-- What becomes of a thread, in turns and between them. -/
def Becomes (host : Host) : Thread → Thread → Prop := Relation.ReflTransGen (Happens host fun _ => True)

section

variable {host : Host} (hhost : host.Obeys RestRule) {t t' : Thread}
include hhost

/-- Whatever happens to a stacked thread keeps it stacked. -/
theorem Stacked.happens {ops : Opcode → Prop} (h : t.Stacked) (hn : Happens host ops t t') : t'.Stacked := by
  cases hn with
  | @instruction x op operands _ _ _ _ _ hx _ _ hstep =>
    have hmoved : Stacked { t with codePtr := t.codePtr + 1 + op.arity } := h.place _
    exact hmoved.moves hx (Machine.step_moves hhost (fun h => h.1) hstep)
  | edit hrests =>
    intro x hx
    obtain ⟨hparams, hlaid⟩ := h x (hrests.module ▸ hx)
    exact ⟨hparams, hrests.laid hlaid⟩
  | reload hs hsame hread =>
    cases eq_renewed_of_read_write hs hread
    intro y hy
    cases hy
    obtain ⟨z, hz, heq⟩ := Option.map_eq_some_iff.1 hsame
    obtain ⟨hparams, hlaid⟩ := h z hz
    rw [heq] at hparams hlaid
    exact ⟨hparams, rfl, hlaid.called, hlaid.locals⟩

/-- Whatever becomes of a stacked thread, it is stacked. -/
theorem Stacked.becomes (h : t.Stacked) (hb : Becomes host t t') : t'.Stacked := by
  induction hb with
  | refl => exact h
  | tail _ hn ih => exact ih.happens hhost hn

/-- The instructions of a turn are part of what becomes of its thread. -/
theorem becomes_loop {fuel : Nat} {limit count : Word} {x : LoadedModule} {m m' : Machine}
    (hx : t.module = some x) (h : Machine.loop host fuel limit count x m t = some (m', t')) :
    Becomes host t t' := by
  induction fuel generalizing count m t with
  | zero => cases h
  | succ fuel ih =>
    have hkill : ∀ {reason data}, some (m.kill t reason data) = some (m', t') → Becomes host t t' := by
      intro reason data heq
      cases heq
      exact .single (.edit ((Rests.refl t).setState .stopped))
    unfold Machine.loop at h
    split at h
    · cases h
      exact .refl
    · split at h
      · exact hkill h
      · split at h
        · exact hkill h
        · rename_i op operands hfetch
          dsimp only at h
          split at h
          · cases h
          · rename_i hstep
            cases h
            exact .single (.instruction hx hfetch trivial hstep)
          · rename_i hstep
            have hmodule := (Machine.step_moves hhost (fun h => h.1) hstep).same.module
            exact .head (.instruction hx hfetch trivial hstep) (ih (hmodule.trans hx) h)

/-- **A turn** is part of what becomes of its thread. -/
theorem becomes_turn {fuel : Nat} {m m' : Machine}
    (h : Machine.turn host fuel m t = some (m', t')) : Becomes host t t' := by
  unfold Machine.turn Machine.turnWith at h
  split at h
  · cases h
    exact .single (.edit ((Rests.refl t).setState .stopped))
  · rename_i hx
    exact becomes_loop hhost hx h

end

end Thread

namespace Machine

open Thread

/-- Where threads come from.  A thread is in the tree of a machine at rest, or it is a new instance of a
script of a module that was loaded, as those are that begin while scripts run. -/
inductive Arises : Thread → Prop
  | kept {m id map s t} (h : Continued m) (hmap : m.scopes.map? id = some map)
      (hs : s ∈ map.modules) (ht : t ∈ s.threads) : Arises t
  | made {o x k scope i j args info t} (hx : Origin.Makes o x)
      (ht : make? k x scope i j args info = some t) : Arises t

/-- Wherever a thread comes from, it is stacked. -/
theorem Arises.stacked (h : Arises t) : t.Stacked := by
  cases h with
  | kept h hmap hs ht => exact (h.stacked _ _ hmap _ hs).2 t ht
  | made hx ht => exact stacked_of_make? (Module.paramsFit_of_makes hx) ht

/-- **Calls isolate locals.**  A thread, with all that becomes of it, has its locals laid as its script and
the functions it called declare.  When it carries out a call, then until it first comes back, its own frame
and all beneath are left alone, as are all locals it had.  When it comes back, these are all locals there
are, and the return has put one word on the stack if the call asked for it: the value, or 0. -/
theorem Arises.calls_isolated {t₀ t : Thread} (ht₀ : Arises t₀) {host : Host}
    (hhost : host.Obeys RestRule) (ht : Becomes host t₀ t) {x : LoadedModule}
    (hx : t.module = some x) :
    t.Laid x.toModule ∧
    ∀ {op operands turn exec n n' u waits v}, fetchAt x.code t.codePtr = .ok (op, operands) →
      (op = .call ∨ op = .callDiscard) →
      step host turn exec x op operands n { t with codePtr := t.codePtr + 1 + op.arity } =
        some (n', u, waits) →
      During host t.frames.length u v →
      (⟨t.codePtr + 1 + op.arity, t.regBase, t.arrBase, op == .callDiscard, operands.headD 0⟩ ::
          t.frames <:+ v.frames ∧
        t.regs.toList <+: v.regs.toList ∧ t.arrs.toList <+: v.arrs.toList) ∧
      ∀ w, Happens host (· ≠ .restart) v w → w.frames.length ≤ t.frames.length →
        Returned t ⟨t.codePtr + 1 + op.arity, t.regBase, t.arrBase, op == .callDiscard,
          operands.headD 0⟩ w ∧
        ∃ y back values, v.module = some y ∧ fetchAt y.code v.codePtr = .ok (back, values) ∧
          (back = .ret ∧ w.stack = (if op = .call then 0 :: v.stack else v.stack) ∨
            back = .retValue ∧
              w.stack = if op = .call then v.pop.1 :: v.pop.2.stack else v.pop.2.stack) := by
  have hstacked : t.Stacked := ht₀.stacked.becomes hhost ht
  refine ⟨(hstacked x hx).2, fun _ hop hstep hduring => ?_⟩
  exact hduring.isolated hhost (fun h => h.2) hop hstep

/-- A unit whose script calls a function that raises its parameter and returns it. -/
def raisingUnit : Bytecode where
  regCount := 0
  arrCount := 0
  strings := []
  functions := [{ paramCount := 1, regCount := 1, arrCount := 0, entry := 5 }]
  scripts := [{
    name := .number 1, type := 0, flags := 0, argCount := 1, regCount := 1, arrCount := 0
    entry := 0 }]
  code := [10, 7, 65, 0, 2, 16, 0, 14, 0, 68]

/-- The unit, loaded. -/
def raisingModule : LoadedModule where
  name := { name := "raising" }
  regCount := 0
  arrCount := 0
  strings := []
  functions := raisingUnit.functions.toArray
  scripts := raisingUnit.scripts.toArray
  code := #[10, 7, 65, 0, 2, 16, 0, 14, 0, 68]
  serial := 0

/-- The machine with the unit loaded. -/
def raisingMachine : Machine :=
  (smallMachine.loadModule { name := "raising" } raisingUnit.write).2

/-- The machine with the script started. -/
def startedRaising : Machine :=
  ((raisingMachine.addNamed {} [{ name := "raising" }]).2.serve (.start {} (.number 1) [3] {})).2

/-- The thread as it was started, with 3 in its register. -/
def raisingThread : Thread where
  id := 1
  module := some raisingModule
  regs := #[3]
  args := [3]

/-- How the machine with the script started comes about. -/
theorem continued_startedRaising : Continued startedRaising := by
  have hregistered : raisingMachine.registered [{ name := "raising" }] = [raisingModule] := by
    decide +kernel
  have hmakes : Origin.Makes ⟨raisingUnit.write, CodeTable.standard, .error⟩ raisingModule :=
    ⟨{ name := "raising" }, {}, {}, rfl⟩
  have hraising : Continued raisingMachine :=
    .handle (.make _) (.deed (.loading rfl trivial fun _ _ _ => trivial))
  have hadded : Continued (raisingMachine.addNamed {} [{ name := "raising" }]).2 :=
    .handle hraising (.deed (.adding rfl fun x hx => by
      rw [hregistered, List.mem_singleton] at hx
      exact ⟨_, hx ▸ hmakes⟩))
  exact .handle hadded (.deed (.request _ trivial))

/-- The thread calls the function with 7, and has 8 on its stack and 3 in its register when it comes
back. -/
theorem Arises.calls_isolated_raising : ∃ t u v w,
    Continued startedRaising ∧
    ((startedRaising.scopes.map? {}).map fun map => map.modules.map (·.threads)) =
      some [[raisingThread]] ∧
    idleHost.Obeys RestRule ∧ Becomes idleHost raisingThread t ∧ t.Laid raisingModule.toModule ∧
    During idleHost t.frames.length u v ∧ Happens idleHost (· ≠ .restart) v w ∧
    Returned t ⟨4, 0, 0, false, 0⟩ w ∧ w.regs = #[3] ∧ w.stack = [8] := by
  have hidle : idleHost.Obeys RestRule := by
    intro key args m t
    trivial
  have hthreads : ((startedRaising.scopes.map? {}).map fun map => map.modules.map (·.threads)) =
      some [[raisingThread]] := by decide +kernel
  obtain ⟨map, hmap, hmodules⟩ := Option.map_eq_some_iff.1 hthreads
  obtain ⟨s, hs, hthread⟩ : ∃ s ∈ map.modules, raisingThread ∈ s.threads := by
    have hmem : [raisingThread] ∈ map.modules.map (·.threads) := hmodules ▸ List.mem_singleton_self _
    obtain ⟨s, hs, heq⟩ := List.mem_map.1 hmem
    exact ⟨s, hs, heq ▸ List.mem_singleton_self _⟩
  -- the value is pushed, the function is called, its register is raised and pushed, and it returns
  let turn : Turn := fun _ _ => none
  let exec : Machine → Option Machine := fun _ => none
  let pushed : Thread := { raisingThread with codePtr := 2, stack := [7] }
  let called : Thread := { raisingThread with
    codePtr := 5, frames := [⟨4, 0, 0, false, 0⟩], regs := #[3, 7], regBase := 1 }
  let raised : Thread := { called with codePtr := 7, regs := #[3, 8] }
  let given : Thread := { raised with codePtr := 9, stack := [8] }
  let back : Thread := { raisingThread with codePtr := 4, stack := [8] }
  have hgo : ∀ {ops : Opcode → Prop} {op operands} {u v : Thread}, u.module = some raisingModule →
      fetchAt raisingModule.code u.codePtr = .ok (op, operands) → ops op →
      step idleHost turn exec raisingModule op operands smallMachine
        { u with codePtr := u.codePtr + 1 + op.arity } = some (smallMachine, v, false) →
      Happens idleHost ops u v := fun hx hfetch hop hstep => .instruction hx hfetch hop hstep
  have hpushed : Happens idleHost (fun _ => True) raisingThread pushed := hgo rfl rfl trivial rfl
  have hraised : Happens idleHost (· ≠ .restart) called raised := hgo rfl rfl nofun rfl
  have hgiven : Happens idleHost (· ≠ .restart) raised given := hgo rfl rfl nofun rfl
  have hback : Happens idleHost (· ≠ .restart) given back := hgo rfl rfl nofun rfl
  have hduring : During idleHost pushed.frames.length called given :=
    ((During.here (by decide)).next hraised (by decide)).next hgiven (by decide)
  have harises : Arises raisingThread := .kept continued_startedRaising hmap hs hthread
  obtain ⟨hlaid, hcalls⟩ := harises.calls_isolated hidle (.single hpushed) (x := raisingModule) rfl
  have hcall : step idleHost turn exec raisingModule .call [0] smallMachine
      { pushed with codePtr := pushed.codePtr + 1 + Opcode.arity .call } =
        some (smallMachine, called, false) := rfl
  obtain ⟨-, hreturn⟩ := hcalls rfl (.inl rfl) hcall hduring
  obtain ⟨hreturned, -⟩ := hreturn back hback (by decide)
  exact ⟨pushed, called, given, back, continued_startedRaising, hthreads, hidle, .single hpushed, hlaid,
    hduring, hback, hreturned, rfl, rfl⟩

/-- The stray unit, loaded. -/
def strayModule : LoadedModule where
  name := { name := "stray" }
  regCount := 0
  arrCount := 0
  strings := []
  functions := #[]
  scripts := strayUnit.scripts.toArray
  code := #[2, 2, 2]
  serial := 1

/-- **Why modules of saved maps are registered.**  A host may come to this state, and the thread in it is
loaded as one of another module (`Managed.not_inOrder_astray`), whose script has no register while the thread
has one. -/
theorem Continued.not_laid_astray : Continued strayMachine ∧
    ∃ map, astrayMachine.scopes.map? {} = some map ∧ ∃ t ∈ map.threads, ∃ x,
      t.module = some x ∧ ¬ t.Laid x.toModule := by
  have hview : (astrayMachine.scopes.map? {}).map (fun map => map.threads.map fun t =>
      t.module.map fun x => (t.frames.length, t.regs.size, x.scripts[t.scriptIndex]?.map (·.regCount))) =
      some [some (0, 1, some 0)] := by decide +kernel
  have hregistered : bothMachine.registered [{ name := "stray" }] = [strayModule] := by decide +kernel
  have hmakes : Origin.Makes ⟨strayUnit.write, CodeTable.standard, .error⟩ strayModule :=
    ⟨{ name := "stray" }, {}, {}, rfl⟩
  have hstray : Continued strayMachine := run_strayMachine (fun _ => trivial) (fun _ _ => trivial)
    (fun _ => trivial) (fun _ => trivial) (fun _ => trivial) (fun x hx => by
      rw [hregistered, List.mem_singleton] at hx
      exact ⟨_, hx ▸ hmakes⟩) fun h => h
  refine ⟨hstray, ?_⟩
  obtain ⟨map, hmap, hview⟩ := Option.map_eq_some_iff.1 hview
  obtain ⟨t, hthreads, hthread⟩ := List.map_eq_singleton_iff.1 hview
  obtain ⟨y, hmodule, hthread⟩ := Option.map_eq_some_iff.1 hthread
  simp only [Prod.mk.injEq] at hthread
  obtain ⟨hframes, hregs, hscript⟩ := hthread
  obtain ⟨script, hscript, hcount⟩ := Option.map_eq_some_iff.1 hscript
  refine ⟨map, hmap, t, hthreads ▸ List.mem_singleton_self t, y, hmodule, fun hlaid => ?_⟩
  obtain ⟨script', hscript', hlies, -⟩ := hlaid.locals
  cases hscript.symm.trans hscript'
  have hsize := hlies.size
  rw [List.length_eq_zero_iff.1 hframes, hregs, hcount] at hsize
  exact absurd hsize (by simp [localsEnd])

end Machine

end ScriptMachine
