import ScriptMachine.Module.Loader
import ScriptMachine.Proofs.Code.Starts
import ScriptMachine.Proofs.Codec.Sequencing
import ScriptMachine.Proofs.Codec.Varint
import ScriptMachine.Proofs.OrdMap

/-!
# Loaded code is a row of whole instructions

Every raw instruction is translated to whole instructions of the machine (`Decoded.Whole`), and the
places the loader resolves lie between raw instructions.  So the code of a loaded module can be
walked from its first word to its end, and every jump target, function entry and script entry is a
place of that walk (`Module.placed_of_load`).  This takes that the code table marks the operands of
jumps as places and those of calls as functions (`CodeTable.Directs`).
-/

namespace ScriptMachine

open Machine (fetchAt)

namespace CodeTable

/-- Tables that the table operations make. -/
inductive Made : CodeTable → Prop
  | empty : Made {}
  | standard : Made CodeTable.standard
  | addInstruction {t t' raw op kinds} (h : Made t) (ht : t.addInstruction? raw op kinds = some t') :
    Made t'
  | addRedirect {t} (h : Made t) (raw : Word) (r : Redirect) : Made (t.addRedirect raw r)
  | erase {t} (h : Made t) (raw : Word) : Made (t.erase raw)

/-- Whether the table entry of an instruction marks the target of a jump as a place and the operand
of a call as a function. -/
def Directed (op : Opcode) (kinds : List OperandKind) : Bool :=
  match op with
  | .jump | .jumpTrue | .jumpZero => kinds[0]? == some .target
  | .jumpEqual => kinds[1]? == some .target
  | .call | .callDiscard => kinds[0]? == some .function
  | _ => true

/-- The table marks the targets of all jumps and the operands of all calls. -/
def Directs (t : CodeTable) : Prop :=
  ∀ raw op kinds, t.find? raw = some (.instruction op kinds) → Directed op kinds = true

/-- Instructions of the table have as many operands as they take. -/
def Exact (t : CodeTable) : Prop :=
  ∀ raw op kinds, t.find? raw = some (.instruction op kinds) → kinds.length = op.arity

/-- What the two conditions say of one entry. -/
def entryFits : CodeEntry → Bool
  | .instruction op kinds => kinds.length == op.arity && Directed op kinds
  | .redirect _ => true

/-- The entries of the standard table fit, all of them. -/
theorem standard_entries : CodeTable.standard.entries.entries.all (fun p => entryFits p.2) = true := by
  decide +kernel

/-- The standard table has as many operands for each opcode as it takes, each of its kind. -/
theorem standard_find? {raw : Word} {op : Opcode} {kinds : List OperandKind}
    (h : CodeTable.standard.find? raw = some (.instruction op kinds)) :
    kinds.length = op.arity ∧ Directed op kinds = true := by
  have hfits := List.all_eq_true.1 standard_entries _ (OrdMap.mem_entries.2 h)
  simpa [entryFits] using hfits

/-- The standard table marks every target and function. -/
theorem directs_standard : CodeTable.standard.Directs := fun _ _ _ h => (standard_find? h).2

/-- A new entry is found under its raw opcode, the others where they were. -/
theorem find?_insert (t : CodeTable) (raw raw' : Word) (e : CodeEntry) :
    (t.insert raw e).find? raw' = if raw' = raw then some e else t.find? raw' := by
  simp [find?, insert]

/-- Redirects do not change what a table says of instructions. -/
theorem Directs.addRedirect {t : CodeTable} (h : t.Directs) (raw : Word) (r : Redirect) :
    (t.addRedirect raw r).Directs := by
  intro raw' op kinds hfind
  rw [CodeTable.addRedirect, find?_insert] at hfind
  split at hfind
  · cases hfind
  · exact h raw' op kinds hfind

/-- The table operations see to it that instructions have as many operands as they take. -/
theorem Made.exact {t : CodeTable} (h : t.Made) : t.Exact := by
  induction h with
  | empty => intro raw op kinds h; cases h
  | standard => exact fun _ _ _ h => (standard_find? h).1
  | @addInstruction t t' raw op kinds _ ht ih =>
    intro raw' op' kinds' hfind
    unfold addInstruction? at ht
    split at ht
    · rename_i hlen
      cases ht
      rw [find?_insert] at hfind
      split at hfind
      · cases hfind
        exact hlen
      · exact ih raw' op' kinds' hfind
    · cases ht
  | @addRedirect t _ raw r ih =>
    intro raw' op kinds hfind
    rw [CodeTable.addRedirect, find?_insert] at hfind
    split at hfind
    · cases hfind
    · exact ih raw' op kinds hfind
  | @erase t _ raw ih =>
    intro raw' op kinds hfind
    rw [CodeTable.erase, find?, OrdMap.find?_erase] at hfind
    split at hfind
    · cases hfind
    · exact ih raw' op kinds hfind

end CodeTable

/-- The operand of an instruction that is a place of the code. -/
def Opcode.target? : Opcode → Option Nat
  | .jump | .jumpTrue | .jumpZero => some 0
  | .jumpEqual => some 1
  | _ => none

/-- Whether an instruction calls a function of its module. -/
def Opcode.calls (op : Opcode) : Prop := op = .call ∨ op = .callDiscard

namespace Decoded

/-- The cells of a row of instructions. -/
def spellCells (is : List (Opcode × List Cell)) : List Cell :=
  is.flatMap fun i => .word i.1.number :: i.2

theorem spellCells_append (is js : List (Opcode × List Cell)) :
    spellCells (is ++ js) = spellCells is ++ spellCells js := by
  simp [spellCells]

/-- Operands as many as the instruction takes, with a place where it jumps to and a function of the
unit where it calls. -/
structure Fitting (functions : Nat) (i : Opcode × List Cell) : Prop where
  arity : i.2.length = i.1.arity
  target : ∀ k, i.1.target? = some k → ∃ o, i.2[k]? = some (.place o)
  call : i.1.calls → ∃ w, i.2[0]? = some (.word w) ∧ w.toNat < functions

/-- The cells are a row of whole instructions. -/
def Whole (functions : Nat) (cells : List Cell) : Prop :=
  ∃ is, cells = spellCells is ∧ ∀ i ∈ is, Fitting functions i

/-- No cells are whole instructions. -/
theorem Whole.nil {functions : Nat} : Whole functions [] := ⟨[], rfl, by simp⟩

/-- Whole instructions one after another. -/
theorem Whole.append {functions : Nat} {cs ds : List Cell} (h : Whole functions cs)
    (h' : Whole functions ds) : Whole functions (cs ++ ds) := by
  obtain ⟨is, rfl, his⟩ := h
  obtain ⟨js, rfl, hjs⟩ := h'
  refine ⟨is ++ js, by simp [spellCells], fun i hi => ?_⟩
  rcases List.mem_append.1 hi with hi | hi
  · exact his i hi
  · exact hjs i hi

/-- Whole instructions for each element. -/
theorem Whole.flatMap {α : Type} {functions : Nat} {f : α → List Cell} {xs : List α}
    (h : ∀ x ∈ xs, Whole functions (f x)) : Whole functions (xs.flatMap f) := by
  induction xs with
  | nil => exact .nil
  | cons x xs ih =>
    rw [List.flatMap_cons]
    exact (h x List.mem_cons_self).append (ih fun y hy => h y (List.mem_cons_of_mem _ hy))

/-- One instruction that neither jumps nor calls. -/
theorem Whole.plain {functions : Nat} {op : Opcode} {cells : List Cell}
    (harity : cells.length = op.arity) (htarget : op.target? = none) (hcall : ¬ op.calls) :
    Whole functions (.word op.number :: cells) := by
  refine ⟨[(op, cells)], by simp [spellCells], fun i hi => ?_⟩
  rw [List.mem_singleton.1 hi]
  exact ⟨harity, fun k hk => by simp [htarget] at hk, fun hc => absurd hc hcall⟩

/-- A pushed word is a whole instruction. -/
theorem whole_push (functions : Nat) (w : Word) : Whole functions (push w) :=
  .plain rfl rfl (by simp [Opcode.calls])

/-- A redirected call is made of whole instructions. -/
theorem whole_callCells (functions : Nat) (r : Redirect) (operands : List Word) :
    Whole functions (callCells r operands) := by
  refine .append (.append (.flatMap fun w _ => whole_push functions w)
    (.flatMap fun w _ => whole_push functions w)) ?_
  exact .plain rfl rfl (by simp [Opcode.calls])

/-- A trap is made of whole instructions. -/
theorem whole_trapCells (functions : Nat) (raw : Word) : Whole functions (trapCells raw) :=
  .plain rfl rfl (by simp [Opcode.calls])

open Reader

/-- Operands are as many as their kinds; a target is a place and a function is one of the unit. -/
theorem yields_readOperands (limits : Limits) (offset : Nat) (kinds : List OperandKind) :
    Yields (readOperands limits offset kinds) fun cells => cells.length = kinds.length ∧
      ∀ k : Nat, (kinds[k]? = some .target → ∃ o, cells[k]? = some (.place o)) ∧
        (kinds[k]? = some .function →
          ∃ w, cells[k]? = some (.word w) ∧ w.toNat < limits.functions) := by
  induction kinds with
  | nil => exact Yields.pure (by simp)
  | cons kind kinds ih =>
    have hcell : Yields (readOperand limits offset kind) fun c =>
        (kind = .target → ∃ o, c = .place o) ∧
          (kind = .function → ∃ w, c = .word w ∧ w.toNat < limits.functions) := by
      refine (Yields.trivial _).bind fun v _ => ?_
      cases kind with
      | literal => exact Yields.pure (by simp)
      | target => exact Yields.pure (by simp)
      | string =>
        simp only
        split
        · exact Yields.malformed _
        · exact Yields.pure (by simp)
      | function =>
        simp only
        split
        · exact Yields.malformed _
        · rename_i hlt
          exact Yields.pure ⟨by simp, fun _ => ⟨v, rfl, by omega⟩⟩
    refine hcell.bind fun c hc => ih.bind fun cells hcells => Yields.pure ?_
    refine ⟨by simp [hcells.1], fun k => ?_⟩
    cases k with
    | zero => simpa using hc
    | succ k => simpa using hcells.2 k

/-- **One raw instruction** is translated to whole instructions. -/
theorem yields_read {table : CodeTable} (hexact : table.Exact) (hdirects : table.Directs)
    (policy : UnknownPolicy) (limits : Limits) (offset : Nat) :
    Yields (read table policy limits offset) fun d => Whole limits.functions d.cells := by
  refine (Yields.trivial _).bind fun raw _ => ?_
  cases hfind : table.find? raw with
  | none =>
    cases policy with
    | trap => exact Yields.pure (whole_trapCells _ raw)
    | error => exact Yields.malformed _
  | some e =>
    cases e with
    | redirect r =>
      exact (Yields.trivial _).bind fun operands _ => Yields.pure (whole_callCells _ r operands)
    | instruction op kinds =>
      refine (yields_readOperands limits offset kinds).bind fun cells hcells => Yields.pure ?_
      have hdir := hdirects raw op kinds hfind
      refine ⟨[(op, cells)], by simp [spellCells], fun i hi => ?_⟩
      rw [List.mem_singleton.1 hi]
      refine ⟨hcells.1.trans (hexact raw op kinds hfind), fun k hk => ?_, fun hcall => ?_⟩
      · refine (hcells.2 k).1 ?_
        cases op <;> simp only [Opcode.target?, reduceCtorEq, Option.some.injEq] at hk <;>
          subst hk <;> simpa [CodeTable.Directed] using hdir
      · refine (hcells.2 0).2 ?_
        rcases hcall with rfl | rfl <;> simpa [CodeTable.Directed] using hdir

/-- What is read is made of whole instructions. -/
theorem whole_readAll {table : CodeTable} (hexact : table.Exact) (hdirects : table.Directs)
    (policy : UnknownPolicy) (limits : Limits) (fuel offset : Nat) (s : Bytes) :
    ∀ d ∈ (readAll table policy limits fuel offset s).1, Whole limits.functions d.cells := by
  induction fuel generalizing offset s with
  | zero => cases s <;> simp [readAll]
  | succ fuel ih =>
    cases s with
    | nil => simp [readAll]
    | cons b s =>
      rw [readAll]
      · split
        · simp
        · rename_i d rest hread
          intro e he
          rcases List.mem_cons.1 he with rfl | he
          · exact yields_read hexact hdirects policy limits offset _ _ _ hread
          · exact ih _ _ e he
      · simp

end Decoded

/-- A place that resolves lies between raw instructions, before the one that begins at the offset. -/
theorem Places.lookup_ofDecoded_eq_some {rawLength start : Nat} {ds : List Decoded} {o n : Nat}
    (h : (Places.ofDecoded rawLength start ds).lookup o = some n) :
    ∃ pre post, ds = pre ++ post ∧ n = start + (pre.flatMap (·.cells)).length ∧
      (post.head?.map (·.offset)).getD rawLength = o := by
  induction ds generalizing start with
  | nil =>
    rw [Places.ofDecoded, List.lookup_cons] at h
    split at h
    · rename_i heq
      cases h
      exact ⟨[], [], rfl, rfl, (beq_iff_eq.1 heq).symm⟩
    · cases h
  | cons d ds ih =>
    rw [Places.ofDecoded, List.lookup_cons] at h
    split at h
    · rename_i heq
      cases h
      exact ⟨[], d :: ds, rfl, rfl, (beq_iff_eq.1 heq).symm⟩
    · obtain ⟨pre, post, rfl, rfl, hoffset⟩ := ih h
      exact ⟨d :: pre, post, rfl, by simp; omega, hoffset⟩

/-- Operands as many as the instruction takes, with a resolved place where it jumps to and a function
of the unit where it calls. -/
structure Settled (places : Places) (functions : Nat) (i : Opcode × List Cell) : Prop where
  arity : i.2.length = i.1.arity
  target : ∀ k, i.1.target? = some k → ∃ o w, i.2[k]? = some (.word w) ∧ places.resolve o = .ok w
  call : i.1.calls → ∃ w, i.2[0]? = some (.word w) ∧ w.toNat < functions

/-- A row of cells is a row of instructions in one way only. -/
theorem Decoded.spellCells_inj {is js : List (Opcode × List Cell)}
    (his : ∀ i ∈ is, i.2.length = i.1.arity) (hjs : ∀ j ∈ js, j.2.length = j.1.arity)
    (h : Decoded.spellCells is = Decoded.spellCells js) : is = js := by
  induction is generalizing js with
  | nil =>
    cases js with
    | nil => rfl
    | cons j js => simp [spellCells] at h
  | cons i is ih =>
    cases js with
    | nil => simp [spellCells] at h
    | cons j js =>
      obtain ⟨op, cs⟩ := i
      obtain ⟨op', ds⟩ := j
      simp only [spellCells, List.flatMap_cons, List.cons_append, List.cons.injEq,
        Cell.word.injEq] at h
      have hop : op = op' := by
        have := congrArg Opcode.ofWord? h.1
        simpa using this
      subst hop
      have hlen : cs.length = ds.length :=
        (his _ List.mem_cons_self).trans (hjs _ List.mem_cons_self).symm
      obtain ⟨rfl, hrest⟩ := List.append_inj h.2 hlen
      rw [ih (fun i hi => his i (List.mem_cons_of_mem _ hi))
        (fun j hj => hjs j (List.mem_cons_of_mem _ hj)) hrest]

/-- Located, whole instructions are the same instructions. -/
theorem Decoded.Whole.settle {places : Places} {functions : Nat} {cells located : List Cell}
    (h : Decoded.Whole functions cells) (hlocate : cells.mapM (Cell.locate places) = .ok located) :
    ∃ is, located = Decoded.spellCells is ∧ ∀ i ∈ is, Settled places functions i := by
  obtain ⟨is, rfl, his⟩ := h
  induction is generalizing located with
  | nil =>
    cases hlocate
    exact ⟨[], rfl, by simp⟩
  | cons i is ih =>
    obtain ⟨op, cells⟩ := i
    rw [Decoded.spellCells, List.flatMap_cons, List.cons_append] at hlocate
    obtain ⟨first, rest, hfirst, hrest, rfl⟩ := of_mapM_cons hlocate
    cases hfirst
    obtain ⟨operands, others, hoperands, hothers, rfl⟩ := of_mapM_append hrest
    obtain ⟨js, rfl, hsettled⟩ := ih (fun j hj => his j (List.mem_cons_of_mem _ hj)) hothers
    have hfit := his (op, cells) List.mem_cons_self
    refine ⟨(op, operands) :: js, by simp [spellCells], ?_⟩
    intro j hj
    rcases List.mem_cons.1 hj with rfl | hj
    · refine ⟨?_, fun k hk => ?_, fun hcall => ?_⟩
      · simpa [length_mapM hoperands] using hfit.arity
      · obtain ⟨o, ho⟩ := hfit.target k hk
        obtain ⟨c, hc, hloc⟩ := getElem?_mapM hoperands ho
        cases hres : places.resolve o with
        | error e => simp [Cell.locate, hres, Except.map] at hloc
        | ok w =>
          simp only [Cell.locate, hres, Except.map, Except.ok.injEq] at hloc
          exact ⟨o, w, hloc ▸ hc, hres⟩
      · obtain ⟨w, hw, hlt⟩ := hfit.call hcall
        obtain ⟨c, hc, hloc⟩ := getElem?_mapM hoperands hw
        cases hloc
        exact ⟨w, hc, hlt⟩
    · exact hsettled j hj

namespace Module

/-- Instructions with their strings filled in. -/
def linkAll (strings : List Word) (is : List (Opcode × List Cell)) : List Instruction :=
  is.map fun i => (i.1, i.2.map (Cell.link strings))

/-- Linked cells spell the linked instructions. -/
theorem map_link_spellCells (strings : List Word) (is : List (Opcode × List Cell)) :
    (Decoded.spellCells is).map (Cell.link strings) = spell (linkAll strings is) := by
  induction is with
  | nil => rfl
  | cons i is ih =>
    rw [Decoded.spellCells, List.flatMap_cons, List.map_append, ← Decoded.spellCells, ih]
    simp [linkAll, spell, Cell.link]

/-- **A located unit** is a row of whole instructions, and its places are between them: where a jump
leads, where a function begins and where a script begins. -/
structure Located.Sound (l : Located) (is : List (Opcode × List Cell)) (places : Places) : Prop where
  cells : l.cells = Decoded.spellCells is
  settled : ∀ i ∈ is, Settled places l.unit.functions.length i
  between : ∀ o w, places.resolve o = .ok w →
    ∃ pre post, is = pre ++ post ∧ w = UInt32.ofNat (Decoded.spellCells pre).length
  function : ∀ f ∈ l.unit.functions, ∃ o, places.resolve o = .ok f.entry
  script : ∀ s ∈ l.unit.scripts, ∃ o, places.resolve o = .ok s.entry

/-- What was located is sound. -/
theorem sound_of_locate {unit : Bytecode} {table : CodeTable} {policy : UnknownPolicy} {l : Located}
    (hexact : table.Exact) (hdirects : table.Directs) (h : locate unit table policy = .ok l) :
    ∃ is places, l.Sound is places := by
  unfold locate at h
  cases hdecode : unit.decode table policy with
  | mk ds stop =>
  rw [hdecode] at h
  cases stop with
  | some e => cases h
  | none =>
  obtain ⟨cells, hcells, h⟩ := bind_eq_ok h
  obtain ⟨functions, hfunctions, h⟩ := bind_eq_ok h
  obtain ⟨scripts, hscripts, h⟩ := bind_eq_ok h
  cases h
  have hwhole : ∀ d ∈ ds, Decoded.Whole functions.length d.cells := by
    have := Decoded.whole_readAll hexact hdirects policy
      ⟨unit.strings.length, unit.functions.length⟩ unit.code.length 0 unit.code
    rw [show Decoded.readAll table policy ⟨unit.strings.length, unit.functions.length⟩
      unit.code.length 0 unit.code = (ds, none) from hdecode] at this
    rwa [length_mapM hfunctions]
  have hentry : ∀ {o : Nat} {w : Word},
      (Places.ofDecoded unit.code.length 0 ds).resolve o = .ok w →
      ∃ pre post, ds = pre ++ post ∧ w = UInt32.ofNat (pre.flatMap (·.cells)).length := by
    intro o w hres
    unfold Places.resolve at hres
    split at hres
    · rename_i n hn
      obtain ⟨pre, post, hsplit, rfl, -⟩ := Places.lookup_ofDecoded_eq_some hn
      exact ⟨pre, post, hsplit, by rw [← Except.ok.inj hres, Nat.zero_add]⟩
    · cases hres
  obtain ⟨is, rfl, his⟩ := Decoded.Whole.settle (.flatMap hwhole) hcells
  refine ⟨is, _, rfl, his, fun o w hres => ?_, fun f hf => ?_, fun s hs => ?_⟩
  · -- the instructions can be cut wherever the raw code can
    obtain ⟨pre, post, rfl, rfl⟩ := hentry hres
    rw [List.flatMap_append] at hcells
    obtain ⟨left, right, hleft, hright, hsplit⟩ := of_mapM_append hcells
    obtain ⟨js, rfl, hjs⟩ := Decoded.Whole.settle
      (.flatMap fun d hd => hwhole d (List.mem_append_left _ hd)) hleft
    obtain ⟨ks, rfl, hks⟩ := Decoded.Whole.settle
      (.flatMap fun d hd => hwhole d (List.mem_append_right _ hd)) hright
    refine ⟨js, ks, ?_, by rw [length_mapM hleft]⟩
    refine Decoded.spellCells_inj (fun i hi => (his i hi).arity) (fun j hj => ?_) ?_
    · rcases List.mem_append.1 hj with hj | hj
      · exact (hjs j hj).arity
      · exact (hks j hj).arity
    · rw [hsplit, Decoded.spellCells_append]
  · obtain ⟨g, -, hg⟩ := exists_of_mem_mapM hfunctions hf
    obtain ⟨w, hw, heq⟩ := bind_eq_ok hg
    cases heq
    exact ⟨_, hw⟩
  · obtain ⟨g, -, hg⟩ := exists_of_mem_mapM hscripts hs
    obtain ⟨w, hw, heq⟩ := bind_eq_ok hg
    cases heq
    exact ⟨_, hw⟩

/-- Jump targets, entries and calls of a module lead to where instructions begin. -/
structure Placed (m : Module) : Prop where
  /-- At a place of the walk stands an instruction, or the code ends. -/
  fetch : ∀ p, Starts m.code p → (∃ op ws, fetchAt m.code p = .ok (op, ws)) ∨ p = m.code.size
  target : ∀ p op ws, Starts m.code p → fetchAt m.code p = .ok (op, ws) →
    ∀ k, op.target? = some k → Starts m.code (ws[k]?.getD 0).toNat
  call : ∀ p op ws, Starts m.code p → fetchAt m.code p = .ok (op, ws) → op.calls →
    (ws[0]?.getD 0).toNat < m.functions.size
  function : ∀ f ∈ m.functions, Starts m.code f.entry.toNat
  script : ∀ s ∈ m.scripts, Starts m.code s.entry.toNat

variable {name name' : ModuleName} {data : Bytes} {table : CodeTable} {policy : UnknownPolicy}
  {t t' u u' : StringTable} {m m' : Module}

/-- The code of a linked unit is its instructions. -/
theorem Located.Sound.spells {l : Located} {is : List (Opcode × List Cell)} {places : Places}
    (h : l.Sound is places) (name : ModuleName) (t : StringTable) :
    Spells (link name l t).1.code (linkAll (link name l t).1.strings is) := by
  refine ⟨?_, fun i hi => ?_⟩
  · rw [← map_link_spellCells, ← h.cells]
    rfl
  · obtain ⟨j, hj, rfl⟩ := List.mem_map.1 hi
    simpa using (h.settled j hj).arity

/-- A resolved place is a place of the walk. -/
theorem Located.Sound.starts {l : Located} {is : List (Opcode × List Cell)} {places : Places}
    (h : l.Sound is places) (hsize : (link name l t).1.code.size ≤ UInt32.size) {o : Nat} {w : Word}
    (hw : places.resolve o = .ok w) : Starts (link name l t).1.code w.toNat := by
  obtain ⟨pre, post, rfl, rfl⟩ := h.between o w hw
  have hspells := h.spells name t
  have hsplit : linkAll (link name l t).1.strings (pre ++ post) =
      linkAll (link name l t).1.strings pre ++ linkAll (link name l t).1.strings post :=
    List.map_append
  have hstart := hspells.starts hsplit
  have hlen := congrArg List.length (map_link_spellCells (link name l t).1.strings pre)
  rw [List.length_map] at hlen
  have hle : (Decoded.spellCells pre).length ≤ (link name l t).1.code.size := by
    rw [hlen, hspells.size, hsplit, spell_append, List.length_append]
    exact Nat.le_add_right ..
  have hsize : (link name l t).1.code.size ≤ 4294967296 := hsize
  rw [UInt32.toNat_ofNat']
  by_cases hlast : (Decoded.spellCells pre).length = 4294967296
  · rw [hlast]
    exact .first
  · rw [Nat.mod_eq_of_lt (by omega), hlen]
    exact hstart

/-- **Loading.**  A module loaded with a table that marks targets and functions is placed, as long as
a word can name every place of its code. -/
theorem placed_of_load (hexact : table.Exact) (hdirects : table.Directs)
    (h : load name data table policy t = .ok (m, t')) (hsize : m.code.size ≤ UInt32.size) :
    m.Placed := by
  obtain ⟨unit, -, h⟩ := bind_eq_ok h
  obtain ⟨l, hlocate, h⟩ := bind_eq_ok h
  obtain ⟨is, places, hsound⟩ := sound_of_locate hexact hdirects hlocate
  obtain rfl : (link name l t).1 = m := congrArg Prod.fst (Except.ok.inj h)
  have hspells := hsound.spells name t
  have hfetch : ∀ {p op ws}, Starts (link name l t).1.code p →
      fetchAt (link name l t).1.code p = .ok (op, ws) →
      ∃ cs, Settled places l.unit.functions.length (op, cs) ∧
        ws = cs.map (Cell.link (link name l t).1.strings) := by
    intro p op ws hp hf
    rcases hspells.fetchAt hp with ⟨i, hi, hfi⟩ | rfl
    · cases hf.symm.trans hfi
      obtain ⟨⟨op', cs⟩, hj, heq⟩ := List.mem_map.1 hi
      cases heq
      exact ⟨cs, hsound.settled _ hj, rfl⟩
    · rw [fetchAt_size] at hf
      cases hf
  refine ⟨fun p hp => ?_, fun p op ws hp hf k hk => ?_, fun p op ws hp hf hcall => ?_,
    fun f hf => ?_, fun s hs => ?_⟩
  · rcases hspells.fetchAt hp with ⟨⟨op, ws⟩, -, hfi⟩ | hend
    · exact .inl ⟨op, ws, hfi⟩
    · exact .inr hend
  · obtain ⟨cs, hcs, rfl⟩ := hfetch hp hf
    obtain ⟨o, w, hw, hres⟩ := hcs.target k hk
    have hw : cs[k]? = some (.word w) := hw
    rw [List.getElem?_map, hw]
    exact hsound.starts hsize hres
  · obtain ⟨cs, hcs, rfl⟩ := hfetch hp hf
    obtain ⟨w, hw, hlt⟩ := hcs.call hcall
    have hw : cs[0]? = some (.word w) := hw
    rw [List.getElem?_map, hw]
    exact hlt
  · obtain ⟨o, ho⟩ := hsound.function f (by simpa [link] using hf)
    exact hsound.starts hsize ho
  · obtain ⟨o, ho⟩ := hsound.script s (by simpa [link] using hs)
    exact hsound.starts hsize ho

/-- Two modules loaded from the same bytes are rows of the same instructions: they differ in the
numbers of their strings only. -/
theorem spells_of_load (hexact : table.Exact) (hdirects : table.Directs)
    (h : load name data table policy t = .ok (m, t'))
    (h' : load name' data table policy u = .ok (m', u')) :
    ∃ is is', Spells m.code is ∧ Spells m'.code is' ∧ is.map (·.1) = is'.map (·.1) := by
  obtain ⟨unit, hparse, h⟩ := bind_eq_ok h
  obtain ⟨l, hlocate, h⟩ := bind_eq_ok h
  obtain ⟨unit', hparse', h'⟩ := bind_eq_ok h'
  obtain ⟨l', hlocate', h'⟩ := bind_eq_ok h'
  cases hparse.symm.trans hparse'
  cases hlocate.symm.trans hlocate'
  obtain ⟨is, places, hsound⟩ := sound_of_locate hexact hdirects hlocate
  obtain rfl : (link name l t).1 = m := congrArg Prod.fst (Except.ok.inj h)
  obtain rfl : (link name' l u).1 = m' := congrArg Prod.fst (Except.ok.inj h')
  refine ⟨_, _, hsound.spells name t, hsound.spells name' u, ?_⟩
  simp [linkAll, Function.comp_def]

end Module

end ScriptMachine
