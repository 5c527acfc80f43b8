import Mathlib.Data.List.Forall2
import ScriptMachine.Module.Listing
import ScriptMachine.Proofs.Module.Origin
import ScriptMachine.Proofs.Module.Translation

/-!
# What the loader accepts

The raw code of a unit is a row of raw instructions, read one after the other through the code table
(`RawCode`).  If the loader accepts a unit, each of them is translated to a row of whole instructions
(`Translates`): a target is the place where the translation of the raw instruction at that byte offset
begins (`BeginsAt`), a string is the table index of its constant, and a function is one of the module.
So are entries of functions and scripts, parameters fit into local registers, and the listing has one line
for each instruction (`Module.load_wellFormed`).
-/

namespace ScriptMachine

open Machine (fetchAt)
open Reader

/-! ## Raw code -/

/-- A raw instruction as the code table explains it. -/
inductive RawInstruction where
  /-- An instruction of the machine, with what its operands are. -/
  | known (op : Opcode) (operands : List (OperandKind × Word))
  /-- A call of a function. -/
  | call (r : Redirect) (operands : List Word)
  /-- An opcode without meaning. -/
  | unknown (raw : Word)

/-- The raw instruction at the front of bytes, and what comes after it. -/
inductive RawInstruction.Read (table : CodeTable) (policy : UnknownPolicy) :
    RawInstruction → Bytes → Bytes → Prop
  | known {raw : Word} {op : Opcode} {kinds : List OperandKind} {ws : List Word} {s s₁ s₂ : Bytes}
      (hraw : Varint.readWord s = .ok (raw, s₁)) (hfind : table.find? raw = some (.instruction op kinds))
      (hws : Reader.times Varint.readWord kinds.length s₁ = .ok (ws, s₂)) :
    Read table policy (.known op (kinds.zip ws)) s s₂
  | call {raw : Word} {r : Redirect} {ws : List Word} {s s₁ s₂ : Bytes}
      (hraw : Varint.readWord s = .ok (raw, s₁)) (hfind : table.find? raw = some (.redirect r))
      (hws : Reader.times Varint.readWord r.inline.toNat s₁ = .ok (ws, s₂)) :
    Read table policy (.call r ws) s s₂
  | unknown {raw : Word} {s s₁ : Bytes} (hraw : Varint.readWord s = .ok (raw, s₁))
      (hfind : table.find? raw = none) (hpolicy : policy = .trap) :
    Read table policy (.unknown raw) s s₁

/-- The raw instructions of code with their byte offsets, where the first has the offset `offset`. -/
inductive RawCode (table : CodeTable) (policy : UnknownPolicy) :
    Nat → Bytes → List (Nat × RawInstruction) → Prop
  | nil (offset : Nat) : RawCode table policy offset [] []
  | cons {offset : Nat} {s rest : Bytes} {i : RawInstruction} {is : List (Nat × RawInstruction)}
      (h : i.Read table policy s rest)
      (hrest : RawCode table policy (offset + (s.length - rest.length)) rest is) :
    RawCode table policy offset s ((offset, i) :: is)

/-! ### Decoding reads raw code -/

/-- The cell of an operand. -/
def OperandKind.cell (v : Word) : OperandKind → Cell
  | literal => .word v
  | target => .place v.toNat
  | string => .constant v.toNat
  | function => .word v

/-- An operand that names something names one of the unit. -/
def OperandKind.Within (limits : Decoded.Limits) (v : Word) : OperandKind → Prop
  | string => v.toNat < limits.strings
  | function => v.toNat < limits.functions
  | _ => True

namespace RawInstruction

/-- The cells of a raw instruction. -/
def cells : RawInstruction → List Cell
  | known op operands => .word op.number :: operands.map fun p => p.1.cell p.2
  | call r operands => Decoded.callCells r operands
  | unknown raw => Decoded.trapCells raw

/-- What the operands name is there, and they are as many as the instruction takes. -/
def Within (limits : Decoded.Limits) : RawInstruction → Prop
  | known op operands => operands.length = op.arity ∧ ∀ p ∈ operands, p.1.Within limits p.2
  | _ => True

end RawInstruction

/-- If two steps of a reader succeed, the first did. -/
theorem Reader.bind_eq_ok {α β : Type} {r : Reader α} {f : α → Reader β} {s rest : Bytes} {b : β}
    (h : (r >>= f) s = .ok (b, rest)) : ∃ a s₁, r s = .ok (a, s₁) ∧ f a s₁ = .ok (b, rest) := by
  rw [bind_apply] at h
  cases hr : r s with
  | error e => simp [hr] at h
  | ok p =>
    rw [hr] at h
    exact ⟨p.1, p.2, rfl, h⟩

/-- A number takes a byte at least. -/
theorem Varint.length_readGroups_lt {range : IntRange} {left shift v n : Nat} {s rest : Bytes}
    (h : readGroups range left shift v s = .ok (n, rest)) : rest.length < s.length := by
  induction left generalizing shift v s with
  | zero => cases h
  | succ left ih =>
    rw [readGroups, bind_apply] at h
    cases s with
    | nil => cases h
    | cons b s =>
      simp only [Reader.byte] at h
      split at h
      · cases h
      · split at h
        · exact Nat.lt_succ_of_lt (ih h)
        · split at h
          · cases h
          · cases h
            exact Nat.lt_succ_self _

/-- A word takes at least one byte. -/
theorem Varint.length_readWord_lt {w : Word} {s rest : Bytes} (h : readWord s = .ok (w, rest)) :
    rest.length < s.length := by
  obtain ⟨n, s₁, hn, hpure⟩ := Reader.bind_eq_ok h
  cases hpure
  exact length_readGroups_lt hn

/-- Words take bytes away. -/
theorem Varint.length_times_readWord_le {n : Nat} {ws : List Word} {s rest : Bytes}
    (h : Reader.times readWord n s = .ok (ws, rest)) : rest.length ≤ s.length := by
  induction n generalizing ws s with
  | zero =>
    cases h
    exact Nat.le_refl _
  | succ n ih =>
    obtain ⟨w, s₁, hw, h⟩ := Reader.bind_eq_ok h
    obtain ⟨ws', s₂, hws, hpure⟩ := Reader.bind_eq_ok h
    cases hpure
    exact Nat.le_trans (ih hws) (Nat.le_of_lt (length_readWord_lt hw))

/-- A raw instruction takes a byte at least. -/
theorem RawInstruction.Read.length_lt {table : CodeTable} {policy : UnknownPolicy} {i : RawInstruction}
    {s rest : Bytes} (h : i.Read table policy s rest) : rest.length < s.length := by
  cases h with
  | known hraw _ hws =>
    exact Nat.lt_of_le_of_lt (Varint.length_times_readWord_le hws) (Varint.length_readWord_lt hraw)
  | call hraw _ hws =>
    exact Nat.lt_of_le_of_lt (Varint.length_times_readWord_le hws) (Varint.length_readWord_lt hraw)
  | unknown hraw => exact Varint.length_readWord_lt hraw

namespace Decoded

variable {table : CodeTable} {policy : UnknownPolicy} {limits : Limits} {offset : Nat} {s rest : Bytes}

/-- An operand is a word within its limits. -/
theorem of_readOperand {kind : OperandKind} {c : Cell}
    (h : readOperand limits offset kind s = .ok (c, rest)) :
    ∃ w, Varint.readWord s = .ok (w, rest) ∧ c = kind.cell w ∧ kind.Within limits w := by
  obtain ⟨w, s₁, hw, h⟩ := Reader.bind_eq_ok h
  cases kind with
  | literal =>
    cases h
    exact ⟨w, hw, rfl, trivial⟩
  | target =>
    cases h
    exact ⟨w, hw, rfl, trivial⟩
  | string =>
    simp only at h
    split at h
    · cases h
    · rename_i hlt
      cases h
      exact ⟨w, hw, rfl, Nat.lt_of_not_le hlt⟩
  | function =>
    simp only at h
    split at h
    · cases h
    · rename_i hlt
      cases h
      exact ⟨w, hw, rfl, Nat.lt_of_not_le hlt⟩

/-- Operands are words, one after the other. -/
theorem of_readOperands {kinds : List OperandKind} {cs : List Cell}
    (h : readOperands limits offset kinds s = .ok (cs, rest)) :
    ∃ ws, Reader.times Varint.readWord kinds.length s = .ok (ws, rest) ∧
      ws.length = kinds.length ∧ cs = (kinds.zip ws).map (fun p => p.1.cell p.2) ∧
      ∀ p ∈ kinds.zip ws, p.1.Within limits p.2 := by
  induction kinds generalizing cs s with
  | nil =>
    cases h
    exact ⟨[], rfl, rfl, rfl, nofun⟩
  | cons kind kinds ih =>
    obtain ⟨c, s₁, hc, h⟩ := Reader.bind_eq_ok h
    obtain ⟨cs', s₂, hcs, hpure⟩ := Reader.bind_eq_ok h
    cases hpure
    obtain ⟨w, hw, rfl, hwithin⟩ := of_readOperand hc
    obtain ⟨ws, hws, hlen, rfl, hall⟩ := ih hcs
    refine ⟨w :: ws, ?_, by simp [hlen], rfl, fun p hp => ?_⟩
    · rw [List.length_cons, Reader.times, bind_apply, hw]
      simp only
      rw [bind_apply, hws]
      rfl
    · rcases List.mem_cons.1 hp with rfl | hp
      · exact hwithin
      · exact hall p hp

/-- **One raw instruction** is decoded to its cells. -/
theorem of_read (hexact : table.Exact) {d : Decoded} (h : read table policy limits offset s = .ok (d, rest)) :
    ∃ i : RawInstruction, i.Read table policy s rest ∧ i.Within limits ∧ d.offset = offset ∧
      d.cells = i.cells := by
  obtain ⟨raw, s₁, hraw, h⟩ := Reader.bind_eq_ok h
  cases hfind : table.find? raw with
  | none =>
    rw [hfind] at h
    cases policy with
    | trap =>
      cases h
      exact ⟨.unknown raw, .unknown hraw hfind rfl, trivial, rfl, rfl⟩
    | error => cases h
  | some e =>
    rw [hfind] at h
    cases e with
    | redirect r =>
      obtain ⟨ws, s₂, hws, hpure⟩ := Reader.bind_eq_ok h
      cases hpure
      exact ⟨.call r ws, .call hraw hfind hws, trivial, rfl, rfl⟩
    | instruction op kinds =>
      obtain ⟨cs, s₂, hcs, hpure⟩ := Reader.bind_eq_ok h
      cases hpure
      obtain ⟨ws, hws, hlen, rfl, hwithin⟩ := of_readOperands hcs
      refine ⟨.known op (kinds.zip ws), .known hraw hfind hws, ⟨?_, hwithin⟩, rfl, rfl⟩
      rw [List.length_zip, hlen, Nat.min_self]
      exact hexact raw op kinds hfind

/-- **Decoding** goes through the raw instructions to the last one. -/
theorem of_readAll (hexact : table.Exact) {fuel : Nat} {ds : List Decoded} (hfuel : s.length ≤ fuel)
    (h : readAll table policy limits fuel offset s = (ds, none)) :
    ∃ is, RawCode table policy offset s is ∧ (∀ p ∈ is, p.2.Within limits) ∧
      ds.map (fun d => (d.offset, d.cells)) = is.map fun p => (p.1, p.2.cells) := by
  induction fuel generalizing offset s ds with
  | zero =>
    obtain rfl : s = [] := List.eq_nil_of_length_eq_zero (Nat.le_zero.1 hfuel)
    cases h
    exact ⟨[], .nil _, nofun, rfl⟩
  | succ fuel ih =>
    cases s with
    | nil =>
      cases h
      exact ⟨[], .nil _, nofun, rfl⟩
    | cons b s =>
      rw [readAll] at h
      · split at h
        · cases h
        · rename_i d rest hread
          obtain ⟨i, hi, hwithin, hoffset, hcells⟩ := of_read hexact hread
          have hlt := hi.length_lt
          cases hrest : readAll table policy limits fuel (offset + ((b :: s).length - rest.length)) rest with
          | mk ds' stop =>
            rw [hrest] at h
            cases h
            obtain ⟨is, his, hall, hmap⟩ := ih (by simp only [List.length_cons] at hlt hfuel; omega) hrest
            refine ⟨(offset, i) :: is, .cons hi his, fun p hp => ?_, ?_⟩
            · rcases List.mem_cons.1 hp with rfl | hp
              · exact hwithin
              · exact hall p hp
            · rw [List.map_cons, List.map_cons, hmap, hoffset, hcells]
      · simp

end Decoded

/-! ## Translations -/

/-- What an operand of a raw instruction becomes, where `leads` takes byte offsets to places of the code
and `names` string constants to indices. -/
inductive Operand (leads : Nat → Nat → Prop) (names : Nat → Word → Prop) (functions : Nat) :
    OperandKind × Word → Word → Prop
  | literal (v : Word) : Operand leads names functions (.literal, v) v
  | target {v w : Word} (h : leads v.toNat w.toNat) : Operand leads names functions (.target, v) w
  | string {v w : Word} (h : names v.toNat w) : Operand leads names functions (.string, v) w
  | function {v : Word} (h : v.toNat < functions) : Operand leads names functions (.function, v) v

/-- What a raw instruction becomes. -/
inductive Translates (leads : Nat → Nat → Prop) (names : Nat → Word → Prop) (functions : Nat) :
    RawInstruction → List Instruction → Prop
  | known {op : Opcode} {operands : List (OperandKind × Word)} {ws : List Word}
      (h : List.Forall₂ (Operand leads names functions) operands ws) :
    Translates leads names functions (.known op operands) [(op, ws)]
  | call (r : Redirect) (operands : List Word) :
    Translates leads names functions (.call r operands)
      ((operands ++ r.implicit).map (fun w => (.pushLit, [w])) ++ [(.callFunc, [r.argCount, r.func])])
  | unknown (raw : Word) :
    Translates leads names functions (.unknown raw) [(.kill, [KillReason.unknownCode.number, raw])]

/-- The translation of the raw instruction at the byte offset `o` begins at the place `w`; the end of the
raw code becomes the end of the code. -/
def BeginsAt (rawLength : Nat) (raws : List (Nat × RawInstruction)) (groups : List (List Instruction))
    (o w : Nat) : Prop :=
  ∃ k ≤ raws.length, (raws[k]?.map (·.1)).getD rawLength = o ∧
    w = (spell (groups.take k).flatten).length

section Translates

variable {leads leads' : Nat → Nat → Prop} {names : Nat → Word → Prop} {functions : Nat}

/-- Translation depends on where offsets lead. -/
theorem Translates.imp (h : ∀ o w, leads o w → leads' o w) {i : RawInstruction} {is : List Instruction}
    (hi : Translates leads names functions i is) : Translates leads' names functions i is := by
  cases hi with
  | known hoperands =>
    refine .known (hoperands.imp fun p w hp => ?_)
    cases hp with
    | literal => exact .literal _
    | target hw => exact .target (h _ _ hw)
    | string hw => exact .string hw
    | function hw => exact .function hw
  | call r operands => exact .call r operands
  | unknown raw => exact .unknown raw

/-- Translations are whole instructions. -/
theorem Translates.arity {limits : Decoded.Limits} {i : RawInstruction} {is : List Instruction}
    (hi : Translates leads names functions i is) (hwithin : i.Within limits) :
    ∀ j ∈ is, j.2.length = j.1.arity := by
  cases hi with
  | known hoperands =>
    intro j hj
    rw [List.mem_singleton.1 hj]
    exact hoperands.length_eq.symm.trans hwithin.1
  | call r operands =>
    intro j hj
    rcases List.mem_append.1 hj with hj | hj
    · obtain ⟨w, -, rfl⟩ := List.mem_map.1 hj
      rfl
    · rw [List.mem_singleton.1 hj]
      rfl
  | unknown raw =>
    intro j hj
    rw [List.mem_singleton.1 hj]
    rfl

end Translates

/-- Where a step succeeds on a list, it does on each element. -/
theorem forall₂_of_mapM {ε α β : Type} {f : α → Except ε β} {xs : List α} {ys : List β}
    (h : xs.mapM f = .ok ys) : List.Forall₂ (fun x y => f x = .ok y) xs ys := by
  induction xs generalizing ys with
  | nil =>
    cases h
    exact .nil
  | cons x xs ih =>
    obtain ⟨y, zs, hy, hzs, rfl⟩ := of_mapM_cons h
    exact .cons hy (ih hzs)

/-- Where all cells are words already, there is nothing to find. -/
theorem locate_words (places : Places) (ws : List Word) :
    (ws.map Cell.word).mapM (Cell.locate places) = .ok (ws.map Cell.word) := by
  rw [List.mapM_map]
  exact mapM_eq_ok fun w _ => rfl

/-- Words are linked to themselves. -/
theorem map_link_words (strings ws : List Word) : (ws.map Cell.word).map (Cell.link strings) = ws := by
  rw [List.map_map]
  exact List.map_id _

/-- The places that byte offsets resolve to. -/
def Places.Leads (places : Places) (o n : Nat) : Prop := ∃ w, places.resolve o = .ok w ∧ w.toNat = n

section

variable {places : Places} {strings : List Word} {names : Nat → Word → Prop} {limits : Decoded.Limits}
  (hnames : ∀ k < limits.strings, names k (strings[k]?.getD 0))
include hnames

/-- A located operand is one of the instruction. -/
theorem operand_of_locate {kind : OperandKind} {v : Word} {c : Cell} (hwithin : kind.Within limits v)
    (h : (kind.cell v).locate places = .ok c) :
    Operand places.Leads names limits.functions (kind, v) (c.link strings) := by
  cases kind with
  | literal =>
    cases h
    exact .literal v
  | target =>
    cases hres : places.resolve v.toNat with
    | error e => simp [OperandKind.cell, Cell.locate, hres, Except.map] at h
    | ok w =>
      simp only [OperandKind.cell, Cell.locate, hres, Except.map, Except.ok.injEq] at h
      subst h
      exact .target ⟨w, hres, rfl⟩
  | string =>
    cases h
    exact .string (hnames _ hwithin)
  | function =>
    cases h
    exact .function hwithin

/-- **The cells of a raw instruction**, located and linked, spell its translation. -/
theorem translates_of_locate {i : RawInstruction} {cs : List Cell} (hwithin : i.Within limits)
    (h : i.cells.mapM (Cell.locate places) = .ok cs) :
    ∃ is, Translates places.Leads names limits.functions i is ∧ cs.map (Cell.link strings) = spell is := by
  cases i with
  | known op operands =>
    obtain ⟨c, cs, hc, hcs, rfl⟩ := of_mapM_cons h
    cases hc
    refine ⟨[(op, cs.map (Cell.link strings))], .known ?_, by simp [spell, Cell.link]⟩
    have hall := hwithin.2
    clear h hwithin
    induction operands generalizing cs with
    | nil =>
      cases hcs
      exact .nil
    | cons p operands ih =>
      obtain ⟨c, cs', hc, hcs', rfl⟩ := of_mapM_cons hcs
      exact .cons (operand_of_locate hnames (hall p List.mem_cons_self) hc)
        (ih cs' hcs' fun q hq => hall q (List.mem_cons_of_mem _ hq))
  | call r operands =>
    refine ⟨_, .call r operands, ?_⟩
    have hcells : (RawInstruction.call r operands).cells = (spell
        ((operands ++ r.implicit).map (fun w => (.pushLit, [w])) ++
          [(.callFunc, [r.argCount, r.func])])).map Cell.word := by
      simp [RawInstruction.cells, Decoded.callCells, spell, List.flatMap_map, List.map_flatMap]
      rfl
    rw [hcells, locate_words] at h
    cases h
    exact map_link_words strings _
  | unknown raw =>
    cases h
    exact ⟨_, .unknown raw, rfl⟩

/-- **The cells of raw code**, located and linked, spell the translations one after the other. -/
theorem exists_translations {raws : List (Nat × RawInstruction)} {cs : List Cell}
    (hwithin : ∀ p ∈ raws, p.2.Within limits)
    (h : (raws.flatMap (·.2.cells)).mapM (Cell.locate places) = .ok cs) :
    ∃ groups, List.Forall₂ (fun p is => Translates places.Leads names limits.functions p.2 is ∧
        (spell is).length = p.2.cells.length) raws groups ∧
      (∀ i ∈ groups.flatten, i.2.length = i.1.arity) ∧
      cs.map (Cell.link strings) = spell groups.flatten := by
  induction raws generalizing cs with
  | nil =>
    cases h
    exact ⟨[], .nil, nofun, rfl⟩
  | cons p raws ih =>
    rw [List.flatMap_cons] at h
    obtain ⟨cs₁, cs₂, hcs₁, hcs₂, rfl⟩ := of_mapM_append h
    obtain ⟨is, his, hspell⟩ := translates_of_locate hnames (hwithin p List.mem_cons_self) hcs₁
    obtain ⟨groups, hgroups, harity, hrest⟩ :=
      ih (fun q hq => hwithin q (List.mem_cons_of_mem _ hq)) hcs₂
    refine ⟨is :: groups, .cons ⟨his, ?_⟩ hgroups, fun i hi => ?_, ?_⟩
    · rw [← hspell, List.length_map, length_mapM hcs₁]
    · rcases List.mem_append.1 hi with hi | hi
      · exact his.arity (hwithin p List.mem_cons_self) i hi
      · exact harity i hi
    · rw [List.map_append, hspell, hrest, List.flatten_cons, spell_append]

end

/-- The words of the first translations are as many as their cells. -/
theorem length_spell_take {R : Nat × RawInstruction → List Instruction → Prop}
    {raws : List (Nat × RawInstruction)} {groups : List (List Instruction)}
    (h : List.Forall₂ (fun p is => R p is ∧ (spell is).length = p.2.cells.length) raws groups) (k : Nat) :
    (spell (groups.take k).flatten).length = ((raws.take k).flatMap (·.2.cells)).length := by
  induction h generalizing k with
  | nil => simp [spell]
  | cons hp _ ih =>
    cases k with
    | zero => rfl
    | succ k =>
      rw [List.take_succ_cons, List.take_succ_cons, List.flatten_cons, List.flatMap_cons, spell_append,
        List.length_append, List.length_append, ih k, hp.2]

/-- A byte offset that resolves is one where a raw instruction begins, or the end. -/
theorem beginsAt_of_leads {R : Nat × RawInstruction → List Instruction → Prop} {ds : List Decoded}
    {raws : List (Nat × RawInstruction)} {groups : List (List Instruction)} {rawLength o n : Nat}
    (hmap : ds.map (fun d => (d.offset, d.cells)) = raws.map fun p => (p.1, p.2.cells))
    (h : List.Forall₂ (fun p is => R p is ∧ (spell is).length = p.2.cells.length) raws groups)
    (hsize : (spell groups.flatten).length < UInt32.size)
    (ho : (Places.ofDecoded rawLength 0 ds).Leads o n) : BeginsAt rawLength raws groups o n := by
  obtain ⟨w, hw, rfl⟩ := ho
  unfold Places.resolve at hw
  split at hw
  · rename_i n hn
    obtain ⟨pre, post, rfl, rfl, hoffset⟩ := Places.lookup_ofDecoded_eq_some hn
    cases hw
    have hlength : pre.length + post.length = raws.length := by
      simpa using congrArg List.length hmap
    have hhead : (raws[pre.length]?.map (·.1)) = post.head?.map (·.offset) := by
      have hk := congrArg (fun l => l[pre.length]?.map Prod.fst) hmap
      simp only [List.getElem?_map, Option.map_map, Function.comp_def] at hk
      rw [← hk, List.getElem?_append_right (Nat.le_refl _), Nat.sub_self, List.head?_eq_getElem?]
    have hcells : (raws.take pre.length).flatMap (·.2.cells) = pre.flatMap (·.cells) := by
      have hk := congrArg (fun l => (l.take pre.length).flatMap Prod.snd) hmap
      simpa [List.flatMap_map, ← List.map_take] using hk.symm
    have hwords := length_spell_take h pre.length
    rw [hcells] at hwords
    refine ⟨pre.length, by omega, by rw [hhead, hoffset], ?_⟩
    have hle : (spell (groups.take pre.length).flatten).length ≤ (spell groups.flatten).length := by
      conv_rhs => rw [← List.take_append_drop pre.length groups, List.flatten_append, spell_append,
        List.length_append]
      exact Nat.le_add_right ..
    have hsize : (spell groups.flatten).length < 4294967296 := hsize
    rw [UInt32.toNat_ofNat', Nat.zero_add, ← hwords]
    exact Nat.mod_eq_of_lt (by omega)
  · cases hw

/-- A place where a translation begins is a place of the walk. -/
theorem BeginsAt.starts {code : Array Word} {rawLength o w : Nat} {raws : List (Nat × RawInstruction)}
    {groups : List (List Instruction)} (h : BeginsAt rawLength raws groups o w)
    (hspells : Spells code groups.flatten) : Starts code w := by
  obtain ⟨k, -, -, rfl⟩ := h
  exact hspells.starts (by rw [← List.flatten_append, List.take_append_drop])

/-! ## Units -/

/-- At the index `w` of the table lives the string constant with number `k`. -/
def Bytecode.Names (unit : Bytecode) (t : StringTable) (k : Nat) (w : Word) : Prop :=
  ∃ b, unit.strings[k]? = some b ∧ t.bytes? w = some b

/-- The indices that a unit gets for its constants lead to them. -/
theorem Bytecode.names_internLocked (unit : Bytecode) {t : StringTable} (ht : t.Wellformed)
    (hroom : (t.internLocked unit.strings).2.capacity < UInt32.size) {k : Nat}
    (hk : k < unit.strings.length) :
    unit.Names (t.internLocked unit.strings).2 k ((t.internLocked unit.strings).1[k]?.getD 0) := by
  have hfound := congrArg (fun is => is[k]?) (ht.map_find?_internLocked hroom)
  simp only [List.getElem?_map, List.getElem?_eq_getElem hk, Option.map_some] at hfound
  obtain ⟨i, hi, hfind⟩ := Option.map_eq_some_iff.1 hfound.symm
  refine ⟨unit.strings[k], List.getElem?_eq_getElem hk, ?_⟩
  have hbytes := List.find?_some hfind.symm
  rw [hi, Option.getD_some]
  exact beq_iff_eq.1 hbytes

/-- What is read of functions and scripts: parameters and arguments fit into the registers. -/
theorem Bytecode.counts_of_parse {data : Bytes} {unit : Bytecode} (h : parse data = .ok unit) :
    (∀ f ∈ unit.functions, f.paramCount ≤ f.regCount) ∧
      ∀ s ∈ unit.scripts, s.argCount ≤ s.regCount := by
  have hfunction : ∀ i, Yields (readFunction i) fun f => f.paramCount ≤ f.regCount := by
    intro i
    refine (Yields.trivial _).bind fun _ _ => (Yields.trivial _).bind fun _ _ =>
      (Yields.trivial _).bind fun _ _ => (Yields.trivial _).bind fun _ _ => ?_
    simp only
    split
    · exact (Yields.malformed (P := fun _ => False) _).bind fun _ h => h.elim
    · rename_i hle
      exact Yields.pure (UInt32.not_lt.1 hle)
  have hscript : ∀ strings, Yields (readScript strings) fun s => s.argCount ≤ s.regCount := by
    intro strings
    refine (Yields.trivial _).bind fun _ _ => (Yields.trivial _).bind fun _ _ =>
      (Yields.trivial _).bind fun _ _ => (Yields.trivial _).bind fun _ _ =>
      (Yields.trivial _).bind fun _ _ => (Yields.trivial _).bind fun _ _ =>
      (Yields.trivial _).bind fun _ _ => ?_
    simp only
    split
    · exact (Yields.malformed (P := fun _ => False) _).bind fun _ h => h.elim
    · rename_i hle
      exact Yields.pure (UInt32.not_lt.1 hle)
  have hread : Yields read fun unit => (∀ f ∈ unit.functions, f.paramCount ≤ f.regCount) ∧
      ∀ s ∈ unit.scripts, s.argCount ≤ s.regCount := by
    refine (Yields.trivial _).bind fun _ _ => (Yields.trivial _).bind fun _ _ => ?_
    simp only
    split
    · intro s a rest h
      cases h
    · refine (Yields.trivial _).bind fun _ _ => (Yields.trivial _).bind fun _ _ =>
        (Yields.trivial _).bind fun strings _ => (Yields.listFrom hfunction).bind fun functions hfunctions =>
        (Yields.list (hscript strings)).bind fun scripts hscripts =>
        (Yields.trivial _).bind fun code _ => Yields.pure ⟨fun f hf => ?_, hscripts⟩
      obtain ⟨j, hj⟩ := List.getElem?_of_mem hf
      exact hfunctions j f hj
  obtain ⟨⟨unit', rest⟩, hunit, h⟩ := bind_eq_ok h
  simp only at h
  split at h
  · cases h
    exact hread _ _ _ hunit
  · cases h

/-! ## Listings -/

/-- The line of an instruction at a place. -/
def Instruction.line (place : Nat) (i : Instruction) : String :=
  let shown := i.2.map fun a => s!" {a}"
  s!"{column 6 place}  {i.1.name}{String.join shown}\n"

/-- Instructions with the places at which they begin. -/
def withPlaces (start : Nat) : List Instruction → List (Nat × Instruction)
  | [] => []
  | i :: is => (start, i) :: withPlaces (start + 1 + i.2.length) is

namespace Module

/-- Code that is a row of whole instructions is listed line by line. -/
theorem codeLines_spell {is : List Instruction} (h : ∀ i ∈ is, i.2.length = i.1.arity) {fuel : Nat}
    (hfuel : (spell is).length ≤ fuel) (start : Nat) :
    codeLines fuel start (spell is) = (withPlaces start is).map fun p => p.2.line p.1 := by
  induction is generalizing fuel start with
  | nil => cases fuel <;> rfl
  | cons i is ih =>
    obtain ⟨op, ws⟩ := i
    have hlen : ws.length = op.arity := h (op, ws) List.mem_cons_self
    have hspell : spell ((op, ws) :: is) = op.number :: (ws ++ spell is) := by simp [spell]
    rw [hspell] at hfuel ⊢
    simp only [List.length_cons, List.length_append] at hfuel
    cases fuel with
    | zero => omega
    | succ fuel =>
      rw [codeLines, Opcode.ofWord?_number]
      simp only [← hlen, List.take_left, List.drop_left]
      rw [ih (fun j hj => h j (List.mem_cons_of_mem _ hj)) (by omega)]
      rfl

/-- The first lines of a listing: one for the module, and one for each script and function. -/
def headerLines (m : Module) : List String :=
  s!"; module {m.name.display}\n" :: m.scripts.toList.map scriptLine ++
    m.functions.toList.mapIdx functionLine

/-- The module `m` is what the raw instructions `raws` of a unit become, each of them a row of whole
instructions of `groups`, with its strings in the table `t`. -/
structure Accepted (table : CodeTable) (policy : UnknownPolicy) (unit : Bytecode) (m : Module)
    (t : StringTable) (raws : List (Nat × RawInstruction)) (groups : List (List Instruction)) : Prop where
  raw : RawCode table policy 0 unit.code raws
  translated : List.Forall₂ (fun p is => Translates (BeginsAt unit.code.length raws groups)
    (unit.Names t) m.functions.size p.2 is) raws groups
  spells : Spells m.code groups.flatten
  /-- The walk from the first word meets an instruction at every place but the end. -/
  walk : ∀ p, Starts m.code p → (∃ i ∈ groups.flatten, fetchAt m.code p = .ok i) ∨ p = m.code.size
  ends : Starts m.code m.code.size
  begins : ∀ o w, BeginsAt unit.code.length raws groups o w → Starts m.code w
  functions : List.Forall₂ (fun f g => g = { f with entry := g.entry } ∧
    BeginsAt unit.code.length raws groups f.entry.toNat g.entry.toNat) unit.functions m.functions.toList
  scripts : List.Forall₂ (fun x y => y = { x with entry := y.entry } ∧
    BeginsAt unit.code.length raws groups x.entry.toNat y.entry.toNat) unit.scripts m.scripts.toList
  params : ∀ f ∈ m.functions, f.paramCount ≤ f.regCount
  args : ∀ s ∈ m.scripts, s.argCount ≤ s.regCount
  listing : m.listing =
    String.join (m.headerLines ++ (withPlaces 0 groups.flatten).map fun p => p.2.line p.1)

variable {name : ModuleName} {data : Bytes} {table : CodeTable} {policy : UnknownPolicy}
  {t t' : StringTable} {m : Module}

/-- **What the loader accepts is well formed.**  Let the code table be made by the table operations and
the string table be well-formed, and let words be enough to number the words of the code and the strings.
Then a module that is loaded is the translation of the raw code of a unit. -/
theorem load_wellFormed (htable : table.Made) (ht : t.Wellformed)
    (h : load name data table policy t = .ok (m, t')) (hsize : m.code.size < UInt32.size)
    (hroom : t'.capacity < UInt32.size) :
    ∃ unit raws groups, Bytecode.parse data = .ok unit ∧ Accepted table policy unit m t' raws groups := by
  obtain ⟨unit, hparse, h⟩ := bind_eq_ok h
  obtain ⟨l, hlocate, h⟩ := bind_eq_ok h
  rw [link_eq] at h
  cases h
  unfold locate at hlocate
  cases hdecode : unit.decode table policy with
  | mk ds stop =>
  rw [hdecode] at hlocate
  cases stop with
  | some e => cases hlocate
  | none =>
  obtain ⟨cells, hcells, hlocate⟩ := bind_eq_ok hlocate
  obtain ⟨functions, hfunctions, hlocate⟩ := bind_eq_ok hlocate
  obtain ⟨scripts, hscripts, hlocate⟩ := bind_eq_ok hlocate
  cases hlocate
  obtain ⟨raws, hraw, hwithin, hmap⟩ := Decoded.of_readAll htable.exact (Nat.le_refl _) hdecode
  have hflat : ds.flatMap (·.cells) = raws.flatMap (·.2.cells) := by
    have hsnd := congrArg (fun l => l.flatMap Prod.snd) hmap
    simpa [List.flatMap_map] using hsnd
  rw [hflat] at hcells
  obtain ⟨groups, hgroups, harity, hwords⟩ := exists_translations
    (fun k hk => unit.names_internLocked ht hroom hk) hwithin hcells
  have hcode : (spell groups.flatten).length < UInt32.size := by
    rw [← hwords]
    simpa [Located.linkWith] using hsize
  have hbegins : ∀ o w, (Places.ofDecoded unit.code.length 0 ds).Leads o w →
      BeginsAt unit.code.length raws groups o w := fun o w => beginsAt_of_leads hmap hgroups hcode
  have hcount := length_mapM hfunctions
  have hspells : Spells (cells.map (Cell.link (t.internLocked unit.strings).1)).toArray groups.flatten :=
    ⟨hwords, harity⟩
  obtain ⟨hparams, hargs⟩ := Bytecode.counts_of_parse hparse
  refine ⟨unit, raws, groups, hparse, hraw, hgroups.imp fun p is hp => ?_, hspells, fun p hp => hspells.fetchAt hp,
    ?_, fun o w hw => hw.starts hspells, (forall₂_of_mapM hfunctions).imp fun f g hg => ?_,
    (forall₂_of_mapM hscripts).imp fun x y hy => ?_, fun g hg => ?_, fun y hy => ?_, ?_⟩
  · have himp := hp.1.imp hbegins
    rwa [← hcount] at himp
  · have hend := hspells.starts (List.append_nil _).symm
    rwa [← hspells.size] at hend
  · obtain ⟨w, hw, heq⟩ := bind_eq_ok hg
    cases heq
    exact ⟨rfl, hbegins _ _ ⟨w, hw, rfl⟩⟩
  · obtain ⟨w, hw, heq⟩ := bind_eq_ok hy
    cases heq
    exact ⟨rfl, hbegins _ _ ⟨w, hw, rfl⟩⟩
  · obtain ⟨f, hf, hlocated⟩ := exists_of_mem_mapM hfunctions (List.mem_toArray.1 hg)
    obtain ⟨w, -, heq⟩ := bind_eq_ok hlocated
    cases heq
    exact hparams f hf
  · obtain ⟨x, hx, hlocated⟩ := exists_of_mem_mapM hscripts (List.mem_toArray.1 hy)
    obtain ⟨w, -, heq⟩ := bind_eq_ok hlocated
    cases heq
    exact hargs x hx
  · rw [← codeLines_spell harity (Nat.le_of_eq hspells.size.symm), ← hspells.words]
    rfl

/-- A unit whose script pushes a string, calls a function and jumps back to its beginning.  The opcode 200
has no meaning. -/
def loopingUnit : Bytecode where
  regCount := 0
  arrCount := 0
  strings := [[97]]
  functions := [{ paramCount := 1, regCount := 1, arrCount := 0, entry := 8 }]
  scripts := [{
    name := .number 1, type := 0, flags := 0, argCount := 0, regCount := 0, arrCount := 0
    entry := 0 }]
  code := [100, 0, 66, 0, 61, 0, 128 + 72, 1, 67]

/-- The eight bytes before the function of the unit become nine words. -/
theorem load_wellFormed_looping : ∃ m t',
    load { name := "looping" } loopingUnit.write .standard .trap {} = .ok (m, t') ∧
      m.code = #[10, 0, 66, 0, 61, 0, 1, 2, 200, 67] ∧ m.functions.toList.map (·.entry) = [9] ∧
      ∃ unit raws groups, Bytecode.parse loopingUnit.write = .ok unit ∧
        Accepted .standard .trap unit m t' raws groups := by
  let loaded := load { name := "looping" } loopingUnit.write .standard .trap {}
  obtain ⟨hcode, hentry, hroom⟩ :
      loaded.toOption.map (fun p => p.1.code) = some #[10, 0, 66, 0, 61, 0, 1, 2, 200, 67] ∧
      loaded.toOption.map (fun p => p.1.functions.toList.map (·.entry)) = some [9] ∧
      loaded.toOption.map (fun p => p.2.capacity) = some 1 := by decide +kernel
  cases hload : loaded with
  | error e =>
    rw [hload] at hcode
    cases hcode
  | ok p =>
    obtain ⟨m, t'⟩ := p
    rw [hload] at hcode hentry hroom
    have hcode : m.code = #[10, 0, 66, 0, 61, 0, 1, 2, 200, 67] := by simpa [Except.toOption] using hcode
    have hroom : t'.capacity = 1 := by simpa [Except.toOption] using hroom
    have hentry : m.functions.toList.map (·.entry) = [9] := by simpa [Except.toOption] using hentry
    refine ⟨m, t', hload, hcode, hentry, load_wellFormed .standard StringTable.wellformed_empty hload ?_ ?_⟩
    · rw [hcode]
      decide
    · rw [hroom]
      decide

end Module

end ScriptMachine
