import Mathlib.Algebra.Ring.Nat
import ScriptMachine.Assembler

/-!
# What an assembler was asked for

An assembler works in byte offsets from the first request on.  A `Layout` is the plain reading of
the same requests: the instructions in the order they were asked for, and for every label and script
the number of instructions that precede it.  Nothing in it depends on how instructions are encoded.

`Layout.Draws` says that an assembler holds what a layout says, every position turned into the byte
offset of its instruction.  Every request keeps the two in step (`Draws.apply`), so an assembler that
carried out a list of requests holds what their layout says (`draws_assemble`).
-/

namespace ScriptMachine.Assembler

/-- A request to an assembler. -/
inductive Statement where
  | vars (regs arrs : Word)
  | string (s : Bytes)
  | script (s : Script)
  | label
  | bind (l : Label)
  | function (params regs arrs : Word)
  /-- The body of a function begins here. -/
  | body (f : Word)
  | raw (op : Word) (operands : List Word)
  | op (o : Opcode) (operands : List Word)
  | jump (o : Opcode) (literals : List Word) (l : Label)
  | pushString (s : Bytes)
deriving DecidableEq

/-- Carries out a request. -/
def Statement.apply (a : Assembler) : Statement → Assembler
  | .vars regs arrs => a.moduleVars regs arrs
  | .string s => (a.string s).2
  | .script s => a.script s
  | .label => a.newLabel.2
  | .bind l => a.bind l
  | .function params regs arrs => (a.declareFunction params regs arrs).2
  | .body f => a.beginFunction f
  | .raw code operands => a.raw code operands
  | .op o operands => a.op o operands
  | .jump o literals l => a.jump o literals l
  | .pushString s => a.pushString s

/-- The assembler after a list of requests. -/
def assemble (p : List Statement) : Assembler := p.foldl Statement.apply {}

/-- An instruction as it was asked for. -/
inductive Item where
  | raw (op : Word) (operands : List Word)
  | jump (o : Opcode) (literals : List Word) (l : Label)
deriving DecidableEq

/-- The requests so far, with positions counted in instructions. -/
structure Layout where
  regCount : Word := 0
  arrCount : Word := 0
  strings : List Bytes := []
  functions : List FunctionDecl := []
  /-- Each script with the number of instructions before it. -/
  scripts : List (Script × Nat) := []
  items : List Item := []
  /-- The number of instructions before each label, where it was put last. -/
  labels : List (Option Nat) := []
deriving DecidableEq

namespace Layout

/-- The layout with a string constant, which is added if it is not there. -/
def pool (l : Layout) (s : Bytes) : Layout :=
  if s ∈ l.strings then l else { l with strings := l.strings ++ [s] }

/-- The layout with a label put here. -/
def put (l : Layout) (x : Label) : Layout :=
  { l with labels := l.labels.set x (some l.items.length) }

/-- The layout with one more instruction. -/
def add (l : Layout) (i : Item) : Layout := { l with items := l.items ++ [i] }

/-- The layout after one more request. -/
def apply (l : Layout) : Statement → Layout
  | .vars regs arrs => { l with regCount := regs, arrCount := arrs }
  | .string s => l.pool s
  | .script s =>
    let l := match s.name with
      | .number _ => l
      | .text t => l.pool (Utf8.encode t)
    { l with scripts := l.scripts ++ [(s, l.items.length)] }
  | .label => { l with labels := l.labels ++ [none] }
  | .bind x => l.put x
  | .function params regs arrs =>
    { l with
      labels := l.labels ++ [none]
      functions := l.functions ++
        [{ paramCount := params, regCount := max regs params, arrCount := arrs,
           entry := l.labels.length }] }
  | .body f =>
    match l.functions[f.toNat]? with
    | some d => l.put d.entry
    | none => l
  | .raw op operands => l.add (.raw op operands)
  | .op o operands => l.add (.raw o.number operands)
  | .jump o literals x => l.add (.jump o literals x)
  | .pushString s =>
    let l := l.pool s
    l.add (.raw CodeTable.pushString [UInt32.ofNat (l.strings.idxOf s)])

/-- The layout of a list of requests. -/
def ofStatements (p : List Statement) : Layout := p.foldl apply {}

end Layout

/-- The bytes of an instruction before the operand that names a label. -/
def Item.head : Item → Bytes
  | raw op operands => (op :: operands).flatMap Varint.writeWord
  | jump o literals _ => (o.number :: literals).flatMap Varint.writeWord

/-- The stretches of raw code of an instruction. -/
def Item.pieces : Item → List Piece
  | i@(raw _ _) => [.bytes i.head]
  | i@(jump _ _ l) => [.bytes i.head, .target l]

/-- How many bytes an instruction takes. -/
def Item.size : Item → Nat
  | i@(raw _ _) => i.head.length
  | i@(jump _ _ _) => i.head.length + labelWidth

/-- The sum of the lengths of the first `k` of some instructions. -/
def span (length : Item → Nat) (items : List Item) (k : Nat) : Nat := ((items.take k).map length).sum

/-- The span up to an item does not depend on what comes behind. -/
theorem span_append_left {length : Item → Nat} {items more : List Item} {k : Nat}
    (h : k ≤ items.length) : span length (items ++ more) k = span length items k := by
  rw [span, span, List.take_append_of_le_length h]

/-- One more item makes the span longer by its length. -/
theorem span_length_add (length : Item → Nat) (items : List Item) (i : Item) :
    span length (items ++ [i]) (items ++ [i]).length = span length items items.length + length i := by
  rw [span, span, List.take_length, List.take_length, List.map_append, List.sum_append_nat]
  simp

theorem span_cons_succ (length : Item → Nat) (i : Item) (items : List Item) (k : Nat) :
    span length (i :: items) (k + 1) = length i + span length items k := by
  simp [span]

namespace Layout

/-- The assembler holds what the layout says, in byte offsets. -/
structure Draws (l : Layout) (a : Assembler) : Prop where
  regs : a.regCount = l.regCount
  arrs : a.arrCount = l.arrCount
  strings : a.strings.toList = l.strings
  functions : a.functions.toList = l.functions
  params : ∀ f ∈ l.functions, f.paramCount ≤ f.regCount
  scripts : a.scripts.toList =
    l.scripts.map fun p => { p.1 with entry := UInt32.ofNat (span Item.size l.items p.2) }
  script_le : ∀ p ∈ l.scripts, p.2 ≤ l.items.length
  names : ∀ p ∈ l.scripts, ∀ x, p.1.name = .text x → Utf8.encode x ∈ l.strings
  pieces : a.pieces.toList = l.items.flatMap Item.pieces
  length : a.length = span Item.size l.items l.items.length
  labels : a.labels.toList = l.labels.map (Option.map (span Item.size l.items))
  label_le : ∀ k, some k ∈ l.labels → k ≤ l.items.length

variable {l : Layout} {a : Assembler}

/-- Where the assembler finds a string constant. -/
theorem Draws.findIdx? (h : Draws l a) (s : Bytes) : a.strings.findIdx? (· == s) =
    if s ∈ l.strings then some (l.strings.idxOf s) else none := by
  rw [show a.strings = l.strings.toArray by rw [← h.strings], List.findIdx?_toArray]
  by_cases hs : s ∈ l.strings
  · have hlt : l.strings.findIdx (· == s) < l.strings.length :=
      List.findIdx_lt_length_of_exists ⟨s, hs, by simp⟩
    rw [if_pos hs, List.findIdx?_eq_guard_findIdx_lt]
    simp [Option.guard, hlt, List.idxOf]
  · rw [if_neg hs, List.findIdx?_eq_none_iff]
    intro x hx
    simp only [beq_eq_false_iff_ne]
    rintro rfl
    exact hs hx

/-- The index that pooling a string answers. -/
theorem Draws.string_fst (h : Draws l a) (s : Bytes) :
    (a.string s).1 = UInt32.ofNat ((l.pool s).strings.idxOf s) := by
  unfold Assembler.string pool
  rw [h.findIdx?]
  by_cases hs : s ∈ l.strings
  · simp only [if_pos hs]
  · simp only [List.idxOf_append, if_neg hs]
    simp [← h.strings]

theorem Draws.string (h : Draws l a) (s : Bytes) : Draws (l.pool s) (a.string s).2 := by
  unfold Assembler.string pool
  rw [h.findIdx?]
  by_cases hs : s ∈ l.strings
  · simp only [if_pos hs]
    exact h
  · simp only [if_neg hs]
    exact { h with
      strings := by simp [h.strings]
      names := fun p hp x hx => List.mem_append_left _ (h.names p hp x hx) }

/-- A label put here has the offset of the next instruction. -/
theorem Draws.put (h : Draws l a) (x : Label) : Draws (l.put x) (a.bind x) :=
  { h with
    labels := by
      simp only [Assembler.bind, Layout.put, Array.toList_setIfInBounds, h.labels, List.map_set,
        h.length, Option.map_some]
    label_le := by
      intro k hk
      rcases List.mem_or_eq_of_mem_set hk with hk | hk
      · exact h.label_le k hk
      · cases hk
        exact Nat.le_refl _ }

/-- One more instruction leaves every earlier position at its offset. -/
theorem Draws.add (h : Draws l a) {i : Item} {b : Assembler}
    (hb : b = { a with pieces := b.pieces, length := a.length + i.size })
    (hpieces : b.pieces.toList = a.pieces.toList ++ i.pieces) : Draws (l.add i) b := by
  rw [hb]
  refine
    { h with
      scripts := ?_
      script_le := ?_
      pieces := ?_
      length := ?_
      labels := ?_
      label_le := ?_ }
  · simp only [Layout.add, h.scripts]
    refine List.map_congr_left fun p hp => ?_
    rw [span_append_left (h.script_le p hp)]
  · intro p hp
    have := h.script_le p hp
    simp only [Layout.add, List.length_append]
    omega
  · simp [Layout.add, hpieces, h.pieces]
  · simp only [Layout.add, span_length_add, h.length]
  · simp only [Layout.add, h.labels]
    refine List.map_congr_left fun k hk => ?_
    cases k with
    | none => rfl
    | some k => rw [Option.map_some, Option.map_some, span_append_left (h.label_le k hk)]
  · intro k hk
    have := h.label_le k hk
    simp only [Layout.add, List.length_append]
    omega

theorem Draws.raw (h : Draws l a) (op : Word) (operands : List Word) :
    Draws (l.add (.raw op operands)) (a.raw op operands) :=
  h.add rfl (by simp [Assembler.raw, Assembler.emit, Item.pieces, Item.head])

theorem Draws.jump (h : Draws l a) (o : Opcode) (literals : List Word) (x : Label) :
    Draws (l.add (.jump o literals x)) (a.jump o literals x) := by
  refine h.add ?_ ?_
  · simp only [Assembler.jump, Assembler.op, Assembler.raw, Assembler.emit, Item.size, Item.head,
      Nat.add_assoc]
  · simp [Assembler.jump, Assembler.op, Assembler.raw, Assembler.emit, Item.pieces, Item.head]

/-- A script that begins here has the offset of the next instruction. -/
theorem Draws.begin (h : Draws l a) {s : Script}
    (hname : ∀ x, s.name = .text x → Utf8.encode x ∈ l.strings) :
    Draws { l with scripts := l.scripts ++ [(s, l.items.length)] }
      { a with scripts := a.scripts.push { s with entry := UInt32.ofNat a.length } } :=
  { h with
    scripts := by simp [h.scripts, h.length]
    script_le := by
      intro p hp
      rcases List.mem_append.1 hp with hp | hp
      · exact h.script_le p hp
      · exact Nat.le_of_eq (by rw [List.mem_singleton.1 hp])
    names := by
      intro p hp
      rcases List.mem_append.1 hp with hp | hp
      · exact h.names p hp
      · rw [List.mem_singleton.1 hp]
        exact hname }

/-- A pooled string is in the pool. -/
theorem mem_pool (l : Layout) (s : Bytes) : s ∈ (l.pool s).strings := by
  unfold pool
  split
  · assumption
  · simp

theorem Draws.script (h : Draws l a) (s : Script) :
    Draws (l.apply (.script s)) (a.script s) := by
  cases hname : s.name with
  | number n =>
    simp only [Layout.apply, Assembler.script, hname]
    have hnew : ∀ x, s.name = .text x → Utf8.encode x ∈ l.strings := by
      intro x hx
      cases hname.symm.trans hx
    simpa only [hname] using h.begin hnew
  | text t =>
    simp only [Layout.apply, Assembler.script, hname]
    have hnew : ∀ x, s.name = .text x → Utf8.encode x ∈ (l.pool (Utf8.encode t)).strings := by
      intro x hx
      cases hname.symm.trans hx
      exact mem_pool l _
    simpa only [hname] using (h.string (Utf8.encode t)).begin hnew

theorem Draws.label (h : Draws l a) : Draws { l with labels := l.labels ++ [none] } a.newLabel.2 :=
  { h with
    labels := by simp [newLabel, h.labels]
    label_le := by
      intro k hk
      rcases List.mem_append.1 hk with hk | hk
      · exact h.label_le k hk
      · simp at hk }

theorem Draws.function (h : Draws l a) (params regs arrs : Word) :
    Draws (l.apply (.function params regs arrs)) (a.declareFunction params regs arrs).2 :=
  { h.label with
    functions := by
      have hsize : a.labels.size = l.labels.length := by
        simpa using congrArg List.length h.labels
      simp [declareFunction, newLabel, h.functions, hsize, apply]
    params := by
      intro f hf
      rcases List.mem_append.1 hf with hf | hf
      · exact h.params f hf
      · rw [List.mem_singleton.1 hf]
        simp only [Max.max]
        split
        · exact UInt32.le_refl _
        · rename_i hle
          exact UInt32.le_of_lt (UInt32.not_le.1 hle) }

theorem Draws.body (h : Draws l a) (f : Word) : Draws (l.apply (.body f)) (a.beginFunction f) := by
  have hget : a.functions[f.toNat]? = l.functions[f.toNat]? := by
    rw [← h.functions, Array.getElem?_toList]
  simp only [Layout.apply, beginFunction, hget]
  cases l.functions[f.toNat]? with
  | none => exact h
  | some d => exact h.put d.entry

/-- Every request keeps assembler and layout in step. -/
theorem Draws.apply (h : Draws l a) (s : Statement) : Draws (l.apply s) (s.apply a) := by
  cases s with
  | vars regs arrs => exact { h with regs := rfl, arrs := rfl }
  | string s => exact h.string s
  | script s => exact h.script s
  | label => exact h.label
  | bind x => exact h.put x
  | function params regs arrs => exact h.function params regs arrs
  | body f => exact h.body f
  | raw op operands => exact h.raw op operands
  | op o operands => exact h.raw o.number operands
  | jump o literals x => exact h.jump o literals x
  | pushString s =>
    have hraw := (h.string s).raw CodeTable.pushString [(a.string s).1]
    rw [h.string_fst s] at hraw
    simpa only [Layout.apply, Statement.apply, Assembler.pushString, h.string_fst s] using hraw

/-- A whole program keeps the assembler in step with the layout. -/
theorem Draws.foldl (h : Draws l a) (p : List Statement) :
    Draws (p.foldl Layout.apply l) (p.foldl Statement.apply a) := by
  induction p generalizing l a with
  | nil => exact h
  | cons s p ih => exact ih (h.apply s)

/-- **An assembler holds what it was asked for.** -/
theorem draws_assemble (p : List Statement) : Draws (ofStatements p) (assemble p) := by
  refine Draws.foldl ?_ p
  constructor <;> simp [span]

end Layout

end ScriptMachine.Assembler
