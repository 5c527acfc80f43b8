import ScriptMachine.Proofs.Assembler.Decoding
import ScriptMachine.Proofs.Codec.Sequencing
import ScriptMachine.Proofs.Module.UnitRoundTrip
import ScriptMachine.Proofs.StringTable.Interning

/-!
# Assembled units load as they were written

For a layout the standard code table admits (`Layout.Sound`), the assembler finishes, its bytes
load, and the module is the layout in words: every label stands for the word index of the first
instruction after it, and every instruction for its own translation
(`load_assemble`).
-/

namespace ScriptMachine

namespace Assembler

/-- The words of an instruction: its own number and its operands, a string constant as its table
index and a label as its word.  A call of a function pushes its operands first. -/
def Item.words (strings : List Word) (word : Label → Word) : Item → List Word
  | raw op operands =>
    match CodeTable.standard.find? op with
    | some (.instruction o kinds) =>
      o.number :: List.zipWith
        (fun k w => if k = .string then strings[w.toNat]?.getD 0 else w) kinds operands
    | some (.redirect r) =>
      (operands ++ r.implicit).flatMap (fun w => [Opcode.pushLit.number, w]) ++
        [Opcode.callFunc.number, r.argCount, r.func]
    | none => []
  | jump o literals l => o.number :: literals ++ [word l]

/-- Only the label of a jump waits for its place. -/
theorem Item.exists_of_place_mem_cells {offset : Label → Nat} {i : Item} {n : Nat}
    (h : Cell.place n ∈ i.cells offset) : ∃ x ∈ i.label?, n = offset x := by
  cases i with
  | jump o ws x =>
    refine ⟨x, rfl, ?_⟩
    simpa [Item.cells] using h
  | raw op ws =>
    exfalso
    simp only [Item.cells] at h
    split at h
    · rename_i o kinds _
      rcases List.mem_cons.1 h with h | h
      · cases h
      · obtain ⟨j, hj⟩ := List.mem_iff_getElem?.1 h
        rw [List.getElem?_zipWith] at hj
        cases hk : kinds[j]? with
        | none => simp [hk] at hj
        | some k =>
          cases hw : ws[j]? with
          | none => simp [hk, hw] at hj
          | some w =>
            rw [hk, hw] at hj
            cases k <;> cases hj
    · simp [Decoded.callCells, Decoded.push] at h
    · simp at h

/-- Placed and linked, the cells of an instruction are its words. -/
theorem Item.map_link_cells {offset : Label → Nat} {word : Label → Word} {place : Cell → Cell}
    (strings : List Word) (i : Item) (hword : ∀ w, place (.word w) = .word w)
    (hconst : ∀ k, place (.constant k) = .constant k)
    (hplace : ∀ x ∈ i.label?, place (.place (offset x)) = .word (word x)) :
    (i.cells offset).map (fun c => (place c).link strings) = i.words strings word := by
  cases i with
  | jump o ws x =>
    have hx := hplace x rfl
    simp [Item.cells, Item.words, hword, hx, Cell.link, Function.comp_def]
  | raw op ws =>
    have hlink : ∀ w, (place (.word w)).link strings = w := fun w => by rw [hword]; rfl
    simp only [Item.cells, Item.words]
    cases CodeTable.standard.find? op with
    | none => rfl
    | some e =>
      cases e with
      | instruction o kinds =>
        have hoperand : ∀ k w, (place (operandCell k w)).link strings =
            if k = .string then strings[w.toNat]?.getD 0 else w := by
          intro k w
          cases k with
          | string => rw [if_pos rfl, operandCell, hconst]; rfl
          | _ => exact hlink w
        simp only [List.map_cons, List.map_zipWith, hlink, hoperand]
      | redirect r => simp [Decoded.callCells, Decoded.push, hlink, List.map_flatMap]

namespace Layout

/-- The position of a label that was put somewhere. -/
def position (l : Layout) (x : Label) : Nat := ((l.labels[x]?).join).getD 0

/-- The byte offset of a label. -/
def offset (l : Layout) (x : Label) : Nat := span Item.size l.items (l.position x)

/-- The word index of the first instruction after a label; that of the end if none follows. -/
def wordOf (l : Layout) (x : Label) : Word := UInt32.ofNat (span Item.width l.items (l.position x))

/-- Whether a label was put somewhere. -/
def Bound (l : Layout) (x : Label) : Prop := ((l.labels[x]?).join).isSome

instance (l : Layout) (x : Label) : Decidable (l.Bound x) :=
  inferInstanceAs (Decidable (_ = true))

/-- Every instruction is one of the standard code table with as many operands as it reads there,
whatever strings they name; calls name functions of the unit; labels that are used were put
somewhere; and the code has a word for each of its offsets. -/
structure Regular (l : Layout) : Prop where
  items : ∀ i ∈ l.items, ∃ strings, i.Sound strings l.functions.length
  jumps : ∀ i ∈ l.items, ∀ x ∈ i.label?, l.Bound x
  entries : ∀ f ∈ l.functions, l.Bound f.entry
  length : span Item.size l.items l.items.length < 2 ^ 32

/-- The layout is regular, operands that name strings name strings of the unit, scripts have a
register for each argument, and the formats have room for the lists. -/
structure Sound (l : Layout) : Prop where
  items : ∀ i ∈ l.items, i.Sound l.strings.length l.functions.length
  jumps : ∀ i ∈ l.items, ∀ x ∈ i.label?, l.Bound x
  entries : ∀ f ∈ l.functions, l.Bound f.entry
  args : ∀ s ∈ l.scripts, s.1.argCount ≤ s.1.regCount
  length : span Item.size l.items l.items.length < 2 ^ 32
  strings : l.strings.length ≤ UInt32.size
  string : ∀ s ∈ l.strings, s.length < 2 ^ 64
  functions : l.functions.length < 2 ^ 64
  scripts : l.scripts.length < 2 ^ 64

variable {l : Layout} {a : Assembler}

/-- No item begins behind the last one. -/
theorem span_le (length : Item → Nat) (items : List Item) (k : Nat) :
    span length items k ≤ span length items items.length := by
  have hsplit : span length items items.length =
      span length items k + ((items.drop k).map length).sum := by
    rw [span, span, List.take_length, ← List.sum_append_nat, ← List.map_append,
      List.take_append_drop]
  omega

/-- Labels of a sound layout lie within 32 bits. -/
theorem Sound.offset_lt (h : l.Sound) (x : Label) : l.offset x < 2 ^ 32 :=
  Nat.lt_of_le_of_lt (span_le _ _ _) h.length

/-- The position of a label lies within the code. -/
theorem Draws.position_le (hd : Draws l a) {x : Label} (hx : l.Bound x) :
    l.position x ≤ l.items.length := by
  obtain ⟨k, hk⟩ := Option.isSome_iff_exists.1 hx
  rw [position, hk]
  exact hd.label_le k (List.mem_of_getElem? (Option.join_eq_some_iff.1 hk))

/-- The assembler knows the byte offset of every label that was put somewhere. -/
theorem Draws.offset_eq (hd : Draws l a) {x : Label} (hx : l.Bound x) :
    a.offset x = .ok (l.offset x) := by
  obtain ⟨k, hk⟩ := Option.isSome_iff_exists.1 hx
  have hlabel : (a.labels[x]?).join = some (span Item.size l.items k) := by
    rw [← Array.getElem?_toList, hd.labels, List.getElem?_map, Option.join_eq_some_iff.1 hk]
    rfl
  rw [Assembler.offset, hlabel]
  simp [Layout.offset, position, hk]

/-- The bytes of a piece, once the labels have their offsets. -/
def pieceBytes (l : Layout) : Piece → Bytes
  | .bytes b => b
  | .target x => Varint.padGroups labelWidth (l.offset x)

/-- The assembler writes the bytes of each piece as the layout has them. -/
theorem Draws.pieceBytes_eq (hd : Draws l a) (h : l.Sound) {p : Piece}
    (hp : p ∈ a.pieces.toList) : a.pieceBytes p = .ok (l.pieceBytes p) := by
  cases p with
  | bytes b => rfl
  | target x =>
    rw [hd.pieces] at hp
    obtain ⟨i, hi, hx⟩ := List.mem_flatMap.1 hp
    have hbound : l.Bound x := by
      cases i with
      | raw op ws => simp [Item.pieces] at hx
      | jump o ws y =>
        simp only [Item.pieces, List.mem_cons, reduceCtorEq, Piece.target.injEq, List.not_mem_nil,
          or_false, false_or] at hx
        exact h.jumps _ hi x (hx ▸ rfl)
    have hshift : l.offset x >>> (7 * labelWidth) = 0 := by
      have := h.offset_lt x
      rw [Nat.shiftRight_eq_div_pow, Nat.div_eq_zero_iff]
      simp only [labelWidth]
      omega
    have hpad : Varint.writePadded (l.offset x) labelWidth = .ok (l.pieceBytes (.target x)) := by
      rw [Varint.writePadded, hshift, if_neg (by decide)]
      rfl
    simp only [Assembler.pieceBytes, hd.offset_eq hbound, ok_bind, hpad]

/-- The unit of a layout. -/
def unit (l : Layout) : Bytecode where
  regCount := l.regCount
  arrCount := l.arrCount
  strings := l.strings
  functions := l.functions.map fun d =>
    { paramCount := d.paramCount, regCount := d.regCount, arrCount := d.arrCount,
      entry := UInt32.ofNat (l.offset d.entry) }
  scripts := l.scripts.map fun p =>
    { p.1 with entry := UInt32.ofNat (span Item.size l.items p.2) }
  code := l.items.flatMap (Item.bytes l.offset)

/-- An assembler that holds a sound layout finishes with its unit. -/
theorem Draws.unit_eq (hd : Draws l a) (h : l.Sound) : a.unit = .ok l.unit := by
  have hcode := mapM_eq_ok fun p hp => hd.pieceBytes_eq h (p := p) hp
  have hflat : (a.pieces.toList.map l.pieceBytes).flatten = l.items.flatMap (Item.bytes l.offset) := by
    rw [hd.pieces, ← List.flatMap_def, List.flatMap_assoc]
    congr 1
    funext i
    cases i <;> simp [Item.pieces, Item.bytes, pieceBytes]
  have hfunctions : a.functions.toList.mapM (fun d => do
      pure { paramCount := d.paramCount, regCount := d.regCount, arrCount := d.arrCount,
             entry := UInt32.ofNat (← a.offset d.entry) : Function }) = .ok l.unit.functions := by
    rw [hd.functions]
    refine mapM_eq_ok fun d hd' => ?_
    rw [hd.offset_eq (h.entries d hd')]
    rfl
  unfold Assembler.unit
  rw [hcode, ok_bind, hfunctions, ok_bind, hflat, hd.regs, hd.arrs, hd.strings, hd.scripts]
  rfl

/-- The code is as long as its items are. -/
theorem length_code (h : l.Sound) :
    l.unit.code.length = span Item.size l.items l.items.length := by
  have hlen : ∀ i : Item, (i.bytes l.offset).length = i.size := fun i =>
    Item.length_bytes fun x _ => by
      have := h.offset_lt x
      omega
  simp only [unit, span, List.take_length, List.length_flatMap, hlen]

/-- The unit of a sound layout respects the format. -/
theorem Draws.writable (hd : Draws l a) (h : l.Sound) : l.unit.Writable where
  strings := by
    have : l.strings.length ≤ 4294967296 := h.strings
    simp only [unit]
    omega
  string := h.string
  functions := by simpa [unit] using h.functions
  params := by
    intro f hf
    obtain ⟨d, hmem, rfl⟩ := List.mem_map.1 hf
    exact hd.params d hmem
  scripts := by simpa [unit] using h.scripts
  args := by
    intro s hs
    obtain ⟨p, hp, rfl⟩ := List.mem_map.1 hs
    exact h.args p hp
  names := by
    intro s hs
    obtain ⟨p, hp, rfl⟩ := List.mem_map.1 hs
    exact hd.names p hp
  code := by
    rw [length_code h]
    have := h.length
    omega

/-- The places of a layout's instructions. -/
def places (l : Layout) : Places :=
  Places.ofDecoded l.unit.code.length 0 (decodedFrom l.offset 0 l.items)

/-- The byte offset of every position resolves to its word index. -/
theorem resolve_places (h : l.Sound) {k : Nat} (hk : k ≤ l.items.length) :
    l.places.resolve (span Item.size l.items k) =
      .ok (UInt32.ofNat (span Item.width l.items k)) := by
  have hraw : l.unit.code.length = 0 + span Item.size l.items l.items.length := by
    rw [length_code h, Nat.zero_add]
  have hlookup := lookup_ofDecoded l.offset 0 hraw hk
  rw [Nat.zero_add, Nat.zero_add] at hlookup
  rw [Places.resolve, places, hlookup]

/-- The offset of a bound label resolves to the word it stands at. -/
theorem Draws.resolve_offset (hd : Draws l a) (h : l.Sound) {x : Label} (hx : l.Bound x) :
    l.places.resolve (l.offset x) = .ok (l.wordOf x) :=
  resolve_places h (hd.position_le hx)

/-- The cell of a layout with its label in place. -/
def placed (l : Layout) : Cell → Cell
  | .place n => .word (UInt32.ofNat ((l.places.lookup n).getD 0))
  | c => c

/-- The cell of a bound label becomes the word it stands at. -/
theorem Draws.placed_offset (hd : Draws l a) (h : l.Sound) {x : Label} (hx : l.Bound x) :
    l.placed (.place (l.offset x)) = .word (l.wordOf x) := by
  have hres := hd.resolve_offset h hx
  unfold Places.resolve at hres
  split at hres
  · rename_i i hi
    rw [placed, hi]
    exact congrArg Cell.word (Except.ok.inj hres)
  · cases hres

/-- Each cell of the program is located as the layout places it. -/
theorem Draws.locate_cell (hd : Draws l a) (h : l.Sound) {c : Cell}
    (hc : c ∈ l.items.flatMap (Item.cells l.offset)) : c.locate l.places = .ok (l.placed c) := by
  cases c with
  | word w => rfl
  | constant k => rfl
  | place n =>
    obtain ⟨i, hi, hn⟩ := List.mem_flatMap.1 hc
    obtain ⟨x, hlabel, rfl⟩ := Item.exists_of_place_mem_cells hn
    have hx := h.jumps i hi x hlabel
    simp only [Cell.locate, hd.resolve_offset h hx, hd.placed_offset h hx]
    rfl

/-- The unit with every entry point in words. -/
def wordUnit (l : Layout) : Bytecode :=
  { l.unit with
    functions := l.functions.map fun d =>
      { paramCount := d.paramCount, regCount := d.regCount, arrCount := d.arrCount,
        entry := l.wordOf d.entry }
    scripts := l.scripts.map fun p =>
      { p.1 with entry := UInt32.ofNat (span Item.width l.items p.2) } }

/-- Offsets of a sound layout fit a word. -/
theorem toNat_ofNat_span (h : l.Sound) (k : Nat) :
    (UInt32.ofNat (span Item.size l.items k)).toNat = span Item.size l.items k := by
  have := Nat.lt_of_le_of_lt (span_le Item.size l.items k) h.length
  rw [UInt32.toNat_ofNat']
  omega

/-- Locating turns every offset of the unit into a word index. -/
theorem Draws.locate_unit (hd : Draws l a) (h : l.Sound) (policy : UnknownPolicy) :
    Module.locate l.unit CodeTable.standard policy =
      .ok { unit := l.wordUnit, cells := (l.items.flatMap (Item.cells l.offset)).map l.placed } := by
  have hdecode : l.unit.decode CodeTable.standard policy = (decodedFrom l.offset 0 l.items, none) := by
    have hfuel : l.items.length ≤ l.unit.code.length := by
      rw [length_code h, span, List.take_length]
      generalize l.items = items
      induction items with
      | nil => simp
      | cons i items ih =>
        have := i.size_pos
        simp only [List.length_cons, List.map_cons, List.sum_cons]
        omega
    have hread := readAll_items h.items (fun _ _ x _ => h.offset_lt x) policy hfuel 0
    simpa [Bytecode.decode, unit] using hread
  have hcells : ((decodedFrom l.offset 0 l.items).flatMap (·.cells)).mapM (Cell.locate l.places) =
      .ok ((l.items.flatMap (Item.cells l.offset)).map l.placed) := by
    rw [flatMap_cells_decodedFrom]
    exact mapM_eq_ok fun c hc => hd.locate_cell h hc
  have hfunctions : l.unit.functions.mapM (fun f => do
      return { f with entry := ← l.places.resolve f.entry.toNat }) = .ok l.wordUnit.functions := by
    rw [unit, List.mapM_map]
    refine mapM_eq_ok fun d hd' => ?_
    simp only [Function.comp_apply]
    rw [Layout.offset, toNat_ofNat_span h]
    have := hd.resolve_offset h (h.entries d hd')
    rw [Layout.offset] at this
    rw [this]
    rfl
  have hscripts : l.unit.scripts.mapM (fun s => do
      return { s with entry := ← l.places.resolve s.entry.toNat }) = .ok l.wordUnit.scripts := by
    rw [unit, List.mapM_map]
    refine mapM_eq_ok fun p hp => ?_
    simp only [Function.comp_apply]
    rw [toNat_ofNat_span h, resolve_places h (hd.script_le p hp)]
    rfl
  have hplaces : Places.ofDecoded l.unit.code.length 0 (decodedFrom l.offset 0 l.items) =
      l.places := rfl
  unfold Module.locate
  simp only [hdecode, hplaces]
  rw [hcells, ok_bind, hfunctions, ok_bind, hscripts, ok_bind]
  rfl

/-- The module is the layout in words: the declared counts, the pooled strings in order, functions
and scripts in order with their entries, and the instructions in order. -/
structure Describes (l : Layout) (m : Module) (t : StringTable) : Prop where
  regs : m.regCount = l.regCount
  arrs : m.arrCount = l.arrCount
  strings : m.strings.map t.bytes? = l.strings.map some
  functions : m.functions.toList = l.functions.map fun d =>
    { paramCount := d.paramCount, regCount := d.regCount, arrCount := d.arrCount,
      entry := l.wordOf d.entry }
  scripts : m.scripts.toList = l.scripts.map fun p =>
    { p.1 with entry := UInt32.ofNat (span Item.width l.items p.2) }
  code : m.code.toList = l.items.flatMap (Item.words m.strings l.wordOf)

/-- What is linked from the layout's unit is described by the layout. -/
theorem Draws.describes (hd : Draws l a) (h : l.Sound) {t : StringTable} (ht : t.Wellformed)
    (hroom : t.slots.size + l.strings.length ≤ UInt32.size) (name : ModuleName) :
    l.Describes
      (Module.link name
        ⟨l.wordUnit, (l.items.flatMap (Item.cells l.offset)).map l.placed⟩ t).1
      (Module.link name
        ⟨l.wordUnit, (l.items.flatMap (Item.cells l.offset)).map l.placed⟩ t).2 where
  regs := rfl
  arrs := rfl
  strings := ht.map_bytes?_internLocked hroom
  functions := rfl
  scripts := rfl
  code := by
    simp only [Module.link, List.flatMap_def, List.map_flatten, List.map_map]
    refine congrArg List.flatten (List.map_congr_left fun i hi => ?_)
    have hplace : ∀ x ∈ i.label?, l.placed (.place (l.offset x)) = .word (l.wordOf x) :=
      fun x hx => hd.placed_offset h (h.jumps i hi x hx)
    simp only [Function.comp_apply, List.map_map]
    exact Item.map_link_cells _ i (fun _ => rfl) (fun _ => rfl) hplace

end Layout

/-- **Assembler and loader agree.**  Requests whose layout is sound can be finished, the bytes load
with the standard code table into every table that has room for the strings, and the module is the
layout in words. -/
theorem load_assemble (p : List Statement) (h : (Layout.ofStatements p).Sound) (name : ModuleName)
    (policy : UnknownPolicy) (t : StringTable) (ht : t.Wellformed)
    (hroom : t.slots.size + (Layout.ofStatements p).strings.length ≤ UInt32.size) :
    ∃ bytes module strings, (assemble p).finish = .ok bytes ∧
      Module.load name bytes CodeTable.standard policy t = .ok (module, strings) ∧
      module.name = name ∧ (Layout.ofStatements p).Describes module strings := by
  have hd := Layout.draws_assemble p
  refine ⟨(Layout.ofStatements p).unit.write, _, _, ?_, ?_, rfl, hd.describes h ht hroom name⟩
  · rw [finish, hd.unit_eq h]
    rfl
  · rw [Module.load, Bytecode.parse_write (hd.writable h), ok_bind, hd.locate_unit h, ok_bind]
    rfl

/-- A script that jumps over a message, to a label that is put twice, and then calls a function
declared before it and begun after it. -/
def sample : List Statement := [
  .vars 2 1, .function 1 2 0, .label, .script ((Script.declare (.text "main")).withArgs 1),
  .bind 1, .jump .jumpEqual [7] 1, .pushString [104, 105], .raw 129 [], .bind 1, .op .pushLit [3],
  .op .call [0], .op .terminate [], .body 0, .op .ret []]

/-- A small program is assembled and loaded. -/
theorem load_assemble_sample : (Layout.ofStatements sample).Sound ∧
    ∃ bytes module strings, (assemble sample).finish = .ok bytes ∧
      Module.load { name := "sample" } bytes CodeTable.standard .error {} = .ok (module, strings) ∧
      module.name = { name := "sample" } ∧ (Layout.ofStatements sample).Describes module strings := by
  have hsound : (Layout.ofStatements sample).Sound := by
    refine ⟨?_, ?_, ?_, ?_, ?_, ?_, ?_, ?_, ?_⟩ <;> decide +kernel
  exact ⟨hsound, load_assemble sample hsound { name := "sample" } .error {}
    StringTable.wellformed_empty (by decide +kernel)⟩

/-- A raw instruction that pushes a string constant the unit does not have. -/
def strayString : List Statement :=
  [.script (Script.declare (.number 1)), .raw CodeTable.pushString [0], .op .terminate []]

/-- A script with an argument and no register for it. -/
def bareScript : List Statement :=
  [.script { Script.declare (.number 1) with argCount := 1 }, .op .terminate []]

/-- Regular requests that finish as bytes which do not load: only the loader holds a string operand
against the number of strings, and the arguments of a script against its registers. -/
theorem regular_not_loaded :
    ((Layout.ofStatements strayString).Regular ∧
      ∃ bytes, (assemble strayString).finish = .ok bytes ∧
        Module.load { name := "sample" } bytes CodeTable.standard .error {} =
          .error (.malformed (.stringRange 0 0))) ∧
    ((Layout.ofStatements bareScript).Regular ∧
      ∃ bytes, (assemble bareScript).finish = .ok bytes ∧
        Module.load { name := "sample" } bytes CodeTable.standard .error {} =
          .error (.malformed (.scriptArgs (.number 1) 1 0))) := by
  have hstray : ∀ i ∈ (Layout.ofStatements strayString).items,
      i.Sound 1 (Layout.ofStatements strayString).functions.length := by decide +kernel
  have hbare : ∀ i ∈ (Layout.ofStatements bareScript).items,
      i.Sound 0 (Layout.ofStatements bareScript).functions.length := by decide +kernel
  refine ⟨⟨⟨fun i hi => ⟨1, hstray i hi⟩, ?_, ?_, ?_⟩,
      (Layout.ofStatements strayString).unit.write, rfl, rfl⟩,
    ⟨⟨fun i hi => ⟨0, hbare i hi⟩, ?_, ?_, ?_⟩,
      (Layout.ofStatements bareScript).unit.write, rfl, rfl⟩⟩ <;> decide +kernel

end Assembler

end ScriptMachine
