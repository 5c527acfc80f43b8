import ScriptMachine.Module.Loader
import ScriptMachine.Proofs.Assembler.Layout
import ScriptMachine.Proofs.Codec.Varint

/-!
# Reading assembled code back

An instruction of a layout that the standard code table admits (`Item.Sound`) is decoded from its
bytes as its own cells (`reads_item`), so the code of a layout is decoded instruction by instruction
(`readAll_items`).  The table of places then leads from the byte offset of every position to its
word index (`lookup_ofDecoded`): both are sums over the same instructions, one of bytes and one of
words.
-/

namespace ScriptMachine

/-- Whether a word can be an operand of a kind that is written out as it is, in a unit with so many
strings and functions. -/
def OperandKind.Admits (strings functions : Nat) : OperandKind → Word → Prop
  | .literal, _ => True
  | .target, _ => False
  | .string, w => w.toNat < strings
  | .function, w => w.toNat < functions

/-- Whether words can be the operands of some kinds, one for one. -/
def OperandKind.AdmitAll (strings functions : Nat) : List OperandKind → List Word → Prop
  | [], [] => True
  | k :: ks, w :: ws => k.Admits strings functions w ∧ AdmitAll strings functions ks ws
  | _, _ => False

instance (strings functions : Nat) : (k : OperandKind) → (w : Word) →
    Decidable (k.Admits strings functions w)
  | .literal, _ => isTrue trivial
  | .target, _ => isFalse id
  | .string, w => inferInstanceAs (Decidable (w.toNat < strings))
  | .function, w => inferInstanceAs (Decidable (w.toNat < functions))

instance OperandKind.decidableAdmitAll (strings functions : Nat) :
    (ks : List OperandKind) → (ws : List Word) →
      Decidable (OperandKind.AdmitAll strings functions ks ws)
  | [], [] => isTrue trivial
  | [], _ :: _ => isFalse id
  | _ :: _, [] => isFalse id
  | _ :: ks, _ :: ws =>
    have := OperandKind.decidableAdmitAll strings functions ks ws
    inferInstanceAs (Decidable (_ ∧ _))

/-- Whether words are the operands that the meaning of a raw opcode asks for. -/
def CodeEntry.Admits (strings functions : Nat) : CodeEntry → List Word → Prop
  | .instruction _ kinds, ws => OperandKind.AdmitAll strings functions kinds ws
  | .redirect r, ws => ws.length = r.inline.toNat

instance (strings functions : Nat) : (e : CodeEntry) → (ws : List Word) →
    Decidable (e.Admits strings functions ws)
  | .instruction _ kinds, ws =>
    inferInstanceAs (Decidable (OperandKind.AdmitAll strings functions kinds ws))
  | .redirect r, ws => inferInstanceAs (Decidable (ws.length = r.inline.toNat))

namespace Assembler

/-- Whether a jump has the literal operands it takes. -/
def JumpForm (o : Opcode) (literals : List Word) : Prop :=
  (o = .jump ∨ o = .jumpTrue ∨ o = .jumpZero) ∧ literals = [] ∨
    o = .jumpEqual ∧ literals.length = 1

instance (o : Opcode) (literals : List Word) : Decidable (JumpForm o literals) :=
  inferInstanceAs (Decidable (_ ∨ _))

namespace Item

/-- Whether the standard code table has a meaning for an instruction, with these operands, in a
unit with so many strings and functions. -/
def Sound (strings functions : Nat) : Item → Prop
  | raw op operands => ∃ e ∈ CodeTable.standard.find? op, e.Admits strings functions operands
  | jump o literals _ => JumpForm o literals

instance (strings functions : Nat) : (i : Item) → Decidable (i.Sound strings functions)
  | raw op operands =>
    match h : CodeTable.standard.find? op with
    | none => isFalse fun ⟨_, he, _⟩ => by simp [h] at he
    | some e =>
      decidable_of_iff (e.Admits strings functions operands) (by simp [Sound, h])
  | jump o literals _ => inferInstanceAs (Decidable (JumpForm o literals))

/-- The label an instruction names. -/
def label? : Item → Option Label
  | raw _ _ => none
  | jump _ _ l => some l

/-- The bytes of an instruction, given the byte offsets of labels. -/
def bytes (offset : Label → Nat) : Item → Bytes
  | i@(raw _ _) => i.head
  | i@(jump _ _ l) => i.head ++ Varint.padGroups labelWidth (offset l)

/-- The cell of an operand that is written out as it is. -/
def operandCell : OperandKind → Word → Cell
  | .string, w => .constant w.toNat
  | _, w => .word w

/-- The cells of an instruction, given the byte offsets of labels. -/
def cells (offset : Label → Nat) : Item → List Cell
  | raw op operands =>
    match CodeTable.standard.find? op with
    | some (.instruction o kinds) => .word o.number :: List.zipWith operandCell kinds operands
    | some (.redirect r) => Decoded.callCells r operands
    | none => []
  | jump o literals l => .word o.number :: literals.map .word ++ [.place (offset l)]

/-- How many words an instruction becomes. -/
def width (i : Item) : Nat := (i.cells fun _ => 0).length

/-- An item has as many cells as it is wide, wherever the labels are. -/
@[simp] theorem length_cells (offset : Label → Nat) (i : Item) :
    (i.cells offset).length = i.width := by
  cases i with
  | raw op ws => rfl
  | jump o ws x => simp [width, cells]

/-- An item takes as many bytes as its size says, as long as the offsets of labels fit their fields. -/
theorem length_bytes {offset : Label → Nat} {i : Item}
    (h : ∀ x ∈ i.label?, offset x < 2 ^ 35) : (i.bytes offset).length = i.size := by
  cases i with
  | raw op ws => rfl
  | jump o ws x =>
    have hx : offset x < 128 ^ labelWidth := by
      have := h x rfl
      simp only [labelWidth]
      omega
    rw [bytes, List.length_append, (Varint.terminated_padGroups hx (by decide)).2.2]
    rfl

/-- Every number takes a byte. -/
theorem writeWord_ne_nil (w : Word) : Varint.writeWord w ≠ [] := by
  unfold Varint.writeWord Varint.write Varint.maxBytes Varint.writeGroups
  split <;> simp

/-- Every instruction takes a byte. -/
theorem size_pos (i : Item) : 0 < i.size := by
  have hword : ∀ (w : Word) (ws : List Word), 0 < ((w :: ws).flatMap Varint.writeWord).length := by
    intro w ws
    rw [List.flatMap_cons, List.length_append]
    have := List.length_pos_iff.2 (writeWord_ne_nil w)
    omega
  cases i with
  | raw op ws => exact hword op ws
  | jump o ws x =>
    have := hword o.number ws
    simp only [size, head]
    omega

end Item

open Reader

/-- Operands that are written out as they are. -/
theorem reads_operands {strings functions : Nat} (offset : Nat) {kinds : List OperandKind}
    {ws : List Word} (h : OperandKind.AdmitAll strings functions kinds ws) :
    Reads (Decoded.readOperands ⟨strings, functions⟩ offset kinds) (ws.flatMap Varint.writeWord)
      (List.zipWith Item.operandCell kinds ws) := by
  induction kinds generalizing ws with
  | nil =>
    cases ws with
    | nil => exact Reads.pure []
    | cons w ws => exact h.elim
  | cons k ks ih =>
    cases ws with
    | nil => exact h.elim
    | cons w ws =>
      obtain ⟨hk, hks⟩ := h
      have hcell : Reads (Decoded.readOperand ⟨strings, functions⟩ offset k)
          (Varint.writeWord w) (Item.operandCell k w) := by
        intro rest
        have hw := Varint.reads_writeWord w rest
        simp only [Decoded.readOperand, bind_apply, hw]
        cases k with
        | literal => rfl
        | target => exact hk.elim
        | string =>
          have hlt : ¬ strings ≤ w.toNat := Nat.not_le.2 hk
          simp only [if_neg hlt]
          rfl
        | function =>
          have hlt : ¬ functions ≤ w.toNat := Nat.not_le.2 hk
          simp only [if_neg hlt]
          rfl
      exact hcell.bind ((ih hks).map _)

/-- The standard table has every instruction under its own number. -/
theorem standard_find?_number : ∀ o ∈ Opcode.all,
    CodeTable.standard.find? o.number = some (.instruction o o.operands) := by decide +kernel

/-- Each opcode that jumps is found under its number. -/
theorem find?_jump {o : Opcode} {ws : List Word} (h : JumpForm o ws) :
    CodeTable.standard.find? o.number =
      some (.instruction o (ws.map (fun _ => .literal) ++ [.target])) := by
  rcases h with ⟨rfl | rfl | rfl, rfl⟩ | ⟨rfl, hlen⟩
  · exact standard_find?_number _ (by decide +kernel)
  · exact standard_find?_number _ (by decide +kernel)
  · exact standard_find?_number _ (by decide +kernel)
  · obtain ⟨w, rfl⟩ := List.length_eq_one_iff.1 hlen
    exact standard_find?_number _ (by decide +kernel)

/-- **One instruction.**  An instruction is decoded from its bytes as its own cells. -/
theorem reads_item {strings functions : Nat} {offset : Label → Nat} {i : Item}
    (h : i.Sound strings functions) (hfit : ∀ x ∈ i.label?, offset x < 2 ^ 32)
    (policy : UnknownPolicy) (here : Nat) :
    Reads (Decoded.read CodeTable.standard policy ⟨strings, functions⟩ here) (i.bytes offset)
      { offset := here, cells := i.cells offset } := by
  intro rest
  cases i with
  | raw op ws =>
    obtain ⟨e, he, hadmit⟩ := h
    have hop := fun rest => Varint.reads_writeWord op rest
    simp only [Decoded.read, Item.bytes, Item.head, List.flatMap_cons, List.append_assoc, bind_apply,
      hop, Option.mem_def.1 he, Item.cells]
    cases e with
    | instruction o kinds =>
      simp only [bind_apply, reads_operands here hadmit rest]
      rfl
    | redirect r =>
      have hws : Reads (Reader.times Varint.readWord r.inline.toNat)
          (ws.flatMap Varint.writeWord) ws := by
        have htimes : Reads (Reader.times Varint.readWord ws.length)
            (ws.flatMap Varint.writeWord) (ws.map id) :=
          Reads.times fun w _ => Varint.reads_writeWord w
        rw [List.map_id] at htimes
        rwa [show r.inline.toNat = ws.length from hadmit.symm]
      simp only [bind_apply, hws rest]
      rfl
  | jump o ws x =>
    have hx := hfit x rfl
    have hpad : Varint.writePadded (offset x) labelWidth =
        .ok (Varint.padGroups labelWidth (offset x)) := by
      have hshift : offset x >>> (7 * labelWidth) = 0 := by
        rw [Nat.shiftRight_eq_div_pow, Nat.div_eq_zero_iff]
        simp only [labelWidth]
        omega
      rw [Varint.writePadded, hshift, if_neg (by decide)]
    have htarget : ∀ rest, Varint.readWord (Varint.padGroups labelWidth (offset x) ++ rest) =
        .ok (UInt32.ofNat (offset x), rest) := by
      intro rest
      have hread := Varint.reads_padded .bits32 hpad (by decide) hx rest
      simp only [Varint.readWord, bind_apply, hread]
      rfl
    have hback : (UInt32.ofNat (offset x)).toNat = offset x := by
      rw [UInt32.toNat_ofNat']
      omega
    have hw := fun w rest => Varint.reads_writeWord w rest
    simp only [Decoded.read, Item.bytes, Item.head, List.flatMap_cons, List.append_assoc, bind_apply,
      hw, find?_jump h, Item.cells]
    rcases h with ⟨-, rfl⟩ | ⟨-, hlen⟩
    · simp only [List.flatMap_nil, List.map_nil, List.nil_append, Decoded.readOperands, bind_apply,
        Decoded.readOperand, pure_apply, htarget, hback, List.cons_append]
    · obtain ⟨w, rfl⟩ := List.length_eq_one_iff.1 hlen
      simp only [List.flatMap_cons, List.flatMap_nil, List.append_nil, List.map_cons, List.map_nil,
        List.cons_append, List.nil_append, Decoded.readOperands, bind_apply, Decoded.readOperand,
        hw, pure_apply, htarget, hback]

/-- The decoded instructions of a layout, the first of them at an offset. -/
def decodedFrom (offset : Label → Nat) : Nat → List Item → List Decoded
  | _, [] => []
  | here, i :: items =>
    { offset := here, cells := i.cells offset } :: decodedFrom offset (here + i.size) items

/-- Decoding gives the cells of the items back. -/
theorem flatMap_cells_decodedFrom (offset : Label → Nat) (here : Nat) (items : List Item) :
    (decodedFrom offset here items).flatMap (·.cells) = items.flatMap (Item.cells offset) := by
  induction items generalizing here with
  | nil => rfl
  | cons i items ih => simp [decodedFrom, ih]

/-- **Whole code.**  The code of a layout is decoded instruction by instruction. -/
theorem readAll_items {strings functions : Nat} {offset : Label → Nat} {items : List Item}
    (h : ∀ i ∈ items, i.Sound strings functions)
    (hfit : ∀ i ∈ items, ∀ x ∈ i.label?, offset x < 2 ^ 32) (policy : UnknownPolicy)
    {fuel : Nat} (hfuel : items.length ≤ fuel) (here : Nat) :
    Decoded.readAll CodeTable.standard policy ⟨strings, functions⟩ fuel here
      (items.flatMap (Item.bytes offset)) = (decodedFrom offset here items, none) := by
  induction items generalizing fuel here with
  | nil => simp [Decoded.readAll, decodedFrom]
  | cons i items ih =>
    obtain ⟨fuel, rfl⟩ : ∃ n, fuel = n + 1 := ⟨fuel - 1, by simp at hfuel; omega⟩
    have hi := hfit i List.mem_cons_self
    have hread := reads_item (h i List.mem_cons_self) hi policy here (items.flatMap (Item.bytes offset))
    have hlen : (i.bytes offset).length = i.size :=
      Item.length_bytes fun x hx => by
        have := hi x hx
        omega
    have hpos := i.size_pos
    rw [List.flatMap_cons, Decoded.readAll]
    · rw [hread]
      simp only [List.length_append, Nat.add_sub_cancel, hlen]
      rw [ih (fun j hj => h j (List.mem_cons_of_mem _ hj))
        (fun j hj => hfit j (List.mem_cons_of_mem _ hj)) (by simpa using hfuel)]
      rfl
    · intro hnil
      have := congrArg List.length hnil
      simp [hlen] at this
      omega

/-- **Places.**  The byte offset of a position leads to its word index. -/
theorem lookup_ofDecoded (offset : Label → Nat) {items : List Item} {rawLength here : Nat}
    (start : Nat) {k : Nat} (hraw : rawLength = here + span Item.size items items.length) (hk : k ≤ items.length) :
    (Places.ofDecoded rawLength start (decodedFrom offset here items)).lookup
      (here + span Item.size items k) = some (start + span Item.width items k) := by
  induction items generalizing here start k with
  | nil =>
    have hk : k = 0 := by simpa using hk
    subst hk
    simp [decodedFrom, Places.ofDecoded, span, hraw]
  | cons i items ih =>
    rw [decodedFrom, Places.ofDecoded]
    cases k with
    | zero => simp [span]
    | succ k =>
      have hpos := i.size_pos
      have hne : (here + span Item.size (i :: items) (k + 1) == here) = false := by
        rw [span_cons_succ]
        simp
        omega
      have hrest : rawLength = here + i.size + span Item.size items items.length := by
        rw [hraw, List.length_cons, span_cons_succ]
        omega
      have hnext := ih (start + (i.cells offset).length) hrest (Nat.le_of_succ_le_succ hk)
      rw [List.lookup_cons, hne]
      simp only [span_cons_succ, ← Nat.add_assoc]
      rw [hnext, Item.length_cells]

end Assembler

end ScriptMachine
