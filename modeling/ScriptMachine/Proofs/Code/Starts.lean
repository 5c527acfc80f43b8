import ScriptMachine.Machine.Step

/-!
# Where instructions begin

Walking code instruction by instruction from its first word gives the places where instructions
begin, and at last the end (`Starts`).  Code that is a row of whole instructions (`Spells`) can be
walked to its end: a place of the walk is the length of some of the first instructions
(`Spells.exists_of_starts`), so at every place but the end an instruction of the row can be fetched.
-/

namespace ScriptMachine

open Machine (fetchAt)

/-- An instruction with its operands. -/
abbrev Instruction := Opcode × List Word

/-- The words of a row of instructions. -/
def spell (is : List Instruction) : List Word := is.flatMap fun i => i.1.number :: i.2

/-- Places reached by walking code instruction by instruction. -/
inductive Starts (code : Array Word) : Nat → Prop
  | first : Starts code 0
  | next {p op operands} (h : Starts code p) (hf : fetchAt code p = .ok (op, operands)) :
    Starts code (p + 1 + op.arity)

/-- Code is a row of instructions, each with as many operands as it takes. -/
structure Spells (code : Array Word) (is : List Instruction) : Prop where
  words : code.toList = spell is
  arity : ∀ i ∈ is, i.2.length = i.1.arity

/-- Spelling runs of instructions one after another. -/
theorem spell_append (is js : List Instruction) : spell (is ++ js) = spell is ++ spell js := by
  simp [spell]

/-- Between whole instructions the next one can be fetched. -/
theorem fetchAt_spell {code : Array Word} {pre post : List Instruction} {i : Instruction}
    (h : code.toList = spell (pre ++ i :: post)) (hi : i.2.length = i.1.arity) :
    fetchAt code (spell pre).length = .ok i := by
  obtain ⟨op, ws⟩ := i
  have hcode : code.toList = spell pre ++ op.number :: (ws ++ spell post) := by
    simpa [spell] using h
  have hget : code[(spell pre).length]? = some op.number := by
    rw [← Array.getElem?_toList, hcode, List.getElem?_append_right (Nat.le_refl _)]
    simp
  have hsize : code.size = (spell pre).length + 1 + ws.length + (spell post).length := by
    rw [← Array.length_toList, hcode]
    simp
    omega
  have hoperands : Machine.operandsAt code (spell pre).length op.arity = some ws := by
    have hlen : ws.length = op.arity := hi
    unfold Machine.operandsAt
    rw [if_pos (by omega), Array.toList_extract, hcode]
    simp only [List.extract_eq_take_drop, Option.some.injEq]
    rw [show (spell pre).length + 1 = (spell pre ++ [op.number]).length by simp,
      show spell pre ++ op.number :: (ws ++ spell post) =
        (spell pre ++ [op.number]) ++ (ws ++ spell post) by simp,
      List.drop_left, Nat.add_sub_cancel_left, ← hlen, List.take_left]
  unfold fetchAt
  rw [hget]
  simp only [Opcode.ofWord?_number, hoperands]

/-- The code is as long as the instructions that it spells. -/
theorem Spells.size {code : Array Word} {is : List Instruction} (h : Spells code is) :
    code.size = (spell is).length := by
  rw [← Array.length_toList, h.words]

/-- The walk goes on over whole instructions. -/
theorem Spells.walk {code : Array Word} {is pre post : List Instruction} (h : Spells code is)
    (past : List Instruction) (hsplit : is = past ++ pre ++ post) (hp : Starts code (spell past).length) :
    Starts code (spell (past ++ pre)).length := by
  induction pre generalizing past with
  | nil => simpa using hp
  | cons i pre ih =>
    have hsplit' : is = past ++ i :: (pre ++ post) := by simpa using hsplit
    have hi : i.2.length = i.1.arity := h.arity i (by simp [hsplit'])
    have hnext := Starts.next hp (fetchAt_spell (hsplit' ▸ h.words) hi)
    have hlen : (spell past).length + 1 + i.1.arity = (spell (past ++ [i])).length := by
      rw [spell_append, List.length_append, ← hi]
      simp [spell]
      omega
    have hrest := ih (past ++ [i]) (by simpa using hsplit) (hlen ▸ hnext)
    simpa using hrest

/-- The end of the first few instructions is a place of the walk. -/
theorem Spells.starts {code : Array Word} {is pre post : List Instruction} (h : Spells code is)
    (hsplit : is = pre ++ post) : Starts code (spell pre).length := by
  have hwalk := h.walk [] hsplit Starts.first
  simpa using hwalk

/-- Every place of the walk is the end of the first few instructions. -/
theorem Spells.exists_of_starts {code : Array Word} {is : List Instruction} (h : Spells code is)
    {p : Nat} (hp : Starts code p) : ∃ pre post, is = pre ++ post ∧ p = (spell pre).length := by
  induction hp with
  | first => exact ⟨[], is, rfl, rfl⟩
  | @next p op ws _ hf ih =>
    obtain ⟨pre, post, hsplit, rfl⟩ := ih
    cases post with
    | nil =>
      -- past the last instruction there is no word to fetch
      have hnone : code[(spell pre).length]? = none := by
        exact Array.getElem?_eq_none_iff.2 (Nat.le_of_eq (by rw [h.size, hsplit, List.append_nil]))
      simp [fetchAt, hnone] at hf
    | cons i post =>
      have hi : i.2.length = i.1.arity := h.arity i (by simp [hsplit])
      rw [fetchAt_spell (hsplit ▸ h.words) hi] at hf
      cases hf
      refine ⟨pre ++ [(op, ws)], post, by simp [hsplit], ?_⟩
      simp only at hi
      simp [spell, hi]
      omega

/-- At a place of the walk, one of the instructions can be fetched, or the code ends. -/
theorem Spells.fetchAt {code : Array Word} {is : List Instruction} (h : Spells code is) {p : Nat}
    (hp : Starts code p) : (∃ i ∈ is, fetchAt code p = .ok i) ∨ p = code.size := by
  obtain ⟨pre, post, hsplit, rfl⟩ := h.exists_of_starts hp
  cases post with
  | nil => exact .inr (by rw [h.size, hsplit, List.append_nil])
  | cons i post =>
    have hmem : i ∈ is := by simp [hsplit]
    exact .inl ⟨i, hmem, fetchAt_spell (hsplit ▸ h.words) (h.arity i hmem)⟩

/-- Instructions with the same opcodes are spelled in the same number of words. -/
theorem spell_length_congr {is js : List Instruction} (his : ∀ i ∈ is, i.2.length = i.1.arity)
    (hjs : ∀ j ∈ js, j.2.length = j.1.arity) (h : is.map (·.1) = js.map (·.1)) :
    (spell is).length = (spell js).length := by
  have harity : ∀ ks : List Instruction, (∀ k ∈ ks, k.2.length = k.1.arity) →
      (spell ks).length = ((ks.map (·.1)).map fun op => 1 + op.arity).sum := by
    intro ks hks
    induction ks with
    | nil => rfl
    | cons k ks ih =>
      have hrest := ih fun j hj => hks j (List.mem_cons_of_mem _ hj)
      have hk := hks k List.mem_cons_self
      simp only [spell, List.flatMap_cons, List.length_append, List.length_cons, List.map_cons,
        List.sum_cons] at hrest ⊢
      omega
  rw [harity is his, harity js hjs, h]

/-- Rows of the same instructions begin them at the same places, whatever the operands are. -/
theorem starts_congr {code code' : Array Word} {is js : List Instruction} (h : Spells code is)
    (h' : Spells code' js) (heq : is.map (·.1) = js.map (·.1)) {p : Nat} (hp : Starts code p) :
    Starts code' p := by
  obtain ⟨pre, post, rfl, rfl⟩ := h.exists_of_starts hp
  have hsplit : js = js.take pre.length ++ js.drop pre.length := (List.take_append_drop ..).symm
  have hpre : pre.map (·.1) = (js.take pre.length).map (·.1) := by
    rw [List.map_take, ← heq, List.map_append, List.take_left' (by simp)]
  rw [spell_length_congr (fun i hi => h.arity i (List.mem_append_left _ hi))
    (fun j hj => h'.arity j (List.mem_of_mem_take hj)) hpre]
  exact h'.starts hsplit

/-- At its end, code has no instruction. -/
theorem fetchAt_size (code : Array Word) :
    fetchAt code code.size = .error (.outOfBounds, UInt32.ofNat code.size) := by
  simp [fetchAt]

end ScriptMachine
