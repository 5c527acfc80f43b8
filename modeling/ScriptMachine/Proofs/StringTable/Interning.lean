import ScriptMachine.Proofs.StringTable.Changes

/-!
# Interning constants

A module interns its string constants in order and locks each of them.  The indices it gets lead to
its constants in the table it leaves (`map_bytes?_internLocked`), and contents that were in the
table before stay where they were (`bytes?_internLocked`).  Where the table holds all the constants
already, interning them changes lock counts only (`internLocked_known`).
-/

namespace ScriptMachine.StringTable

variable {t : StringTable}

/-- Interning moves no content. -/
theorem Aligned.bytes?_intern_of_some (h : t.Aligned) (hroom : t.slots.size < UInt32.size)
    (b : Bytes) {j : Word} {c : Bytes} (hc : t.bytes? j = some c) :
    (t.intern b).2.bytes? j = some c := by
  obtain ⟨e, he, rfl⟩ := bytes?_eq_some_iff.1 hc
  exact bytes?_eq_some_iff.2 ⟨e, h.get?_intern_of_some hroom b he, rfl⟩

theorem internLocked_cons (t : StringTable) (b : Bytes) (bs : List Bytes) :
    t.internLocked (b :: bs) =
      ((t.intern b).1 :: (((t.intern b).2.lock (t.intern b).1).internLocked bs).1,
        (((t.intern b).2.lock (t.intern b).1).internLocked bs).2) := rfl

/-- One constant is interned and locked. -/
theorem Wellformed.intern_lock (h : t.Wellformed) (hroom : t.slots.size < UInt32.size) (b : Bytes) :
    ((t.intern b).2.lock (t.intern b).1).Wellformed ∧
      ((t.intern b).2.lock (t.intern b).1).slots.size ≤ t.slots.size + 1 := by
  have hsame := sameStrings_lock (t.intern b).2 (t.intern b).1
  refine ⟨hsame.wellformed (h.intern hroom b), ?_⟩
  rw [hsame.size_eq]
  exact h.size_intern_le hroom b

/-- A table that has room for the constants is left well-formed, with every content where it was. -/
theorem Wellformed.internLocked (h : t.Wellformed) {bs : List Bytes}
    (hroom : t.slots.size + bs.length ≤ UInt32.size) :
    (t.internLocked bs).2.Wellformed ∧
      (t.internLocked bs).2.slots.size ≤ t.slots.size + bs.length ∧
      ∀ j c, t.bytes? j = some c → (t.internLocked bs).2.bytes? j = some c := by
  induction bs generalizing t with
  | nil => exact ⟨h, Nat.le_refl _, fun _ _ hc => hc⟩
  | cons b bs ih =>
    simp only [List.length_cons] at hroom ⊢
    have hfit : t.slots.size < UInt32.size := by omega
    obtain ⟨hwell, hsize⟩ := h.intern_lock hfit b
    obtain ⟨hw, hs, hb⟩ := ih hwell (by omega)
    rw [internLocked_cons]
    refine ⟨hw, by simp only; omega, fun j c hc => hb j c ?_⟩
    rw [(sameStrings_lock _ _).bytes?]
    exact h.bytes?_intern_of_some hfit b hc

/-- **Constants.**  The indices lead to the constants, in order. -/
theorem Wellformed.map_bytes?_internLocked (h : t.Wellformed) {bs : List Bytes}
    (hroom : t.slots.size + bs.length ≤ UInt32.size) :
    (t.internLocked bs).1.map (t.internLocked bs).2.bytes? = bs.map some := by
  induction bs generalizing t with
  | nil => rfl
  | cons b bs ih =>
    simp only [List.length_cons] at hroom
    have hfit : t.slots.size < UInt32.size := by omega
    obtain ⟨hwell, hsize⟩ := h.intern_lock hfit b
    have hroom' : ((t.intern b).2.lock (t.intern b).1).slots.size + bs.length ≤ UInt32.size := by
      omega
    have hrest := hwell.internLocked hroom'
    have hhead : ((t.intern b).2.lock (t.intern b).1).bytes? (t.intern b).1 = some b := by
      rw [(sameStrings_lock _ _).bytes?]
      exact h.bytes?_intern hfit b
    rw [internLocked_cons, List.map_cons, List.map_cons, ih hwell hroom',
      hrest.2.2 _ _ hhead]

/-- Constants that are all in the table are answered as they are found, and only locked. -/
theorem internLocked_known {bs : List Bytes} {is : List Word}
    (h : bs.map (fun b => t.find? b (hash b)) = is.map some) :
    (t.internLocked bs).1 = is ∧ SameStrings t (t.internLocked bs).2 := by
  induction bs generalizing t is with
  | nil =>
    cases is with
    | nil => exact ⟨rfl, .refl t⟩
    | cons i is => simp at h
  | cons b bs ih =>
    cases is with
    | nil => simp at h
    | cons i is =>
      simp only [List.map_cons, List.cons.injEq] at h
      have hsame := sameStrings_lock t i
      have hrest : bs.map (fun b => (t.lock i).find? b (hash b)) = is.map some := by
        simpa only [hsame.find?] using h.2
      obtain ⟨hfst, hsnd⟩ := ih hrest
      rw [internLocked_cons, intern_old h.1]
      exact ⟨by rw [hfst], hsame.trans hsnd⟩

end ScriptMachine.StringTable
