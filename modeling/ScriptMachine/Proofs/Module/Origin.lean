import ScriptMachine.Module.Loader
import ScriptMachine.Proofs.Codec.Sequencing
import ScriptMachine.Proofs.StringTable.Keeping

/-!
# Where modules come from

A module is loaded from bytes, with a code table and a policy for unknown opcodes (`Origin`).  It
stands in a string table as long as its strings are found where the module has them
(`Module.Stands`).  While it stands, loading its bytes again makes the same module and changes
nothing but lock counts (`Module.Stands.load`).
-/

namespace ScriptMachine

/-- What a module is loaded from. -/
structure Origin where
  data : Bytes
  table : CodeTable
  policy : UnknownPolicy

/-- Loading the bytes of the origin makes this module, under some name and with some strings in the
table before. -/
def Origin.Makes (o : Origin) (m : LoadedModule) : Prop :=
  ∃ name t t', Module.load name o.data o.table o.policy t = .ok (m.toModule, t')

namespace StringTable

/-- An interned string is found. -/
theorem Wellformed.find?_intern {t : StringTable} (h : t.Wellformed)
    (hroom : t.slots.size < UInt32.size) (b : Bytes) :
    (t.intern b).2.find? b (hash b) = some (t.intern b).1 := by
  cases hf : t.find? b (hash b) with
  | some i => rw [intern_old hf]; exact hf
  | none =>
    refine (h.intern hroom b).find?_eq_some_iff.2 ⟨h.bytes?_intern hroom b, fun j hj => ?_⟩
    rw [bytes?, h.get?_intern_new hroom hf] at hj
    split at hj
    · rename_i heq
      rw [heq, intern_new hf]
      exact UInt32.le_refl _
    · exact absurd hj (h.find?_eq_none_iff.1 hf j)

/-- Interned strings are found where they were put. -/
theorem Wellformed.map_find?_internLocked {t : StringTable} (h : t.Wellformed) {bs : List Bytes}
    (hroom : (t.internLocked bs).2.slots.size < UInt32.size) :
    bs.map (fun b => (t.internLocked bs).2.find? b (hash b)) = (t.internLocked bs).1.map some := by
  induction bs generalizing t with
  | nil => rfl
  | cons b bs ih =>
    rw [internLocked_cons] at hroom ⊢
    have hlock := sameStrings_lock (t.intern b).2 (t.intern b).1
    have hbefore := Nat.lt_of_le_of_lt (size_le_intern t b) (size_intern_lt hroom)
    have hwf := hlock.wellformed (h.intern hbefore b)
    have hfound : ((t.intern b).2.lock (t.intern b).1).find? b (hash b) = some (t.intern b).1 :=
      (hlock.find? b _).trans (h.find?_intern hbefore b)
    have hkeeps : Keeps (fun _ => True) _ _ := keeps_internLocked hroom
    rw [List.map_cons, List.map_cons, ih hwf hroom, hkeeps.found hwf b _ trivial hfound]

end StringTable

namespace Module

/-- A located unit with the numbers of its strings filled in. -/
def Located.linkWith (l : Located) (name : ModuleName) (strings : List Word) : Module where
  name := name
  regCount := l.unit.regCount
  arrCount := l.unit.arrCount
  strings := strings
  functions := l.unit.functions.toArray
  scripts := l.unit.scripts.toArray
  code := (l.cells.map (Cell.link strings)).toArray

/-- Linking interns the strings of the unit and locks them. -/
theorem link_eq (name : ModuleName) (l : Located) (t : StringTable) :
    link name l t = (l.linkWith name (t.internLocked l.unit.strings).1,
      (t.internLocked l.unit.strings).2) := rfl

/-- The strings of the module are where the module has them, and with them it is what its origin
makes. -/
def Stands (m : Module) (t : StringTable) (o : Origin) : Prop :=
  ∃ unit l, Bytecode.parse o.data = .ok unit ∧ locate unit o.table o.policy = .ok l ∧
    l.unit.strings.map (fun b => t.find? b (StringTable.hash b)) = m.strings.map some ∧
    m = l.linkWith m.name m.strings

variable {m : Module} {o : Origin} {t t' : StringTable} {name : ModuleName}

/-- A module that was just loaded stands. -/
theorem stands_of_load (h : load name o.data o.table o.policy t = .ok (m, t')) (ht : t.Wellformed)
    (hroom : t'.slots.size < UInt32.size) : m.Stands t' o ∧ m.name = name := by
  obtain ⟨unit, hparse, h⟩ := bind_eq_ok h
  obtain ⟨l, hlocate, h⟩ := bind_eq_ok h
  rw [link_eq] at h
  cases h
  exact ⟨⟨unit, l, hparse, hlocate, ht.map_find?_internLocked hroom, rfl⟩, rfl⟩

/-- Loading keeps what is in the table. -/
theorem keeps_of_load {kept : Word → Prop} (h : load name o.data o.table o.policy t = .ok (m, t'))
    (hroom : t'.slots.size < UInt32.size) : StringTable.Keeps kept t t' := by
  obtain ⟨unit, -, h⟩ := bind_eq_ok h
  obtain ⟨l, -, h⟩ := bind_eq_ok h
  rw [link_eq] at h
  cases h
  exact StringTable.keeps_internLocked hroom

/-- **Loading again.**  While a module stands, its origin makes it again, and only lock counts
change. -/
theorem Stands.load (h : m.Stands t o) :
    ∃ t', Module.load m.name o.data o.table o.policy t = .ok (m, t') ∧
      StringTable.SameStrings t t' := by
  obtain ⟨unit, l, hparse, hlocate, hfound, hlink⟩ := h
  obtain ⟨hstrings, hsame⟩ := StringTable.internLocked_known hfound
  refine ⟨(t.internLocked l.unit.strings).2, ?_, hsame⟩
  rw [Module.load, hparse, ok_bind, hlocate, ok_bind, link_eq, hstrings, ← hlink]
  rfl

/-- A module stands as long as its strings are kept. -/
theorem Stands.keeps (h : m.Stands t o) (ht : t.Wellformed)
    (hkeeps : StringTable.Keeps (· ∈ m.strings) t t') : m.Stands t' o := by
  obtain ⟨unit, l, hparse, hlocate, hfound, hlink⟩ := h
  refine ⟨unit, l, hparse, hlocate, ?_, hlink⟩
  apply List.ext_getElem?
  intro k
  have hk := congrArg (fun is => is[k]?) hfound
  simp only [List.getElem?_map] at hk ⊢
  cases hb : l.unit.strings[k]? with
  | none => simpa [hb] using hk
  | some b =>
    cases hi : m.strings[k]? with
    | none => simp [hb, hi] at hk
    | some i =>
      simp only [hb, hi, Option.map_some, Option.some.injEq] at hk ⊢
      exact hkeeps.found ht b i (List.mem_of_getElem? hi) hk

end Module

end ScriptMachine
