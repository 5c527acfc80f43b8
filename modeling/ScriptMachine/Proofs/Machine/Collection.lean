import Mathlib.Data.List.Sigma
import ScriptMachine.Proofs.Machine.ViewRequests

/-!
# Collections free exactly the garbage

`Machine.Refers` lists who can name a string: a constant of a registered module, a register or a
stored cell of a global, hub or module scope, and the stack, the registers, the arrays, the start
arguments and the result of a thread.  A string is garbage when it is not locked, nobody refers to its
index and the host does not hold it either (`Machine.Garbage`).

The words that a collection marks are those of this list and no others (`mem_heldWords`), so a
collection removes the garbage and nothing else (`collectStrings_exact`).
-/

namespace ScriptMachine

/-! ## Who holds a word -/

/-- A stored cell of the array holds the word. -/
def Sparse.Holds (a : Sparse) (i : Word) : Prop := ∃ k, a.cells.find? k = some i

/-- A register or a stored cell holds the word. -/
def Vars.Holds (v : Vars) (i : Word) : Prop := i ∈ v.regs ∨ ∃ a ∈ v.arrs, a.Holds i

/-- The thread holds the word: on its stack, in a register or an array of any of its frames, among its
start arguments, or as its result. -/
def Thread.Holds (t : Thread) (i : Word) : Prop :=
  i ∈ t.stack ∨ i ∈ t.regs ∨ (∃ a ∈ t.arrs, a.Holds i) ∨ i ∈ t.args ∨ i = t.result

/-- The references of an array are the strings it holds. -/
theorem Sparse.mem_references {a : Sparse} {i : Word} : i ∈ a.references ↔ a.Holds i :=
  OrdMap.mem_values

/-- The references of variables are the strings they hold. -/
theorem Vars.mem_references {v : Vars} {i : Word} : i ∈ v.references ↔ v.Holds i := by
  simp only [references, Holds, List.mem_append, Array.mem_toList_iff, List.mem_flatMap,
    Sparse.mem_references]

/-- The references of a thread are the strings it holds. -/
theorem Thread.mem_references {t : Thread} {i : Word} : i ∈ t.references ↔ t.Holds i := by
  simp only [references, Holds, List.mem_append, List.mem_cons, Array.mem_toList_iff,
    List.mem_flatMap, Sparse.mem_references]
  constructor
  · rintro (((h | h) | h) | h | h)
    · exact .inl h
    · exact .inr (.inl h)
    · exact .inr (.inr (.inr (.inl h)))
    · exact .inr (.inr (.inr (.inr h)))
    · exact .inr (.inr (.inl h))
  · rintro (h | h | h | h | h)
    · exact .inl (.inl (.inl h))
    · exact .inl (.inl (.inr h))
    · exact .inr (.inr h)
    · exact .inl (.inr h)
    · exact .inr (.inl h)

/-- The references of a module scope are those of its variables and threads. -/
theorem ModuleScope.mem_references {x : ModuleScope} {i : Word} :
    i ∈ x.references ↔ x.vars.Holds i ∨ ∃ t ∈ x.threads, t.Holds i := by
  simp only [references, List.mem_append, Vars.mem_references, List.mem_flatMap,
    Thread.mem_references]

namespace Machine

/-- Somebody in the machine can name the string at an index. -/
inductive Refers (m : Machine) (i : Word) : Prop
  | constant {name : ModuleName} {x : LoadedModule} (h : m.modules.find? name = some x)
      (hi : i ∈ x.strings)
  | global {g : Word} {x : GlobalScope} (h : m.scopes.global? g = some x) (hi : x.vars.Holds i)
  | hub {g k : Word} {x : HubScope} (h : m.scopes.hub? g k = some x) (hi : x.vars.Holds i)
  | module {id : ScopeId} {n : Nat} {x : ModuleScope} (h : m.scopes.module? id n = some x)
      (hi : x.vars.Holds i)
  | thread {id : ScopeId} {n : Nat} {x : ModuleScope} {t : Thread}
      (h : m.scopes.module? id n = some x) (ht : t ∈ x.threads) (hi : t.Holds i)

/-- The host says that it holds an index. -/
def HostHolds (m : Machine) (i : Word) : Prop := m.hooks.has .references = true ∧ i ∈ m.hooks.references

/-- A string that nobody keeps: it lives at the index, has no lock, and neither the machine nor the
host can name it. -/
def Garbage (m : Machine) (i : Word) : Prop :=
  (∃ e, m.strings.get? i = some e ∧ e.locks = 0) ∧ ¬ m.Refers i ∧ ¬ m.HostHolds i

variable {m : Machine} {i : Word}

/-- The references of the tree are those of its global scopes, hubs, module scopes and threads. -/
theorem mem_scopes_references : i ∈ m.scopes.references ↔
    (∃ g x, m.scopes.global? g = some x ∧ x.vars.Holds i) ∨
      (∃ g k x, m.scopes.hub? g k = some x ∧ x.vars.Holds i) ∨
      ∃ id n x, m.scopes.module? id n = some x ∧ (x.vars.Holds i ∨ ∃ t ∈ x.threads, t.Holds i) := by
  constructor
  · intro hi
    obtain ⟨x, hx, hi⟩ := List.mem_flatMap.1 hi
    obtain ⟨g, hg⟩ := OrdMap.mem_values.1 hx
    rcases List.mem_append.1 hi with hi | hi
    · exact .inl ⟨g, x, hg, Vars.mem_references.1 hi⟩
    obtain ⟨hub, hhub, hi⟩ := List.mem_flatMap.1 hi
    obtain ⟨k, hk⟩ := OrdMap.mem_values.1 hhub
    have hhub : m.scopes.hub? g k = some hub := Option.bind_eq_some_iff.2 ⟨x, hg, hk⟩
    rcases List.mem_append.1 hi with hi | hi
    · exact .inr (.inl ⟨g, k, hub, hhub, Vars.mem_references.1 hi⟩)
    obtain ⟨map, hmap, hi⟩ := List.mem_flatMap.1 hi
    obtain ⟨l, hl⟩ := OrdMap.mem_values.1 hmap
    have hmap : m.scopes.map? ⟨g, k, l⟩ = some map := Option.bind_eq_some_iff.2 ⟨hub, hhub, hl⟩
    obtain ⟨place, hplace, hi⟩ := List.mem_flatMap.1 hi
    obtain ⟨n, hn⟩ := List.getElem?_of_mem hplace
    have hplace : m.scopes.module? ⟨g, k, l⟩ n = some place := Option.bind_eq_some_iff.2 ⟨map, hmap, hn⟩
    exact .inr (.inr ⟨_, n, place, hplace, ModuleScope.mem_references.1 hi⟩)
  · have hglobal : ∀ {g x}, m.scopes.global? g = some x → i ∈ x.references → i ∈ m.scopes.references :=
      fun hg hi => List.mem_flatMap.2 ⟨_, OrdMap.mem_values.2 ⟨_, hg⟩, hi⟩
    have hhub : ∀ {g k x}, m.scopes.hub? g k = some x → i ∈ x.references →
        i ∈ m.scopes.references := by
      intro g k x hx hi
      obtain ⟨y, hg, hk⟩ := Option.bind_eq_some_iff.1 hx
      exact hglobal hg (List.mem_append_right _ (List.mem_flatMap.2 ⟨x, OrdMap.mem_values.2 ⟨k, hk⟩, hi⟩))
    rintro (⟨g, x, hg, hi⟩ | ⟨g, k, x, hx, hi⟩ | ⟨id, n, x, hx, hi⟩)
    · exact hglobal hg (List.mem_append_left _ (Vars.mem_references.2 hi))
    · exact hhub hx (List.mem_append_left _ (Vars.mem_references.2 hi))
    · obtain ⟨map, hmap, hn⟩ := Option.bind_eq_some_iff.1 hx
      obtain ⟨hub, hhub', hl⟩ := Option.bind_eq_some_iff.1 hmap
      have hplace : i ∈ map.references :=
        List.mem_flatMap.2 ⟨x, List.mem_of_getElem? hn, ModuleScope.mem_references.2 hi⟩
      exact hhub hhub' (List.mem_append_right _
        (List.mem_flatMap.2 ⟨map, OrdMap.mem_values.2 ⟨_, hl⟩, hplace⟩))

/-- **Marks.**  A collection marks what somebody refers to and what the host holds. -/
theorem mem_heldWords : i ∈ m.heldWords ↔ m.Refers i ∨ m.HostHolds i := by
  have hhost : (i ∈ if m.hooks.has .references then m.hooks.references else []) ↔ m.HostHolds i := by
    unfold HostHolds
    split
    · simp_all
    · simp_all
  rw [heldWords, List.mem_append, List.mem_append, hhost, mem_scopes_references]
  refine or_congr_left ⟨?_, ?_⟩
  · rintro (hi | ⟨g, x, hg, hi⟩ | ⟨g, k, x, hx, hi⟩ | ⟨id, n, x, hx, hi | ⟨t, ht, hi⟩⟩)
    · obtain ⟨x, hx, hi⟩ := List.mem_flatMap.1 hi
      obtain ⟨name, hname⟩ := OrdMap.mem_values.1 hx
      exact .constant hname hi
    · exact .global hg hi
    · exact .hub hx hi
    · exact .module hx hi
    · exact .thread hx ht hi
  · intro h
    cases h with
    | constant h hi => exact .inl (List.mem_flatMap.2 ⟨_, OrdMap.mem_values.2 ⟨_, h⟩, hi⟩)
    | global h hi => exact .inr (.inl ⟨_, _, h, hi⟩)
    | hub h hi => exact .inr (.inr (.inl ⟨_, _, _, h, hi⟩))
    | module h hi => exact .inr (.inr (.inr ⟨_, _, _, h, .inl hi⟩))
    | thread h ht hi => exact .inr (.inr (.inr ⟨_, _, _, h, .inr ⟨_, ht, hi⟩⟩))

end Machine

/-! ## What a collection leaves -/

namespace StringTable

variable {t : StringTable}

/-- Marking adds marks and changes nothing else. -/
theorem get?_markAll (t : StringTable) (is : List Word) (i : Word) :
    (t.markAll is).get? i =
      (t.get? i).map fun e => { e with marked := e.marked || decide (i ∈ is) } := by
  induction is generalizing t with
  | nil => simp [markAll]
  | cons j is ih =>
    have hmark : (t.mark j).get? i =
        (t.get? i).map fun e => { e with marked := e.marked || decide (i = j) } := by
      rw [mark, get?_update]
      split
      · simp_all
      · rename_i hij
        simp [Ne.symm hij]
    rw [markAll, List.foldl_cons, ← markAll, ih, hmark, Option.map_map]
    congr 1
    funext e
    simp [Bool.or_assoc]

/-- A collection begins with all marks taken away. -/
theorem get?_beginCollection (t : StringTable) (i : Word) :
    t.beginCollection.get? i = (t.get? i).map unmark := by
  simp only [get?, beginCollection, Array.getElem?_map]
  cases t.slots[i.toNat]? <;> rfl

/-- A string is left by a collection if it is locked or marked in between. -/
theorem get?_collected (t : StringTable) (is : List Word) (i : Word) :
    (t.collected is).2.get? i = ((t.get? i).map fun e => { e with marked := decide (i ∈ is) }).filter
      fun e => !dead e := by
  rw [collected, get?_endCollection, get?_markAll, get?_beginCollection, Option.map_map]
  rfl

/-- What the end of a collection frees, by its slots. -/
theorem exists_freed (hsize : t.slots.size ≤ UInt32.size) : ∃ is : List Word, is.Nodup ∧
    (∀ i, i ∈ is ↔ ∃ e, t.get? i = some e ∧ dead e = true) ∧ is.length = t.endCollection.1 := by
  have hsmall : ∀ p ∈ t.slots.toList.zipIdx, (UInt32.ofNat p.2).toNat = p.2 := by
    intro p hp
    have hget := List.mem_zipIdx_iff_getElem?.1 hp
    rw [Array.getElem?_toList] at hget
    obtain ⟨hlt, -⟩ := Array.getElem?_eq_some_iff.1 hget
    rw [UInt32.toNat_ofNat']
    exact Nat.mod_eq_of_lt (Nat.lt_of_lt_of_le hlt hsize)
  refine ⟨(t.slots.toList.zipIdx.filter fun p => p.1.any dead).map fun p => UInt32.ofNat p.2, ?_,
    fun i => ?_, ?_⟩
  · have hnodup : ((t.slots.toList.zipIdx.filter fun p => p.1.any dead).map Prod.snd).Nodup :=
      (List.nodup_zipIdx_map_snd _).sublist (List.filter_sublist.map _)
    refine List.pairwise_map.2 ((List.pairwise_map.1 hnodup).imp_of_mem fun {p q} hp hq hne heq => hne ?_)
    rw [← hsmall p (List.mem_filter.1 hp).1, heq, hsmall q (List.mem_filter.1 hq).1]
  · simp only [List.mem_map, List.mem_filter]
    constructor
    · rintro ⟨⟨s, k⟩, ⟨hmem, hdead⟩, rfl⟩
      obtain ⟨e, rfl, he⟩ := (Option.any_eq_true _ _).1 hdead
      have hget := List.mem_zipIdx_iff_getElem?.1 hmem
      rw [Array.getElem?_toList] at hget
      exact ⟨e, get?_ofNat hsize hget, he⟩
    · rintro ⟨e, he, hdead⟩
      refine ⟨(some e, i.toNat), ⟨List.mem_zipIdx_iff_getElem?.2 ?_, hdead⟩, by simp⟩
      rw [Array.getElem?_toList]
      exact get?_eq_some_iff.1 he
  · have hslots : t.slots.toList = t.slots.toList.zipIdx.map Prod.fst := (List.zipIdx_map_fst 0 _).symm
    have hfreed : t.endCollection.1 = t.slots.toList.countP fun s => s.any dead := by
      show (t.entries.filter dead).length = _
      rw [entries, ← List.countP_eq_length_filter, List.countP_filterMap]
      refine List.countP_congr fun s _ => ?_
      cases s <;> rfl
    rw [hfreed, List.length_map, ← List.countP_eq_length_filter]
    conv_rhs => rw [hslots, List.countP_map]
    rfl

end StringTable

namespace Machine

variable {m : Machine}

/-- **Collections free exactly the garbage.**  At rest a collection answers how many strings it frees.
It frees every string that is garbage, and leaves every other one with its content, hash, index and
lock count.  Scopes and modules stay as they are, and whoever named a string still names the same
content. -/
theorem collectStrings_exact (m : Machine) (hrest : m.executing = false)
    (hroom : m.strings.capacity ≤ UInt32.size) :
    ∃ (freed : List Word) (m' : Machine), m.collectStrings = (.ok freed.length, m') ∧
      freed.Nodup ∧ (∀ i, i ∈ freed ↔ m.Garbage i) ∧
      (∀ i ∈ freed, m'.strings.get? i = none) ∧
      (∀ i ∉ freed, (m'.strings.get? i).map StringTable.unmark =
        (m.strings.get? i).map StringTable.unmark) ∧
      m'.scopes = m.scopes ∧ m'.modules = m.modules ∧
      ∀ i b, m.Refers i ∨ m.HostHolds i → m.strings.bytes? i = some b → m'.strings.bytes? i = some b := by
  have hsize : (m.strings.beginCollection.markAll m.heldWords).slots.size ≤ UInt32.size := by
    rw [((StringTable.sameStrings_beginCollection _).trans (StringTable.sameStrings_markAll ..)).size_eq]
    exact hroom
  obtain ⟨freed, hnodup, hmem, hlength⟩ := StringTable.exists_freed hsize
  have hgarbage : ∀ i, i ∈ freed ↔ m.Garbage i := by
    intro i
    rw [hmem, StringTable.get?_markAll, StringTable.get?_beginCollection, Garbage, ← not_or,
      ← mem_heldWords]
    cases m.strings.get? i with
    | none => simp
    | some e => simp [StringTable.dead, StringTable.unmark]
  have hget : ∀ i, (m.strings.collected m.heldWords).2.get? i =
      if i ∈ freed then none
      else (m.strings.get? i).map fun e => { e with marked := decide (i ∈ m.heldWords) } := by
    intro i
    have hfreed := hgarbage i
    rw [Garbage, ← not_or, ← mem_heldWords] at hfreed
    rw [StringTable.get?_collected]
    cases he : m.strings.get? i with
    | none => simp
    | some e =>
      have hdead : StringTable.dead { e with marked := decide (i ∈ m.heldWords) } = decide (i ∈ freed) := by
        rw [Bool.eq_iff_iff, decide_eq_true_iff, hfreed, he]
        simp [StringTable.dead]
      simp only [Option.map_some, Option.filter_some, hdead]
      by_cases hi : i ∈ freed <;> simp [hi]
  have hkept : ∀ i ∉ freed, ((m.strings.collected m.heldWords).2.get? i).map StringTable.unmark =
      (m.strings.get? i).map StringTable.unmark := by
    intro i hi
    rw [hget, if_neg hi, Option.map_map]
    rfl
  refine ⟨freed, (m.swept (m.strings.collected m.heldWords).1 (m.strings.collected m.heldWords).2).2, ?_,
    hnodup, hgarbage, fun i hi => (hget i).trans (if_pos hi), hkept, ?_, ?_, fun i b hheld hb => ?_⟩
  · rw [collectStrings_eq m hrest, hlength]
    rfl
  · exact m.report_scopes ..
  · show (m.report .references .references).modules = m.modules
    unfold report
    split <;> rfl
  · have hi : i ∉ freed := fun hi => absurd hheld (not_or.2 ((hgarbage i).1 hi).2)
    have hbytes : ∀ t : StringTable, t.bytes? i = ((t.get? i).map StringTable.unmark).map (·.bytes) := by
      intro t
      rw [Option.map_map]
      rfl
    rw [hbytes] at hb
    rw [hbytes, ← hb]
    exact congrArg _ (hkept i hi)

/-- Three strings: the register of a global scope names the first and the host the second. -/
def threeStrings : Machine :=
  ([.ensure .global {}, .intern [97], .intern [98], .intern [99]] : List Request).foldl
    (fun m r => (m.serve r).2)
    { make { scopeRegCount := 1, scopeArrCount := 0 } with
      hooks := { installed := [.references], references := [1] } }

/-- Only the third string is garbage; the first keeps its content. -/
theorem collectStrings_exact_threeStrings :
    threeStrings.executing = false ∧ threeStrings.strings.capacity ≤ UInt32.size ∧
      ∃ (freed : List Word) (m' : Machine), threeStrings.collectStrings = (.ok freed.length, m') ∧
        freed.length = 1 ∧ threeStrings.Garbage 2 ∧ m'.strings.get? 2 = none ∧
        threeStrings.Refers 0 ∧ m'.strings.bytes? 0 = some [97] := by
  have hrest : threeStrings.executing = false := by decide +kernel
  have hroom : threeStrings.strings.capacity ≤ UInt32.size := by decide +kernel
  obtain ⟨freed, m', hcollect, -, hgarbage, hfreed, -, -, -, hbytes⟩ :=
    collectStrings_exact threeStrings hrest hroom
  have hone : threeStrings.collectStrings.1 = .ok 1 := by decide +kernel
  have hwords : threeStrings.heldWords = [0, 1] := by decide +kernel
  have hlength : freed.length = 1 := by
    rw [hcollect] at hone
    exact Except.ok.inj hone
  have hthird : threeStrings.Garbage 2 := by
    refine ⟨Option.isSome_iff_exists.1 ?_ |>.imp fun e he => ⟨he, ?_⟩, not_or.1 fun h => ?_⟩
    · decide +kernel
    · have hlocks : ∀ e ∈ threeStrings.strings.get? 2, e.locks = 0 := by decide +kernel
      exact hlocks e he
    · have hheld := mem_heldWords.2 h
      rw [hwords] at hheld
      exact absurd hheld (by decide)
  have hfirst : threeStrings.Refers 0 := by
    have hvars : ∀ x ∈ threeStrings.scopes.global? 0, 0 ∈ x.vars.regs := by decide +kernel
    obtain ⟨x, hx⟩ := Option.isSome_iff_exists.1
      (show (threeStrings.scopes.global? 0).isSome = true by decide +kernel)
    exact .global hx (.inl (hvars x hx))
  exact ⟨hrest, hroom, freed, m', hcollect, hlength, hthird, hfreed 2 ((hgarbage 2).2 hthird), hfirst,
    hbytes 0 [97] (.inl hfirst) (by decide +kernel)⟩

end Machine

end ScriptMachine
