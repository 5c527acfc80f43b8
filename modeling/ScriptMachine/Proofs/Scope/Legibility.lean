import Mathlib.Data.List.Forall2
import ScriptMachine.Proofs.Scope.RoundTrip

/-!
# Which saved scopes can be read

Two things of a thread are checked when it is read back: that its module has its script, and that its
current frame begins within its locals.  Threads for which both hold are legible (`Thread.Legible`).
Saved scopes are read back if all their threads are legible, and otherwise they are refused before
the bytes end (`Reader.Judges`), because more is written of a thread behind what is checked.
-/

namespace ScriptMachine

open Reader

namespace Reader

variable {α β γ : Type}

/-- The reader takes what was written if `P` holds, and answers something with the property `Q`; else
it finds something that cannot be, before it comes to the end. -/
structure Judges (r : Reader α) (bytes : Bytes) (P : Prop) (Q : α → Prop) : Prop where
  takes : P → ∃ a, Q a ∧ Reads r bytes a
  refuses : ¬ P → ∃ front back d, bytes = front ++ back ∧ back ≠ [] ∧
    ∀ rest, r (front ++ rest) = .error (.malformed d)

/-- A field that can always be read comes before one that is judged. -/
theorem Reads.judges {r : Reader α} {f : α → Reader β} {b c : Bytes} {x : α} {P : Prop}
    {Q : β → Prop} (hr : Reads r b x) (hf : Judges (f x) c P Q) : Judges (r >>= f) (b ++ c) P Q := by
  constructor
  · intro hP
    obtain ⟨y, hQ, hy⟩ := hf.takes hP
    exact ⟨y, hQ, hr.bind hy⟩
  · intro hP
    obtain ⟨front, back, d, rfl, hback, herror⟩ := hf.refuses hP
    refine ⟨b ++ front, back, d, (List.append_assoc ..).symm, hback, fun rest => ?_⟩
    rw [bind_apply, List.append_assoc, hr]
    exact herror rest

/-- Two fields that are judged one after the other. -/
theorem Judges.bind {r : Reader α} {f : α → Reader β} {b c : Bytes} {P P' : Prop} {Q : α → Prop}
    {Q' : β → Prop} (hr : Judges r b P Q) (hf : ∀ a, Q a → Judges (f a) c P' Q') :
    Judges (r >>= f) (b ++ c) (P ∧ P') Q' := by
  constructor
  · intro hP
    obtain ⟨a, hQ, ha⟩ := hr.takes hP.1
    obtain ⟨y, hQ', hy⟩ := (hf a hQ).takes hP.2
    exact ⟨y, hQ', ha.bind hy⟩
  · intro hnot
    by_cases hP : P
    · obtain ⟨a, hQ, ha⟩ := hr.takes hP
      exact (ha.judges (hf a hQ)).refuses fun hP' => hnot ⟨hP, hP'⟩
    · obtain ⟨front, back, d, rfl, hback, herror⟩ := hr.refuses hP
      refine ⟨front, back ++ c, d, List.append_assoc .., by simp [hback], fun rest => ?_⟩
      rw [bind_apply, herror]

/-- A field that is judged comes before one that can always be read. -/
theorem Judges.reads {r : Reader α} {f : α → Reader β} {b c : Bytes} {P : Prop} {Q : α → Prop}
    {Q' : β → Prop} (hr : Judges r b P Q) (hf : ∀ a, Q a → ∃ y, Q' y ∧ Reads (f a) c y) :
    Judges (r >>= f) (b ++ c) P Q' := by
  have hjudges : Judges (r >>= f) (b ++ c) (P ∧ True) Q' :=
    hr.bind fun a hQ => ⟨fun _ => hf a hQ, fun hfalse => absurd trivial hfalse⟩
  rwa [and_true] at hjudges

/-- The value just judged, changed. -/
theorem Judges.map {r : Reader α} {b : Bytes} {P : Prop} {Q : α → Prop} {Q' : β → Prop}
    (hr : Judges r b P Q) (g : α → β) (hg : ∀ a, Q a → Q' (g a)) :
    Judges (r >>= fun a => Pure.pure (g a)) b P Q' := by
  have hjudges := hr.reads (f := fun a => Pure.pure (g a)) (c := [])
    fun a hQ => ⟨g a, hg a hQ, .pure (g a)⟩
  rwa [List.append_nil] at hjudges

/-- Values that are judged one after another, each at its own position. -/
theorem Judges.timesFrom {r : Nat → Reader β} {w : α → Bytes} {P : α → Prop} {Q : α → β → Prop}
    {xs : List α} {i : Nat} (h : ∀ j x, xs[j]? = some x → Judges (r (i + j)) (w x) (P x) (Q x)) :
    Judges (timesFrom r i xs.length) (xs.flatMap w) (∀ x ∈ xs, P x) (List.Forall₂ Q xs) := by
  induction xs generalizing i with
  | nil => exact ⟨fun _ => ⟨[], .nil, .pure []⟩, fun hfalse => absurd (by simp) hfalse⟩
  | cons x xs ih =>
    have hx : Judges (r i) (w x) (P x) (Q x) := h 0 x rfl
    have hxs : Judges (Reader.timesFrom r (i + 1) xs.length) (xs.flatMap w) (∀ y ∈ xs, P y)
        (List.Forall₂ Q xs) := by
      apply ih
      intro j y hy
      have hj := h (j + 1) y (by simpa using hy)
      rwa [show i + (j + 1) = i + 1 + j by omega] at hj
    rw [List.forall_mem_cons]
    exact hx.bind fun y hy => hxs.map (y :: ·) fun ys hys => .cons hy hys

/-- Reading a number of times, by position or not. -/
theorem times_eq_timesFrom (r : Reader α) (i n : Nat) : times r n = timesFrom (fun _ => r) i n := by
  induction n generalizing i with
  | zero => rfl
  | succ n ih =>
    unfold times timesFrom
    rw [ih (i + 1)]

/-- Values after their number are judged, each at its own position. -/
theorem Judges.listFrom {r : Nat → Reader β} {w : α → Bytes} {P : α → Prop} {Q : α → β → Prop}
    {xs : List α} (hlen : xs.length < 2 ^ 64)
    (h : ∀ j x, xs[j]? = some x → Judges (r j) (w x) (P x) (Q x)) :
    Judges (listFrom r) (Writer.list w xs) (∀ x ∈ xs, P x) (List.Forall₂ Q xs) :=
  (Varint.reads_size hlen).judges (.timesFrom (by simpa using h))

/-- Values after their number are judged. -/
theorem Judges.list {r : Reader β} {w : α → Bytes} {P : α → Prop} {xs : List α}
    (hlen : xs.length < 2 ^ 64) (h : ∀ x ∈ xs, Judges r (w x) (P x) fun _ => True) :
    Judges (list r) (Writer.list w xs) (∀ x ∈ xs, P x) fun _ => True := by
  refine (Varint.reads_size hlen).judges ?_
  rw [times_eq_timesFrom r 0]
  have hjudges := Judges.timesFrom (r := fun _ => r) (i := 0) (Q := fun _ _ => True)
    fun j x hx => h x (List.mem_of_getElem? hx)
  exact ⟨fun hP => (hjudges.takes hP).imp fun _ ha => ⟨trivial, ha.2⟩, hjudges.refuses⟩

end Reader

/-! ## Threads -/

/-- What is checked of a thread that is read back. -/
def Thread.Legible (x : Module) (t : Thread) : Prop :=
  t.scriptIndex < x.scripts.size ∧ t.BasesWithin

/-- Something is written of every thread behind what is checked. -/
theorem Thread.writeStatus_ne_nil (t : Thread) : t.writeStatus ≠ [] := by
  have hresult : Varint.writeWord t.result ≠ [] := by
    rw [Varint.writeWord, Varint.write, Varint.maxBytes, Varint.writeGroups]
    split <;> simp
  simp [Thread.writeStatus, hresult]

/-- Reading a thread judges where its bytes are cut, if it is legible. -/
theorem judges_thread {t : Thread} (h : t.Sized) (x : LoadedModule) (scope : ScopeId) (i : Nat) :
    Judges (Thread.read x scope i) t.write (t.Legible x.toModule) fun _ => True := by
  constructor
  · rintro ⟨hscript, hbases⟩
    refine ⟨t.renewed x scope i, trivial, fun rest => ?_⟩
    rw [Thread.read_write h, if_neg (Nat.not_le_of_lt hscript), if_pos hbases]
  · intro hnot
    have herror : ∃ d, ∀ rest, Thread.read x scope i (t.writeLocals ++ rest) =
        .error (.malformed d) := by
      by_cases hscript : x.scripts.size ≤ t.scriptIndex
      · refine ⟨.threadScript t.id t.scriptIndex, fun rest => ?_⟩
        rw [Thread.read_writeLocals h, if_pos hscript]
      · refine ⟨.threadBase t.id, fun rest => ?_⟩
        have hbases : ¬ t.BasesWithin := fun hbases => hnot ⟨Nat.lt_of_not_le hscript, hbases⟩
        rw [Thread.read_writeLocals h, if_neg hscript, if_neg hbases]
    obtain ⟨d, herror⟩ := herror
    exact ⟨t.writeLocals, t.writeStatus, d, t.write_eq, t.writeStatus_ne_nil, herror⟩

/-! ## Scopes -/

variable {modules : List LoadedModule} {number σ : ModuleName → Nat}

/-- Reading a module scope judges where its bytes are cut, up to the first thread that is not legible. -/
theorem judges_moduleScope {s : ModuleScope} {scope : ScopeId} {i : Nat} (hsized : s.Sized)
    (hcount : modules.length < 2 ^ 64) (hlisted : Listed modules number σ s.module) :
    Judges (ModuleScope.read modules scope i) (s.write number)
      (∀ t ∈ s.threads, t.Legible s.module.toModule) fun s' => s'.module = s.module.recast σ := by
  have hlt : number s.module.name < modules.length := (List.getElem?_eq_some_iff.1 hlisted).1
  have hmodule : modules[number s.module.name]? = some (s.module.recast σ) := hlisted
  unfold ModuleScope.read ModuleScope.write
  rw [List.append_assoc]
  refine (Varint.reads_size (Nat.lt_trans hlt hcount)).judges ?_
  simp only [hmodule]
  refine (reads_vars hsized.vars).judges (Judges.map (.list hsized.count fun t ht => ?_) _ ?_)
  · exact judges_thread (hsized.thread t ht) (s.module.recast σ) scope i
  · exact fun _ _ => rfl

/-- Every thread of the map is legible. -/
def MapScope.Legible (m : MapScope) : Prop :=
  ∀ s ∈ m.modules, ∀ t ∈ s.threads, t.Legible s.module.toModule

/-- What it takes to read a map back, besides threads that are legible. -/
structure MapScope.Enlisted (modules : List LoadedModule) (number σ : ModuleName → Nat)
    (m : MapScope) : Prop where
  sized : m.Sized
  led : m.Led
  listed : ∀ s ∈ m.modules, Listed modules number σ s.module

/-- Reading a map judges where its bytes are cut, up to the first thread that is not legible. -/
theorem judges_map {global hub : Word} {p : Word × MapScope} (hcount : modules.length < 2 ^ 64)
    (h : p.2.Enlisted modules number σ) :
    Judges (MapScope.read modules global hub) (MapScope.write number p) p.2.Legible
      fun _ => True := by
  unfold MapScope.read MapScope.write
  simp only [List.append_assoc]
  refine (Varint.reads_writeWord p.1).judges ((reads_bool p.2.active).judges ?_)
  refine (Varint.reads_writeWord p.2.nextThreadId).judges ?_
  have hmodules : Judges (listFrom (ModuleScope.read modules ⟨global, hub, p.1⟩))
      (Writer.list (ModuleScope.write number) p.2.modules) p.2.Legible
      (List.Forall₂ (fun s s' => s'.module = s.module.recast σ) p.2.modules) :=
    .listFrom h.sized.count fun i s hs => judges_moduleScope
      (h.sized.module s (List.mem_of_getElem? hs)) hcount (h.listed s (List.mem_of_getElem? hs))
  refine hmodules.reads fun scopes hscopes => ⟨_, trivial, Reads.map _ (Reads.listSelf h.sized.slots ?_)⟩
  -- a slot is found in the modules as they were read
  intro q hq
  obtain ⟨s, hs, hscript⟩ := h.led q.1 q.2 (OrdMap.mem_entries.1 hq)
  obtain ⟨hlt, rfl⟩ := List.getElem?_eq_some_iff.1 hs
  have hlt' : q.2.moduleIndex < scopes.length := hscopes.length_eq ▸ hlt
  have hsame := List.Forall₂.get hscopes hlt hlt'
  simp only [List.get_eq_getElem] at hsame
  refine reads_slot (h.sized.slot q hq) (List.getElem?_eq_getElem hlt') ?_
  rw [hsame]
  exact hscript

/-- Reading a hub judges where its bytes are cut, up to the first thread that is not legible. -/
theorem judges_hub {global : Word} {p : Word × HubScope} (hcount : modules.length < 2 ^ 64)
    (hsized : p.2.Sized) (h : ∀ q ∈ p.2.maps.entries, q.2.Enlisted modules number σ) :
    Judges (HubScope.read modules global) (HubScope.write number p)
      (∀ q ∈ p.2.maps.entries, q.2.Legible) fun _ => True := by
  unfold HubScope.read HubScope.write
  simp only [List.append_assoc]
  refine (Varint.reads_writeWord p.1).judges ((reads_bool p.2.active).judges ?_)
  refine (reads_vars hsized.vars).judges (Judges.map (.list hsized.count fun q hq => ?_) _ ?_)
  · exact judges_map hcount (h q hq)
  · exact fun _ _ => trivial

/-- Reading a global scope judges where its bytes are cut, up to the first thread that is not legible. -/
theorem judges_global {p : Word × GlobalScope} (hcount : modules.length < 2 ^ 64)
    (hsized : p.2.Sized)
    (h : ∀ q ∈ p.2.hubs.entries, ∀ k ∈ q.2.maps.entries, k.2.Enlisted modules number σ) :
    Judges (GlobalScope.read modules) (GlobalScope.write number p)
      (∀ q ∈ p.2.hubs.entries, ∀ k ∈ q.2.maps.entries, k.2.Legible) fun _ => True := by
  unfold GlobalScope.read GlobalScope.write
  simp only [List.append_assoc]
  refine (Varint.reads_writeWord p.1).judges ((reads_bool p.2.active).judges ?_)
  refine (reads_vars hsized.vars).judges (Judges.map (.list hsized.count fun q hq => ?_) _ ?_)
  · exact judges_hub hcount (hsized.hub q.2 (List.mem_map_of_mem hq)) (h q hq)
  · exact fun _ _ => trivial

/-- The maps of a tree are the ones that are walked when it is written. -/
theorem ScopeTree.forall_maps_iff {s : ScopeTree} {P : MapScope → Prop} :
    (∀ id m, s.map? id = some m → P m) ↔
      ∀ g ∈ s.globals.entries, ∀ h ∈ g.2.hubs.entries, ∀ k ∈ h.2.maps.entries, P k.2 := by
  constructor
  · intro hall g hg h hh k hk
    apply hall ⟨g.1, h.1, k.1⟩
    have hglobal : s.global? g.1 = some g.2 := OrdMap.mem_entries.1 hg
    have hhub : s.hub? g.1 h.1 = some h.2 := by
      rw [ScopeTree.hub?, hglobal]
      exact OrdMap.mem_entries.1 hh
    rw [ScopeTree.map?, hhub]
    exact OrdMap.mem_entries.1 hk
  · intro hall id m hm
    obtain ⟨g, h, hglobal, hhub, hmap⟩ := exists_of_map? hm
    exact hall (_, g) (OrdMap.mem_entries.2 hglobal) (_, h) (OrdMap.mem_entries.2 hhub) (_, m)
      (OrdMap.mem_entries.2 hmap)

end ScriptMachine
