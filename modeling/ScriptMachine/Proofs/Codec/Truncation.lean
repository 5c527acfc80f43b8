import ScriptMachine.Codec.Names
import ScriptMachine.Proofs.Codec.Reads

/-!
# Readers notice where bytes end

A reader is self-delimiting (`Reader.SelfDelimiting`) if it needs every byte it takes: with anything
behind them it answers the same, and cut short anywhere they are too few, so that it answers
`endOfStream` and nothing else.  Reading a byte is self-delimiting, sequencing and repetition keep the
property, and checks on what was read take no bytes.  So every reader of the formats has it, whatever
it checks on the way, since a reader that succeeded has passed its checks.
-/

namespace ScriptMachine

namespace Reader

variable {α β : Type}

/-- From `bytes` at the front the reader takes `a` and nothing else, and it needs all of them. -/
structure Uses (r : Reader α) (bytes : Bytes) (a : α) : Prop where
  reads : Reads r bytes a
  needs : ∀ front back, bytes = front ++ back → back ≠ [] → r front = .error .endOfStream

/-- Whatever the reader answers, it needs all the bytes it took. -/
def SelfDelimiting (r : Reader α) : Prop :=
  ∀ s a rest, r s = .ok (a, rest) → ∃ bytes, s = bytes ++ rest ∧ Uses r bytes a

/-! ## What follows for streams -/

/-- More bytes behind a stream are left. -/
theorem SelfDelimiting.append {r : Reader α} (hr : SelfDelimiting r) {s rest : Bytes} {a : α}
    (h : r s = .ok (a, rest)) (more : Bytes) : r (s ++ more) = .ok (a, rest ++ more) := by
  obtain ⟨bytes, rfl, huses⟩ := hr s a rest h
  rw [List.append_assoc]
  exact huses.reads (rest ++ more)

/-- What is read to the last byte is read with anything behind it. -/
theorem SelfDelimiting.reads {r : Reader α} (hr : SelfDelimiting r) {s : Bytes} {a : α}
    (h : r s = .ok (a, [])) : Reads r s a := fun rest => hr.append h rest

/-- A stream that is cut within the bytes that were taken is too short. -/
theorem SelfDelimiting.cut {r : Reader α} (hr : SelfDelimiting r) {front back rest : Bytes} {a : α}
    (h : r (front ++ back) = .ok (a, rest)) (hback : rest.length < back.length) :
    r front = .error .endOfStream := by
  obtain ⟨bytes, hbytes, huses⟩ := hr _ a rest h
  rcases List.append_eq_append_iff.1 hbytes with ⟨mid, hmid, hrest⟩ | ⟨mid, hmid, hrest⟩
  · apply huses.needs front mid hmid
    intro hnil
    rw [hrest, hnil] at hback
    exact absurd hback (Nat.lt_irrefl _)
  · rw [hrest, List.length_append] at hback
    omega

/-! ## Sequencing and repetition -/

/-- A reader that reads nothing uses nothing. -/
theorem Uses.pure (a : α) : Uses (Pure.pure a) [] a := by
  refine ⟨Reads.pure a, ?_⟩
  intro front back h hback
  exact absurd (List.append_eq_nil_iff.1 h.symm).2 hback

/-- Two fields need the bytes of both: a cut falls into the first, or the first is whole and the cut
falls into the second. -/
theorem Uses.bind {r : Reader α} {f : α → Reader β} {b c : Bytes} {x : α} {y : β}
    (hr : Uses r b x) (hf : Uses (f x) c y) : Uses (r >>= f) (b ++ c) y := by
  refine ⟨hr.reads.bind hf.reads, ?_⟩
  intro front back h hback
  have hwhole : ∀ mid, c = mid ++ back → (r >>= f) (b ++ mid) = .error .endOfStream := by
    intro mid hmid
    rw [bind_apply, hr.reads mid]
    exact hf.needs mid back hmid hback
  rcases List.append_eq_append_iff.1 h with ⟨mid, hmid, hc⟩ | ⟨mid, hmid, hc⟩
  · rw [hmid]
    exact hwhole mid hc
  · by_cases hnil : mid = []
    · subst hnil
      rw [List.append_nil] at hmid
      rw [← hmid, ← List.append_nil b]
      exact hwhole [] hc.symm
    · rw [bind_apply, hr.needs front mid hmid hnil]

/-- A reader that reads nothing does not look behind. -/
theorem SelfDelimiting.pure (a : α) : SelfDelimiting (Pure.pure a) := by
  intro s b rest h
  cases h
  exact ⟨[], rfl, Uses.pure a⟩

/-- A reader that fails has nothing to need. -/
theorem SelfDelimiting.fail (e : ReadError) : SelfDelimiting (throw e : Reader α) := by
  intro s a rest h
  cases h

/-- Nor does it matter what would come after it. -/
theorem SelfDelimiting.fail_bind (e : ReadError) (f : α → Reader β) :
    SelfDelimiting ((throw e : Reader α) >>= f) := by
  intro s b rest h
  cases h

/-- A reader that fails at once does not look behind. -/
theorem SelfDelimiting.malformed (d : Defect) : SelfDelimiting (Reader.malformed d : Reader α) :=
  .fail _

/-- Two self-delimiting readers are one, the second of which may depend on what the first read. -/
theorem SelfDelimiting.bind {r : Reader α} {f : α → Reader β} (hr : SelfDelimiting r)
    (hf : ∀ a, SelfDelimiting (f a)) : SelfDelimiting (r >>= f) := by
  intro s b rest h
  rw [bind_apply] at h
  cases hs : r s with
  | error e =>
    rw [hs] at h
    cases h
  | ok p =>
    obtain ⟨a, mid⟩ := p
    rw [hs] at h
    obtain ⟨bytes, rfl, huses⟩ := hr s a mid hs
    obtain ⟨bytes', rfl, huses'⟩ := hf a mid b rest h
    exact ⟨bytes ++ bytes', (List.append_assoc ..).symm, huses.bind huses'⟩

/-- Changing what was read makes no difference. -/
theorem SelfDelimiting.map {r : Reader α} (hr : SelfDelimiting r) (f : α → β) :
    SelfDelimiting (r >>= fun a => Pure.pure (f a)) :=
  hr.bind fun a => .pure (f a)

/-- Reading a number of times does not look behind. -/
theorem SelfDelimiting.times {r : Reader α} (hr : SelfDelimiting r) (n : Nat) :
    SelfDelimiting (times r n) := by
  induction n with
  | zero => exact .pure []
  | succ n ih => exact hr.bind fun x => ih.map (x :: ·)

/-- Reading a number of times, each time by its position, does not look behind. -/
theorem SelfDelimiting.timesFrom {r : Nat → Reader α} (hr : ∀ i, SelfDelimiting (r i)) (i n : Nat) :
    SelfDelimiting (timesFrom r i n) := by
  induction n generalizing i with
  | zero => exact .pure []
  | succ n ih => exact (hr i).bind fun x => (ih (i + 1)).map (x :: ·)

/-! ## The readers of bytes -/

theorem selfDelimiting_byte : SelfDelimiting byte := by
  intro s a rest h
  cases s with
  | nil => cases h
  | cons b s =>
    cases h
    refine ⟨[a], rfl, fun rest => rfl, ?_⟩
    intro front back hcut hback
    cases front with
    | nil => rfl
    | cons c front =>
      have hnil : front ++ back = [] := (List.cons.inj hcut).2.symm
      exact absurd (List.append_eq_nil_iff.1 hnil).2 hback

theorem selfDelimiting_block (n : Nat) : SelfDelimiting (block n) := by
  intro s a rest h
  unfold block at h
  by_cases hn : (s.take n).length = n
  · rw [if_pos hn] at h
    cases h
    refine ⟨s.take n, (List.take_append_drop n s).symm, ?_, ?_⟩
    · intro rest
      have hblock := reads_block (s.take n) rest
      rwa [hn] at hblock
    · intro front back hcut hback
      have hlength : front.length < n := by
        rw [← hn, hcut, List.length_append]
        have hpos := List.length_pos_iff.2 hback
        omega
      have hshort : (front.take n).length ≠ n := by
        rw [List.length_take]
        omega
      exact if_neg hshort
  · rw [if_neg hn] at h
    cases h

theorem selfDelimiting_signature (expected : Bytes) : SelfDelimiting (signature expected) := by
  refine (selfDelimiting_block 4).bind fun found => ?_
  split
  · exact .pure ()
  · exact .fail _

theorem selfDelimiting_bool : SelfDelimiting bool := by
  refine selfDelimiting_byte.bind fun b => ?_
  split
  · exact .pure false
  · exact .pure true
  · exact .malformed _

theorem selfDelimiting_word32 : SelfDelimiting word32 := (selfDelimiting_block 4).map _

end Reader

namespace Varint

open Reader

/-- Groups of bits end with the first one that says so. -/
theorem selfDelimiting_readGroups (range : IntRange) (left shift v : Nat) :
    SelfDelimiting (readGroups range left shift v) := by
  induction left generalizing shift v with
  | zero => exact .fail _
  | succ left ih =>
    unfold readGroups
    refine selfDelimiting_byte.bind fun b => ?_
    dsimp only
    split
    · exact .fail_bind _ _
    · split
      · exact ih _ _
      · split
        · exact .fail _
        · exact .pure _

/-- A number ends by itself. -/
theorem selfDelimiting_read (range : IntRange) : SelfDelimiting (read range) :=
  selfDelimiting_readGroups range maxBytes 0 0

theorem selfDelimiting_readWord : SelfDelimiting readWord := (selfDelimiting_read .bits32).map _

theorem selfDelimiting_readSigned : SelfDelimiting readSigned := selfDelimiting_readWord.map _

theorem selfDelimiting_readSize : SelfDelimiting readSize := selfDelimiting_read .size

end Varint

namespace Reader

variable {α : Type}

/-- A string ends by itself, after its length. -/
theorem selfDelimiting_string : SelfDelimiting string :=
  Varint.selfDelimiting_readSize.bind selfDelimiting_block

/-- A list ends by itself, after its length. -/
theorem SelfDelimiting.list {r : Reader α} (hr : SelfDelimiting r) : SelfDelimiting (list r) :=
  Varint.selfDelimiting_readSize.bind hr.times

/-- A list whose elements are read by their positions ends by itself. -/
theorem SelfDelimiting.listFrom {r : Nat → Reader α} (hr : ∀ i, SelfDelimiting (r i)) :
    SelfDelimiting (listFrom r) :=
  Varint.selfDelimiting_readSize.bind (.timesFrom hr 0)

theorem selfDelimiting_words : SelfDelimiting words := Varint.selfDelimiting_readWord.list

end Reader

open Reader

theorem selfDelimiting_moduleName : SelfDelimiting ModuleName.read := by
  refine selfDelimiting_string.bind fun bytes => ?_
  split
  · exact .malformed _
  · exact Varint.selfDelimiting_readSize.bind fun aux => Varint.selfDelimiting_readSize.map _

theorem selfDelimiting_scriptName : SelfDelimiting ScriptName.read := by
  refine (Varint.selfDelimiting_read .bits8).bind fun kind => ?_
  split
  · exact Varint.selfDelimiting_readSigned.map _
  · exact selfDelimiting_string.map _
  · exact .malformed _

end ScriptMachine
