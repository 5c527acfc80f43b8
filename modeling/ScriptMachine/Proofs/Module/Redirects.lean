import ScriptMachine.Proofs.Machine.Takes
import ScriptMachine.Proofs.Module.Acceptance

/-!
# Redirected opcodes

A raw opcode may stand for a function call that gets some of its arguments from the instruction and from
the code table (`Redirect`).  The loader makes several instructions of it: one push for each of these
arguments and then the call.  Running them comes to one call with the arguments that the redirect means
(`Redirect.arguments`), whatever is on the stack and wherever the instructions stand (`Machine.Calls`).

In a module that is loaded each redirect has such a place, and jumps to its byte offset lead there
(`Module.redirects_call`).
-/

namespace ScriptMachine

open Machine (fetchAt loop turn execWith step)

/-! ## Arguments -/

/-- The arguments of a redirected call: so many words from the stack in the order they were pushed, with
zeros in front for those that are missing, then the operands of the instruction, then the implicit words.
The stack has its top first. -/
def Redirect.arguments (r : Redirect) (operands stack : List Word) : List Word :=
  let given := stack.take r.stack.toNat
  List.replicate (r.stack.toNat - given.length) 0 ++ given.reverse ++ operands ++ r.implicit

/-- How many words a redirect passes. -/
def Redirect.total (r : Redirect) : Nat := r.stack.toNat + r.inline.toNat + r.implicit.length

/-- A redirect has a number of arguments that fits a word. -/
theorem Redirect.toNat_argCount {r : Redirect} (h : r.total ≤ Thread.maxArgs) :
    r.argCount.toNat = r.total := by
  simp only [total, Thread.maxArgs] at h
  simp only [argCount, total, UInt32.toNat_add, UInt32.toNat_ofNat']
  omega

/-- With the operands and the implicit words on the stack, a call takes the arguments of the redirect. -/
theorem Redirect.takeArgs_pushed {r : Redirect} (h : r.total ≤ Thread.maxArgs) {operands ws : List Word}
    (hinline : operands.length = r.inline.toNat) (hws : ws = operands ++ r.implicit) (t : Thread) :
    { t with stack := ws.reverse ++ t.stack }.takeArgs r.argCount =
      (r.arguments operands t.stack, { t with stack := t.stack.drop r.stack.toNat }) := by
  have hcount : min r.argCount.toNat Thread.maxArgs = ws.reverse.length + r.stack.toNat := by
    rw [toNat_argCount h, Nat.min_eq_left h, total, hws, List.length_reverse, List.length_append, hinline]
    omega
  have htake : (ws.reverse ++ t.stack).take (ws.reverse.length + r.stack.toNat) =
      ws.reverse ++ t.stack.take r.stack.toNat := List.take_length_add_append ..
  have hdrop : (ws.reverse ++ t.stack).drop (ws.reverse.length + r.stack.toNat) =
      t.stack.drop r.stack.toNat := List.drop_length_add_append ..
  simp only [Thread.takeArgs, hcount, htake, hdrop, List.length_append, Nat.add_sub_add_left]
  rw [arguments, List.reverse_append, List.reverse_reverse, hws, List.append_assoc, List.append_assoc]

/-! ## One call -/

namespace Machine

/-- Calls the function with a number, with these arguments. -/
def invoke (host : Host) (turn : Turn) (exec : Machine → Option Machine) (m : Machine) (t : Thread)
    (func : Word) (args : List Word) : Option (Machine × Thread × Bool) :=
  if func < m.settings.funcBase then
    match m.builtins.find? func with
    | some f => (m.callBuiltin turn t f args).map fun (m, t) => (m, t, false)
    | none => m.killStep t .unknownFunc func
  else
    match m.hostFuncs[(func - m.settings.funcBase).toNat]? with
    | some key => (host key args).run turn exec m t
    | none => m.killStep t .unknownFunc func

variable {host : Host} {turn : Turn} {exec : Machine → Option Machine} {m : Machine} {t : Thread}

/-- An instruction that calls a function takes the arguments from the stack. -/
theorem callFunc_eq_invoke (count func : Word) : callFunc host turn exec m t count func =
    invoke host turn exec m (t.takeArgs count).2 func (t.takeArgs count).1 := rfl

end Machine

/-! ## Running the words of a redirect -/

/-- The instructions that push words. -/
def pushes (ws : List Word) : List Instruction := ws.map fun w => (.pushLit, [w])

/-- The instructions of a redirect. -/
def Redirect.instructions (r : Redirect) (operands : List Word) : List Instruction :=
  pushes (operands ++ r.implicit) ++ [(.callFunc, [r.argCount, r.func])]

namespace Machine

variable {host : Host} {limit count : Word} {module : LoadedModule} {fuel : Nat} {m : Machine}
  {t : Thread} {pre post : List Instruction}

/-- The count of instructions after `n` more of them. -/
def countOn (limit count : Word) (n : Nat) : Word := if limit = 0 then count else count + UInt32.ofNat n

/-- Counting nothing. -/
theorem countOn_zero (limit count : Word) : countOn limit count 0 = count := by
  rw [countOn]
  split
  · rfl
  · exact UInt32.add_zero count

/-- Counting one instruction and then others. -/
theorem countOn_succ (limit count : Word) (n : Nat) :
    countOn limit (if limit = 0 then count else count + 1) n = countOn limit count (n + 1) := by
  simp only [countOn]
  split
  · rfl
  · rw [UInt32.ofNat_add, UInt32.add_assoc, UInt32.add_comm (UInt32.ofNat n)]
    rfl

/-- Counting others and then one instruction. -/
theorem countOn_add_one (limit count : Word) (n : Nat) :
    (if limit = 0 then countOn limit count n else countOn limit count n + 1) =
      countOn limit count (n + 1) := by
  simp only [countOn]
  split
  · rfl
  · rw [UInt32.ofNat_add, UInt32.add_assoc]
    rfl

/-- The count is a sum as long as it fits a word. -/
theorem toNat_countOn {n : Nat} (hlimit : limit ≠ 0) (hfits : count.toNat + n < UInt32.size) :
    (countOn limit count n).toNat = count.toNat + n := by
  have hsize : count.toNat + n < 4294967296 := hfits
  rw [countOn, if_neg hlimit, UInt32.toNat_add, UInt32.toNat_ofNat']
  omega

/-- **Pushes.**  A turn that may still run so many instructions passes over the pushes of as many
words. -/
theorem passes_pushes (ws : List Word) (hcode : module.code.toList = spell (pre ++ pushes ws ++ post))
    (hstate : t.state = .running) (hdelay : t.delay = 0) (hplace : t.codePtr = (spell pre).length)
    (hlimit : limit = 0 ∨ count.toNat + ws.length ≤ limit.toNat) :
    Passes host limit module (fuel + ws.length) count m t fuel (countOn limit count ws.length) m
      { t with
        stack := ws.reverse ++ t.stack
        codePtr := (spell (pre ++ pushes ws)).length } := by
  induction ws generalizing pre t count with
  | nil =>
    have hsame : { t with
        stack := ([] : List Word).reverse ++ t.stack
        codePtr := (spell (pre ++ pushes [])).length } = t := by
      rw [show pre ++ pushes [] = pre from List.append_nil _, ← hplace]
      rfl
    rw [List.length_nil, countOn_zero, hsame]
    exact .here
  | cons w ws ih =>
    have hsplit : pre ++ pushes (w :: ws) ++ post = pre ++ (.pushLit, [w]) :: (pushes ws ++ post) := by
      simp [pushes]
    have hfetch : fetchAt module.code t.codePtr = .ok (.pushLit, [w]) := by
      rw [hplace]
      exact fetchAt_spell (hsplit ▸ hcode) rfl
    have hone : (spell (pre ++ [(.pushLit, [w])])).length = t.codePtr + 1 + Opcode.pushLit.arity := by
      rw [spell_append, List.length_append, hplace]
      rfl
    have hrest : pre ++ [(.pushLit, [w])] ++ pushes ws = pre ++ pushes (w :: ws) := by simp [pushes]
    have hlt : limit = 0 ∨ count < limit := by
      refine hlimit.imp_right fun hle => UInt32.lt_iff_toNat_lt.2 ?_
      rw [List.length_cons] at hle
      omega
    have hcount : limit = 0 ∨
        (if limit = 0 then count else count + 1).toNat + ws.length ≤ limit.toNat := by
      rcases hlimit with hzero | hle
      · exact .inl hzero
      · refine .inr ?_
        rw [List.length_cons] at hle
        have hmax := limit.toNat_lt
        split
        · omega
        · rw [UInt32.toNat_add, UInt32.toNat_one, Nat.mod_eq_of_lt (by omega)]
          omega
    have hcode' : module.code.toList = spell (pre ++ [(.pushLit, [w])] ++ pushes ws ++ post) := by
      rw [hrest, hcode]
    have hpasses := ih hcode'
      (t := { t with stack := w :: t.stack, codePtr := t.codePtr + 1 + Opcode.pushLit.arity })
      hstate hdelay hone.symm hcount
    rw [countOn_succ, hrest] at hpasses
    refine .next hstate hdelay hlt hfetch rfl ?_
    simpa [Thread.push] using hpasses

/-- The words of these instructions stand in the code from the place `p` on. -/
def StandsAt (code : Array Word) (p : Nat) (is : List Instruction) : Prop :=
  ∃ pre post, code.toList = spell (pre ++ is ++ post) ∧ p = (spell pre).length

/-- From the place `p` of the code on, the words of the redirect make one call of its function with its
arguments. -/
structure Calls (host : Host) (module : LoadedModule) (p : Nat) (r : Redirect) (operands : List Word) :
    Prop where
  /-- A turn that may run so far makes the call, with the rest of the stack left to the thread, and goes
  on behind the words. -/
  calls : ∀ {fuel : Nat} {limit count : Word} {m : Machine} {t : Thread}, t.state = .running →
    t.delay = 0 → t.codePtr = p →
    (limit = 0 ∨ count.toNat + (operands ++ r.implicit).length < limit.toNat) →
    loop host (fuel + 1 + (operands ++ r.implicit).length) limit count module m t =
      match m.invoke host (Machine.turn host fuel) (execWith (Machine.turn host fuel) fuel)
        { t with
          stack := t.stack.drop r.stack.toNat
          codePtr := p + (spell (r.instructions operands)).length }
        r.func (r.arguments operands t.stack) with
      | none => none
      | some (m', t', true) => some (m', t')
      | some (m', t', false) =>
        loop host fuel limit (countOn limit count ((operands ++ r.implicit).length + 1)) module m' t'
  /-- A turn that comes to its limit before that makes no call. -/
  cut : ∀ {fuel : Nat} {limit count : Word} {m : Machine} {t : Thread}, t.state = .running →
    t.delay = 0 → t.codePtr = p → limit ≠ 0 →
    limit.toNat ≤ count.toNat + (operands ++ r.implicit).length →
    ∃ t' w, loop host (fuel + 1 + (operands ++ r.implicit).length) limit count module m t =
      some (m.kill t' .branchLimit w)

/-- A turn at an instruction that calls a function makes the call. -/
theorem loop_callFunc {n func : Word} {args : List Word} {t' : Thread} (hstate : t.state = .running)
    (hdelay : t.delay = 0) (hlimit : limit = 0 ∨ count < limit)
    (hfetch : fetchAt module.code t.codePtr = .ok (.callFunc, [n, func]))
    (htake : { t with codePtr := t.codePtr + 1 + Opcode.callFunc.arity }.takeArgs n = (args, t')) :
    loop host (fuel + 1) limit count module m t =
      match m.invoke host (Machine.turn host fuel) (execWith (Machine.turn host fuel) fuel) t' func args with
      | none => none
      | some (m', t', true) => some (m', t')
      | some (m', t', false) =>
        loop host fuel limit (if limit = 0 then count else count + 1) module m' t' := by
  rw [loop_eq hstate hdelay hlimit, hfetch]
  show (match callFunc host _ _ m _ n func with
    | none => none
    | some (m', t', true) => some (m', t')
    | some (m', t', false) => _) = _
  rw [callFunc_eq_invoke, htake]

/-- **A redirect makes one call**, wherever its words stand. -/
theorem calls_of_standsAt {r : Redirect} {operands : List Word} {p : Nat}
    (h : StandsAt module.code p (r.instructions operands)) (htotal : r.total ≤ Thread.maxArgs)
    (hinline : operands.length = r.inline.toNat) : Calls host module p r operands := by
  obtain ⟨pre, post, hcode, rfl⟩ := h
  obtain ⟨ws, hws⟩ : ∃ ws, ws = operands ++ r.implicit := ⟨_, rfl⟩
  have hsplit : module.code.toList =
      spell (pre ++ pushes ws ++ (.callFunc, [r.argCount, r.func]) :: post) := by
    rw [hcode, Redirect.instructions, hws]
    simp only [List.append_assoc, List.singleton_append]
  have hbehind : (spell (pre ++ pushes ws)).length + 1 + Opcode.callFunc.arity =
      (spell pre).length + (spell (r.instructions operands)).length := by
    rw [Redirect.instructions, ← hws, spell_append, spell_append, List.length_append, List.length_append]
    rfl
  refine ⟨fun {fuel limit count m t} hstate hdelay hplace hlimit => ?_,
    fun {fuel limit count m t} hstate hdelay hplace hzero hlimit => ?_⟩
  · rw [← hws] at hlimit ⊢
    have hpasses : Passes host limit module (fuel + 1 + ws.length) count m t (fuel + 1)
        (countOn limit count ws.length) m
        { t with stack := ws.reverse ++ t.stack, codePtr := (spell (pre ++ pushes ws)).length } :=
      passes_pushes ws hsplit hstate hdelay hplace (hlimit.imp_right Nat.le_of_lt)
    have hmore : limit = 0 ∨ countOn limit count ws.length < limit := by
      by_cases hzero : limit = 0
      · exact .inl hzero
      · have hlt := hlimit.resolve_left hzero
        refine .inr (UInt32.lt_iff_toNat_lt.2 ?_)
        rwa [toNat_countOn hzero (Nat.lt_trans hlt limit.toNat_lt)]
    rw [hpasses.loop_eq, loop_callFunc (t := { t with
        stack := ws.reverse ++ t.stack
        codePtr := (spell (pre ++ pushes ws)).length }) hstate hdelay hmore (fetchAt_spell hsplit rfl)
        (Redirect.takeArgs_pushed htotal hinline hws
          { t with codePtr := (spell (pre ++ pushes ws)).length + 1 + Opcode.callFunc.arity }),
      countOn_add_one, hbehind]
  · rw [← hws] at hlimit ⊢
    by_cases hover : limit ≤ count
    · exact ⟨t, count, by rw [Nat.add_right_comm]; exact loop_of_limit hstate hdelay ⟨hzero, hover⟩⟩
    · -- The turn passes over as many pushes as it may still run.
      obtain ⟨n, hn⟩ : ∃ n, n = limit.toNat - count.toNat := ⟨_, rfl⟩
      have hlt := UInt32.lt_iff_toNat_lt.1 (UInt32.not_le.1 hover)
      have hlength : (ws.take n).length = n := List.length_take_of_le (by omega)
      have hreaches : count.toNat + n = limit.toNat := by omega
      have hcut : module.code.toList = spell (pre ++ pushes (ws.take n) ++
          (pushes (ws.drop n) ++ (.callFunc, [r.argCount, r.func]) :: post)) := by
        have hpushes : pushes ws = pushes (ws.take n) ++ pushes (ws.drop n) := by
          rw [pushes, pushes, pushes, ← List.map_append, List.take_append_drop]
        rw [hsplit, hpushes]
        simp only [List.append_assoc]
      have hfuel : fuel + 1 + ws.length = fuel + (ws.length - n) + 1 + (ws.take n).length := by omega
      have hpasses : Passes host limit module (fuel + 1 + ws.length) count m t (fuel + (ws.length - n) + 1)
          (countOn limit count (ws.take n).length) m
          { t with
            stack := (ws.take n).reverse ++ t.stack
            codePtr := (spell (pre ++ pushes (ws.take n))).length } := by
        rw [hfuel]
        exact passes_pushes (ws.take n) hcut hstate hdelay hplace
          (.inr (by rw [hlength]; exact Nat.le_of_eq hreaches))
      have hover : limit ≤ countOn limit count (ws.take n).length := by
        rw [hlength, UInt32.le_iff_toNat_le, toNat_countOn hzero (hreaches ▸ limit.toNat_lt), hreaches]
      exact ⟨_, _, hpasses.loop_eq.trans (loop_of_limit hstate hdelay ⟨hzero, hover⟩)⟩

/-! ## Jumps -/

end Machine

/-- The stack that an instruction leaves if it is a jump that is taken. -/
def Opcode.taken? (op : Opcode) (operands stack : List Word) : Option (List Word) :=
  match op with
  | .jump => some stack
  | .jumpTrue => if stack.headD 0 = 0 then none else some stack.tail
  | .jumpZero => if stack.headD 0 = 0 then some stack.tail else none
  | .jumpEqual => if stack.head? = some (operands.headD 0) then some stack.tail else none
  | _ => none

namespace Machine

variable {host : Host} {limit count : Word} {module : LoadedModule} {fuel : Nat} {m : Machine} {t : Thread}

/-- Popping takes the first word of the stack, or 0. -/
theorem pop_eq (t : Thread) : t.pop = (t.stack.headD 0, { t with stack := t.stack.tail }) := by
  cases hstack : t.stack with
  | nil =>
    have hsame : { t with stack := [] } = t := by rw [← hstack]
    rw [Thread.pop, hstack, List.headD_nil, List.tail_nil, hsame]
  | cons w rest => rw [Thread.pop, hstack, List.headD_cons, List.tail_cons]

/-- A jump that is taken goes to its target. -/
theorem step_taken {turn : Turn} {exec : Machine → Option Machine} {op : Opcode} {ws stack : List Word}
    {k : Nat} (hop : op.target? = some k) (h : op.taken? ws t.stack = some stack) :
    step host turn exec module op ws m t =
      some (m, { t with stack := stack, codePtr := (ws[k]?.getD 0).toNat }, false) := by
  have hfirst : ws.headD 0 = ws[0]?.getD 0 := by cases ws <;> rfl
  have hsecond : ws.tail.headD 0 = ws[1]?.getD 0 := by rcases ws with _ | ⟨v, _ | ⟨w, ws⟩⟩ <;> rfl
  cases op <;> cases hop
  case jump =>
    cases h
    simp only [step, hfirst, if_true]
  case jumpTrue =>
    simp only [Opcode.taken?] at h
    split at h
    · cases h
    · rename_i hne
      cases h
      simp only [step, hfirst, pop_eq, bne_iff_ne, ne_eq, hne, not_false_eq_true, if_true]
  case jumpZero =>
    simp only [Opcode.taken?] at h
    split at h
    · rename_i heq
      cases h
      simp only [step, hfirst, pop_eq, heq, beq_self_eq_true, if_true]
    · cases h
  case jumpEqual =>
    simp only [Opcode.taken?] at h
    split at h
    · rename_i heq
      cases h
      simp only [step, hsecond, pop_eq, heq, if_true]
    · cases h

/-- At the place `p` stands a jump to the place `q`. -/
structure JumpsTo (host : Host) (module : LoadedModule) (p q : Nat) (op : Opcode) (ws : List Word) :
    Prop where
  fetch : fetchAt module.code p = .ok (op, ws)
  /-- If the jump is taken, a turn that may run on goes on at `q`. -/
  taken : ∀ {fuel : Nat} {limit count : Word} {m : Machine} {t : Thread} {stack : List Word},
    t.state = .running → t.delay = 0 → t.codePtr = p → (limit = 0 ∨ count < limit) →
    op.taken? ws t.stack = some stack →
    loop host (fuel + 1) limit count module m t =
      loop host fuel limit (if limit = 0 then count else count + 1) module m
        { t with stack := stack, codePtr := q }

/-- An instruction that is a jump jumps where its operand says. -/
theorem jumpsTo_of_fetchAt {op : Opcode} {ws : List Word} {p k : Nat}
    (hfetch : fetchAt module.code p = .ok (op, ws)) (hop : op.target? = some k) :
    JumpsTo host module p (ws[k]?.getD 0).toNat op ws := by
  refine ⟨hfetch, fun {fuel limit count m t stack} hstate hdelay hplace hlimit htaken => ?_⟩
  rw [loop_eq hstate hdelay hlimit, hplace, hfetch]
  simp only [step_taken (t := { t with codePtr := p + 1 + op.arity }) hop htaken]

end Machine

/-! ## Places of raw instructions -/

/-- The byte offsets of raw instructions ascend, and they are offsets of the code. -/
theorem RawCode.offsets {table : CodeTable} {policy : UnknownPolicy} {offset : Nat} {s : Bytes}
    {is : List (Nat × RawInstruction)} (h : RawCode table policy offset s is) :
    (is.map (·.1)).Pairwise (· < ·) ∧ ∀ p ∈ is, offset ≤ p.1 ∧ p.1 < offset + s.length := by
  induction h with
  | nil => exact ⟨.nil, nofun⟩
  | @cons offset s rest i is h _ ih =>
    have hlt := h.length_lt
    obtain ⟨hascend, hwithin⟩ := ih
    refine ⟨List.pairwise_cons.2 ⟨fun o ho => ?_, hascend⟩, fun p hp => ?_⟩
    · obtain ⟨q, hq, rfl⟩ := List.mem_map.1 ho
      exact Nat.lt_of_lt_of_le (Nat.lt_add_of_pos_right (Nat.sub_pos_of_lt hlt)) (hwithin q hq).1
    · rcases List.mem_cons.1 hp with rfl | hp
      · exact ⟨Nat.le_refl _, by omega⟩
      · have hbounds := hwithin p hp
        omega

/-- No two raw instructions begin at one place. -/
theorem RawCode.nodup {table : CodeTable} {policy : UnknownPolicy} {offset : Nat} {s : Bytes}
    {is : List (Nat × RawInstruction)} (h : RawCode table policy offset s is) : (is.map (·.1)).Nodup :=
  h.offsets.1.imp Nat.ne_of_lt

/-- A raw instruction is read in one way. -/
theorem RawInstruction.Read.unique {table : CodeTable} {policy : UnknownPolicy} {i i' : RawInstruction}
    {s rest rest' : Bytes} (h : i.Read table policy s rest) (h' : i'.Read table policy s rest') :
    i = i' ∧ rest = rest' := by
  -- The raw opcode settles which of the three it is.
  rcases h with ⟨hraw, hfind, hws⟩ | ⟨hraw, hfind, hws⟩ | ⟨hraw, hfind, -⟩ <;>
    rcases h' with ⟨hraw', hfind', hws'⟩ | ⟨hraw', hfind', hws'⟩ | ⟨hraw', hfind', -⟩ <;>
    cases hraw.symm.trans hraw' <;> cases hfind.symm.trans hfind'
  · cases hws.symm.trans hws'
    exact ⟨rfl, rfl⟩
  · cases hws.symm.trans hws'
    exact ⟨rfl, rfl⟩
  · exact ⟨rfl, rfl⟩

/-- Raw code is read in one way. -/
theorem RawCode.unique {table : CodeTable} {policy : UnknownPolicy} {offset : Nat} {s : Bytes}
    {is is' : List (Nat × RawInstruction)} (h : RawCode table policy offset s is)
    (h' : RawCode table policy offset s is') : is = is' := by
  induction h generalizing is' with
  | nil =>
    cases h' with
    | nil => rfl
    | cons h' => exact absurd h'.length_lt (Nat.not_lt_zero _)
  | cons h _ ih =>
    cases h' with
    | nil => exact absurd h.length_lt (Nat.not_lt_zero _)
    | cons h' hrest' =>
      obtain ⟨rfl, rfl⟩ := h.unique h'
      rw [ih hrest']

/-- The place that a byte offset of the raw code becomes. -/
def placeOf (raws : List (Nat × RawInstruction)) (groups : List (List Instruction)) (o : Nat) : Nat :=
  (spell (groups.take ((raws.map (·.1)).idxOf o)).flatten).length

section

variable {table : CodeTable} {policy : UnknownPolicy} {code : Bytes} {raws : List (Nat × RawInstruction)}
  {groups : List (List Instruction)}

/-- A translation begins at one place. -/
theorem BeginsAt.eq_placeOf (hraw : RawCode table policy 0 code raws) {o w : Nat}
    (h : BeginsAt code.length raws groups o w) : w = placeOf raws groups o := by
  obtain ⟨k, hk, ho, rfl⟩ := h
  have hindex : (raws.map (·.1)).idxOf o = k := by
    rcases Nat.lt_or_eq_of_le hk with hlt | rfl
    · rw [List.getElem?_eq_getElem hlt, Option.map_some, Option.getD_some] at ho
      have hlt' : k < (raws.map (·.1)).length := by rwa [List.length_map]
      have hat : (raws.map (·.1))[k] = o := by rw [List.getElem_map, ho]
      rw [← hat]
      exact hraw.nodup.idxOf_getElem k hlt'
    · rw [List.getElem?_eq_none (Nat.le_refl _), Option.map_none, Option.getD_none] at ho
      rw [List.idxOf_of_notMem, List.length_map]
      intro hmem
      obtain ⟨p, hp, hoffset⟩ := List.mem_map.1 hmem
      have hlt := (hraw.offsets.2 p hp).2
      omega
  rw [placeOf, hindex]

/-- The translation of a raw instruction is a part of the code. -/
theorem exists_translation {R : Nat × RawInstruction → List Instruction → Prop}
    (hraw : RawCode table policy 0 code raws) (h : List.Forall₂ R raws groups) {p : Nat × RawInstruction}
    (hp : p ∈ raws) :
    ∃ is pre post, R p is ∧ groups.flatten = pre ++ is ++ post ∧
      placeOf raws groups p.1 = (spell pre).length := by
  obtain ⟨k, hk, rfl⟩ := List.getElem_of_mem hp
  have hk' : k < groups.length := h.length_eq ▸ hk
  refine ⟨groups[k], (groups.take k).flatten, (groups.drop (k + 1)).flatten, h.get hk hk', ?_, ?_⟩
  · conv_lhs => rw [← List.take_append_drop k groups, List.drop_eq_getElem_cons hk']
    rw [List.flatten_append, List.flatten_cons, List.append_assoc]
  · have hlt : k < (raws.map (·.1)).length := by rwa [List.length_map]
    have hindex := hraw.nodup.idxOf_getElem k hlt
    rw [List.getElem_map] at hindex
    rw [placeOf, hindex]

end

/-! ## Loaded modules -/

/-- Reading a number of times gives as many elements. -/
theorem Reader.length_times {α : Type} {r : Reader α} {n : Nat} {s rest : Bytes} {xs : List α}
    (h : times r n s = .ok (xs, rest)) : xs.length = n := by
  induction n generalizing s xs with
  | zero =>
    cases h
    rfl
  | succ n ih =>
    obtain ⟨x, s₁, -, h⟩ := bind_eq_ok h
    obtain ⟨ys, s₂, hys, hpure⟩ := bind_eq_ok h
    cases hpure
    rw [List.length_cons, ih hys]

/-- A redirected instruction has so many operands. -/
theorem RawCode.length_of_call {table : CodeTable} {policy : UnknownPolicy} {offset : Nat} {s : Bytes}
    {is : List (Nat × RawInstruction)} (h : RawCode table policy offset s is) {o : Nat} {r : Redirect}
    {ws : List Word} (hmem : (o, .call r ws) ∈ is) : ws.length = r.inline.toNat := by
  induction h with
  | nil => cases hmem
  | cons h _ ih =>
    rcases List.mem_cons.1 hmem with heq | hmem
    · cases heq
      cases h with
      | call _ _ hws => exact Reader.length_times hws
    · exact ih hmem

namespace Module

variable {name : ModuleName} {data : Bytes} {table : CodeTable} {policy : UnknownPolicy}
  {s s' : StringTable}

/-- What loading makes of raw code: a row of translations, where byte offsets lead to where translations
begin if words are enough to number the words of the code. -/
theorem exists_translations_of_load {m : Module} (htable : table.Made)
    (h : load name data table policy s = .ok (m, s')) :
    ∃ unit raws groups leads, Bytecode.parse data = .ok unit ∧ RawCode table policy 0 unit.code raws ∧
      List.Forall₂ (fun p is => Translates leads (fun _ _ => True) unit.functions.length p.2 is)
        raws groups ∧
      Spells m.code groups.flatten ∧
      (m.code.size < UInt32.size → ∀ o w, leads o w → w = placeOf raws groups o) := by
  obtain ⟨unit, hparse, h⟩ := bind_eq_ok h
  obtain ⟨l, hlocate, h⟩ := bind_eq_ok h
  rw [link_eq] at h
  cases h
  unfold locate at hlocate
  cases hdecode : unit.decode table policy with
  | mk ds stop =>
  rw [hdecode] at hlocate
  cases stop with
  | some e => cases hlocate
  | none =>
  obtain ⟨cells, hcells, hlocate⟩ := bind_eq_ok hlocate
  obtain ⟨functions, -, hlocate⟩ := bind_eq_ok hlocate
  obtain ⟨scripts, -, hlocate⟩ := bind_eq_ok hlocate
  cases hlocate
  obtain ⟨raws, hraw, hwithin, hmap⟩ := Decoded.of_readAll htable.exact (Nat.le_refl _) hdecode
  have hflat : ds.flatMap (·.cells) = raws.flatMap (·.2.cells) := by
    have hsnd := congrArg (fun l => l.flatMap Prod.snd) hmap
    simpa [List.flatMap_map] using hsnd
  rw [hflat] at hcells
  obtain ⟨groups, hgroups, harity, hwords⟩ := @exists_translations _ (s.internLocked unit.strings).1
    (fun _ _ => True) _ (fun _ _ => trivial) _ _ hwithin hcells
  refine ⟨unit, raws, groups, _, hparse, hraw, hgroups.imp fun p is hp => hp.1, ⟨hwords, harity⟩,
    fun hsize o w hleads => ?_⟩
  have hcode : (spell groups.flatten).length < UInt32.size := by
    rw [← hwords]
    simpa [Located.linkWith] using hsize
  exact (beginsAt_of_leads hmap hgroups hcode hleads).eq_placeOf hraw

variable {module : LoadedModule}

/-- **Redirected opcodes.**  Let a module be loaded from its bytes with a code table that the table
operations make.  Then each byte offset of its raw code has a place in the code, such that from the place
of a redirected instruction on, one call is made with the arguments that the redirect means, and such that
jumps to a byte offset, if words are enough to number the words of the code, lead to the place of it. -/
theorem redirects_call (htable : table.Made)
    (h : load name data table policy s = .ok (module.toModule, s')) :
    ∃ unit raws, ∃ place : Nat → Nat, Bytecode.parse data = .ok unit ∧
      RawCode table policy 0 unit.code raws ∧
      (∀ o r operands, (o, .call r operands) ∈ raws → r.total ≤ Thread.maxArgs →
        Machine.StandsAt module.code (place o) (r.instructions operands) ∧
          ∀ host, Machine.Calls host module (place o) r operands) ∧
      ∀ o op operands k v, (o, .known op operands) ∈ raws → op.target? = some k →
        operands[k]? = some (.target, v) → module.code.size < UInt32.size →
        ∃ ws, List.Forall₂ (Operand (fun o' w => w = place o') (fun _ _ => True) unit.functions.length)
            operands ws ∧
          ∀ host, Machine.JumpsTo host module (place o) (place v.toNat) op ws := by
  obtain ⟨unit, raws, groups, leads, hparse, hraw, hgroups, hspells, hplace⟩ :=
    exists_translations_of_load htable h
  refine ⟨unit, raws, placeOf raws groups, hparse, hraw, fun o r operands hmem htotal => ?_,
    fun o op operands k v hmem hop hoperand hsize => ?_⟩
  · obtain ⟨is, pre, post, htranslates, hsplit, hbegin⟩ := exists_translation hraw hgroups hmem
    cases htranslates
    have hstands : Machine.StandsAt module.code (placeOf raws groups o) (r.instructions operands) :=
      ⟨pre, post, hspells.words.trans (congrArg spell hsplit), hbegin⟩
    exact ⟨hstands, fun host => Machine.calls_of_standsAt hstands htotal (hraw.length_of_call hmem)⟩
  · obtain ⟨is, pre, post, htranslates, hsplit, hbegin⟩ := exists_translation hraw hgroups hmem
    cases htranslates.imp (hplace hsize) with
    | @known _ _ ws hoperands =>
    rw [List.append_assoc, List.singleton_append] at hsplit
    have hfetch : fetchAt module.code (placeOf raws groups o) = .ok (op, ws) := by
      rw [hbegin]
      exact fetchAt_spell (hspells.words.trans (congrArg spell hsplit))
        (hspells.arity (op, ws) (by simp [hsplit]))
    have htarget : (ws[k]?.getD 0).toNat = placeOf raws groups v.toNat := by
      obtain ⟨hk, hat⟩ := List.getElem?_eq_some_iff.1 hoperand
      have hk' : k < ws.length := hoperands.length_eq ▸ hk
      have hleads := hoperands.get hk hk'
      rw [List.get_eq_getElem, hat, List.get_eq_getElem] at hleads
      rw [List.getElem?_eq_getElem hk', Option.getD_some]
      cases hleads with
      | target hw => exact hw
    exact ⟨ws, hoperands, fun host => htarget ▸ Machine.jumpsTo_of_fetchAt hfetch hop⟩

/-- A call with two words from the stack, an operand and the word 7. -/
def offered : Redirect where
  func := 240
  stack := 2
  inline := 1
  implicit := [7]

example : offered.arguments [5] [9] = [0, 9, 5, 7] := rfl

/-- A unit whose script makes that call, under the raw opcode 110, again and again. -/
def callingUnit : Bytecode where
  regCount := 0
  arrCount := 0
  strings := []
  functions := []
  scripts := [{
    name := .number 1, type := 0, flags := 0, argCount := 0, regCount := 0, arrCount := 0
    entry := 0 }]
  code := [110, 5, 61, 0]

/-- The call of the unit is made from a place that its jump leads to. -/
theorem redirects_call_calling : ∃ (x : LoadedModule) (s : StringTable),
    load { name := "calling" } callingUnit.write (.addRedirect .standard 110 offered) .trap {} =
        .ok (x.toModule, s) ∧
      x.code = #[10, 5, 10, 7, 69, 4, 240, 61, 0] ∧
      ∃ p q ws, ∀ host, Machine.Calls host x p offered [5] ∧ Machine.JumpsTo host x q p .jump ws := by
  let table : CodeTable := .addRedirect .standard 110 offered
  let loaded := load { name := "calling" } callingUnit.write table .trap {}
  obtain ⟨hcode, hcall, hjump⟩ :
      loaded.toOption.map (fun p => p.1.code) = some #[10, 5, 10, 7, 69, 4, 240, 61, 0] ∧
      table.find? 110 = some (.redirect offered) ∧
      table.find? 61 = some (.instruction .jump [.target]) := by decide +kernel
  cases hload : loaded with
  | error e =>
    rw [hload] at hcode
    cases hcode
  | ok p =>
    obtain ⟨m, s⟩ := p
    rw [hload] at hcode
    have hcode : m.code = #[10, 5, 10, 7, 69, 4, 240, 61, 0] := by simpa [Except.toOption] using hcode
    obtain ⟨x, rfl⟩ : ∃ x : LoadedModule, m = x.toModule := ⟨{ m with serial := 0 }, rfl⟩
    obtain ⟨unit, raws, place, hparse, hraw, hcalls, hjumps⟩ :=
      redirects_call (.addRedirect .standard 110 offered) hload
    obtain rfl : unit = callingUnit := Except.ok.inj (hparse.symm.trans (by decide +kernel))
    have hread : RawCode table .trap 0 callingUnit.code
        [(0, .call offered [5]), (2, .known .jump ([OperandKind.target].zip [0]))] :=
      .cons (.call rfl hcall rfl) (.cons (.known rfl hjump rfl) (.nil _))
    obtain rfl := hraw.unique hread
    obtain ⟨ws, -, hjumps⟩ := hjumps 2 .jump [(.target, 0)] 0 0 (by simp) rfl rfl (by rw [hcode]; decide)
    exact ⟨x, s, hload, hcode, place 0, place 2, ws, fun host =>
      ⟨(hcalls 0 offered [5] (by simp) (by decide)).2 host, hjumps host⟩⟩

end Module

end ScriptMachine
