import Orbistoun.Lib.Stepper
import Orbistoun.Translate.Blocks.Split

/-! # Running blocks and running instructions

A machine that takes one instruction at a time, and one that takes one block at a
time as the dispatch loop does, over the same sequence of branch conditions. Both put
out the indices of the instructions they run. A block leaves out every `s_endpgm` in
it and stops only where the last of its instructions is one, so the two agree exactly
when nothing but `s_endpgm` follows a reached `s_endpgm` up to the next branch target.
-/

namespace Orbistoun.Translate

open Orbistoun.Lib

section Machines

variable (familyOf : Instruction → Option String) (conds : Nat → Bool)

/-- Where execution stands, and how many conditions its branches have tested. -/
structure Pc where
  offset : Nat
  tested : Nat
  deriving DecidableEq, Repr

/-- Where a conditional branch goes. -/
def Pc.choose (s : Pc) (target fallthrough : Nat) : Pc :=
  ⟨if conds s.tested then target else fallthrough, s.tested + 1⟩

/-- One instruction at a time. `s_endpgm` stops, and so does an offset that holds no
instruction: the end of the list. -/
def stepInstruction (l : List Instruction) (s : Pc) : Option (List Nat × Pc) := do
  let n ← instructionAt l s.offset
  let i := l.getD n default
  let after := i.offset + i.length
  if isEnd familyOf i then none
  else
    match conditionOf familyOf i, branchTarget i with
    | none, _ => some ([n], { s with offset := after })
    | some .always, .ok target => some ([n], { s with offset := target })
    | some _, .ok target => some ([n], s.choose conds target after)
    | some _, .error _ => none

def instructionMachine (l : List Instruction) : Stepper Pc Nat where
  step := stepInstruction familyOf conds l

/-- The instructions of a block that its arm emits, as the dispatch loop filters them. -/
def Block.body (b : Block) (l : List Instruction) : List Nat :=
  (List.range' b.first (b.stop - b.first)).filter
    (fun n => !isTerminator familyOf (l.getD n default))

def Block.branch (b : Block) : List Nat :=
  match b.terminator with
  | .jump _ | .branch _ _ => [b.stop - 1]
  | .ended | .fallthrough _ => []

/-- Where a block's terminator leads; none where the program ends. -/
def Block.leave (b : Block) (s : Pc) : Option Pc :=
  match b.terminator with
  | .ended => none
  | .jump target | .fallthrough target => some { s with offset := target }
  | .branch target fallthrough => some (s.choose conds target fallthrough)

/-- One block at a time: its body, then its terminator. -/
def stepBlock (l : List Instruction) (blocks : List Block) :
    Option Pc → Option (List Nat × Option Pc)
  | none => none
  | some s => do
      let n ← blockAt blocks s.offset
      let b ← blocks[n]?
      return (b.body familyOf l ++ b.branch, b.leave conds s)

def blockMachine (l : List Instruction) (blocks : List Block) : Stepper (Option Pc) Nat where
  step := stepBlock familyOf conds l blocks

end Machines

/-- Execution starts at the first instruction, with no condition tested. -/
def Pc.entry : Pc := ⟨0, 0⟩

/-- Some sequence of conditions brings the instruction machine to index `n`. -/
def Reached (familyOf : Instruction → Option String) (l : List Instruction) (n : Nat) : Prop :=
  ∃ conds j, instructionAt l ((instructionMachine familyOf conds l).last j .entry).offset = some n

/-- Between a reached `s_endpgm` and the next branch target stands nothing but `s_endpgm`. -/
def EndsStand (familyOf : Instruction → Option String) (l : List Instruction) : Prop :=
  ∀ e, Reached familyOf l e → isEnd familyOf (l.getD e default) →
    ∀ n, e < n → n < l.length → (∀ k, e < k → k ≤ n → ¬ Targeted familyOf l k) →
      isEnd familyOf (l.getD n default)

/-! ## One block -/

section Step

variable {familyOf : Instruction → Option String} {conds : Nat → Bool} {l : List Instruction}
  {start : Nat} {atBarriers : Bool} {blocks : List Block} {b : Block}

/-- Where the instruction machine stands when the block machine stands at `t`. -/
def StandsAt (familyOf : Instruction → Option String) (conds : Nat → Bool) (l : List Instruction)
    (atBarriers : Bool) : Option Pc → Pc → Prop
  | some t, s => t = s ∧ ∀ n, instructionAt l s.offset = some n → Leader familyOf l atBarriers n
  | none, s => stepInstruction familyOf conds l s = none

theorem getD_eq {n : Nat} (hn : n < l.length) : l.getD n default = l[n] := by
  rw [List.getD_eq_getElem?_getD, List.getElem?_eq_getElem hn, Option.getD_some]

variable (conds) in
theorem stepInstruction_end (t : Nat) (hl : Laid start l) {n : Nat} (hn : n < l.length)
    (hend : isEnd familyOf l[n] = true) :
    stepInstruction familyOf conds l ⟨l[n].offset, t⟩ = none := by
  simp [stepInstruction, hl.instructionAt_offset hn, hn, hend]

theorem stepInstruction_plain (hl : Laid start l) {n t : Nat} (hn : n < l.length)
    (hend : isEnd familyOf l[n] = false) (hc : conditionOf familyOf l[n] = none) :
    stepInstruction familyOf conds l ⟨l[n].offset, t⟩ =
      some ([n], ⟨l[n].offset + l[n].length, t⟩) := by
  simp [stepInstruction, hl.instructionAt_offset hn, hn, hend, hc]

theorem stepInstruction_nothing {s : Pc} (h : instructionAt l s.offset = none) :
    stepInstruction familyOf conds l s = none := by
  simp [stepInstruction, h]

theorem stepInstruction_past (hl : Laid start l) {n t : Nat} (hn : n < l.length)
    (hlast : n + 1 = l.length) :
    stepInstruction familyOf conds l ⟨l[n].offset + l[n].length, t⟩ = none :=
  stepInstruction_nothing (hl.instructionAt_past hn hlast)

/-- Inside a block, short of its last instruction, nothing branches. -/
theorem Splits.inner_plain (h : Splits familyOf l atBarriers blocks) (hb : b ∈ blocks) {n : Nat}
    (hfirst : b.first ≤ n) (hstop : n + 1 < b.stop) (hn : n < l.length) :
    conditionOf familyOf l[n] = none := by
  have hbet := h.between b hb
  cases hc : conditionOf familyOf l[n] with
  | none => rfl
  | some c =>
      have hlead := (branch_ok h.accepts hn hc).2 (by have := hbet.stop_le; omega)
      exact absurd hlead (hbet.inner (n + 1) (by omega) hstop)

variable (conds) in
/-- The instruction machine runs a block straight through up to an instruction of it
that no `s_endpgm` of the block comes before. -/
theorem Splits.run_straight (t : Nat) (hl : Laid start l) (h : Splits familyOf l atBarriers blocks)
    (hb : b ∈ blocks) {n : Nat} (hfirst : b.first ≤ n) (hstop : n < b.stop) (hn : n < l.length)
    (hends : ∀ k (hk : k < l.length), b.first ≤ k → k < n → isEnd familyOf l[k] = false) :
    (instructionMachine familyOf conds l).out (n - b.first) ⟨b.start, t⟩ =
        List.range' b.first (n - b.first) ∧
      (instructionMachine familyOf conds l).last (n - b.first) ⟨b.start, t⟩ = ⟨l[n].offset, t⟩ := by
  have hbet := h.between b hb
  induction n with
  | zero =>
      have hzero : b.first = 0 := by omega
      have hstart : l[0].offset = b.start := by
        have := hbet.start_eq hbet.first_lt_length
        simpa [hzero] using this
      simp [hzero, hstart]
  | succ n ih =>
      by_cases heq : b.first = n + 1
      · have hstart : l[n + 1].offset = b.start := by
          have := hbet.start_eq hbet.first_lt_length
          simpa [heq] using this
        simp [heq, hstart]
      · have hle : b.first ≤ n := by omega
        obtain ⟨hout, hlast⟩ := ih hle (by omega) (by omega) (fun k hk h1 h2 =>
          hends k hk h1 (by omega))
        have hstep : (instructionMachine familyOf conds l).step
            ((instructionMachine familyOf conds l).last (n - b.first) ⟨b.start, t⟩) =
            some ([n], ⟨l[n + 1].offset, t⟩) := by
          rw [hlast, hl.next hn]
          exact stepInstruction_plain hl (by omega) (hends n (by omega) hle (by omega))
            (h.inner_plain hb hle hstop (by omega))
        obtain ⟨hout', hlast'⟩ := Stepper.run_snoc hstep
        have hsub : n + 1 - b.first = n - b.first + 1 := by omega
        rw [hsub, hout', hlast', hout, List.range'_concat, Nat.one_mul, Nat.add_sub_cancel' hle]
        exact ⟨rfl, rfl⟩

/-- The `s_endpgm`s of a block that come before `n`. -/
def Clean (familyOf : Instruction → Option String) (l : List Instruction) (first n : Nat) : Prop :=
  ∀ k (hk : k < l.length), first ≤ k → k < n → isEnd familyOf l[k] = false

/-- A block with no `s_endpgm` emits every instruction up to its last, then that one,
as part of the body or as the branch it ends in. -/
theorem Splits.body_clean (h : Splits familyOf l atBarriers blocks) (hb : b ∈ blocks) {n : Nat}
    (hle : b.first ≤ n) (hstop : n < b.stop) (hclean : Clean familyOf l b.first n) :
    (List.range' b.first (n - b.first)).filter (fun k => !isTerminator familyOf (l.getD k default)) =
      List.range' b.first (n - b.first) := by
  have hbet := h.between b hb
  rw [List.filter_eq_self]
  intro k hk
  have hk' := List.mem_range'_1.mp hk
  have hkl : k < l.length := by have := hbet.stop_le; omega
  have hplain := h.inner_plain hb hk'.1 (by omega) hkl
  have hend := hclean k hkl hk'.1 (by omega)
  simp [isTerminator, hkl, hplain, hend]

theorem Block.body_split (hle : b.first ≤ n) (hstop : n ≤ b.stop) :
    b.body familyOf l =
      (List.range' b.first (n - b.first)).filter
          (fun k => !isTerminator familyOf (l.getD k default)) ++
        (List.range' n (b.stop - n)).filter
          (fun k => !isTerminator familyOf (l.getD k default)) := by
  have hsplit : List.range' b.first (b.stop - b.first) =
      List.range' b.first (n - b.first) ++ List.range' n (b.stop - n) := by
    have happ := List.range'_append_1 (s := b.first) (m := n - b.first) (n := b.stop - n)
    rw [Nat.add_sub_cancel' hle] at happ
    rw [happ]
    congr 1
    omega
  rw [Block.body, hsplit, List.filter_append]

theorem terminatorAt_plain {stop : Nat} {term : Terminator} (hlast : stop - 1 < l.length)
    (hc : conditionOf familyOf l[stop - 1] = none)
    (h : terminatorAt familyOf l stop = .ok term) :
    term = if isEnd familyOf l[stop - 1] ∨ stop = l.length then .ended
      else .fallthrough (l[stop - 1].offset + l[stop - 1].length) := by
  simp only [terminatorAt, getD_eq hlast, hc] at h
  by_cases hend : isEnd familyOf l[stop - 1] = true
  · simpa [hend] using h.symm
  · by_cases hstop : stop = l.length
    · rw [if_neg hend, if_pos hstop, Except.ok.injEq] at h
      rw [if_pos (Or.inr hstop), h]
    · rw [if_neg hend, if_neg hstop, Except.ok.injEq] at h
      rw [if_neg (by simp [hend, hstop]), h]

theorem terminatorAt_branch {stop target : Nat} {term : Terminator} {c : Condition}
    (hlast : stop - 1 < l.length) (hc : conditionOf familyOf l[stop - 1] = some c)
    (ht : branchTarget l[stop - 1] = .ok target) (h : terminatorAt familyOf l stop = .ok term) :
    term = if c = .always then .jump target
      else .branch target (l[stop - 1].offset + l[stop - 1].length) := by
  simp only [terminatorAt, getD_eq hlast, hc, ht] at h
  cases c <;> simpa [bind, Except.bind, pure, Except.pure] using h.symm

theorem stepInstruction_branch (hl : Laid start l) {n t target : Nat} {c : Condition}
    (hn : n < l.length) (hc : conditionOf familyOf l[n] = some c)
    (ht : branchTarget l[n] = .ok target) :
    stepInstruction familyOf conds l ⟨l[n].offset, t⟩ =
      some ([n], if c = .always then ⟨target, t⟩
        else Pc.choose conds ⟨l[n].offset, t⟩ target (l[n].offset + l[n].length)) := by
  simp only [stepInstruction, hl.instructionAt_offset hn, Option.bind_eq_bind, Option.bind_some,
    getD_eq hn, isEnd_of_branch hc, hc, ht, Bool.false_eq_true, if_false]
  cases c <;> simp

variable (conds) in
/-- The end of a block that holds no `s_endpgm`: the instruction machine takes its last
instruction as the block's terminator says. -/
theorem Splits.leave_clean (hl : Laid start l) (h : Splits familyOf l atBarriers blocks)
    (hb : b ∈ blocks) (hlast : b.stop - 1 < l.length)
    (hend : isEnd familyOf l[b.stop - 1] = false) (t : Nat) :
    ∃ s', stepInstruction familyOf conds l ⟨l[b.stop - 1].offset, t⟩ = some ([b.stop - 1], s') ∧
      StandsAt familyOf conds l atBarriers (b.leave conds ⟨b.start, t⟩) s' ∧
      (b.leave conds ⟨b.start, t⟩ = none → instructionAt l s'.offset = none) ∧
      (List.range' (b.stop - 1) 1).filter (fun k => !isTerminator familyOf (l.getD k default)) ++
        b.branch = [b.stop - 1] := by
  have hbet := h.between b hb
  have hpos : b.stop - 1 + 1 = b.stop := by have := hbet.first_lt; omega
  -- What follows the block, where anything does, is a leader.
  have hafter : ∀ n, instructionAt l (l[b.stop - 1].offset + l[b.stop - 1].length) = some n →
      Leader familyOf l atBarriers n := by
    intro n hn
    by_cases hlen : b.stop - 1 + 1 < l.length
    · rw [← hl.next hlen, hl.instructionAt_offset hlen, Option.some.injEq, hpos] at hn
      rcases hbet.bound_stop with hstop | hstop
      · omega
      · rwa [← hn]
    · rw [hl.instructionAt_past hlast (by omega)] at hn
      simp at hn
  cases hc : conditionOf familyOf l[b.stop - 1] with
  | none =>
      have hterm := terminatorAt_plain hlast hc hbet.terminator_eq
      refine ⟨_, stepInstruction_plain hl hlast hend hc, ?_, ?_, ?_⟩
      · by_cases hlen : b.stop = l.length
        · rw [if_pos (Or.inr hlen)] at hterm
          simp only [Block.leave, hterm, StandsAt]
          exact stepInstruction_past hl hlast (by omega)
        · rw [if_neg (by simp [hend, hlen])] at hterm
          simp only [Block.leave, hterm, StandsAt]
          exact ⟨trivial, hafter⟩
      · intro hnone
        by_cases hlen : b.stop = l.length
        · exact hl.instructionAt_past hlast (by omega)
        · rw [if_neg (by simp [hend, hlen])] at hterm
          simp [Block.leave, hterm] at hnone
      · have hbranch : b.branch = [] := by
          rw [Block.branch, hterm]
          split_ifs <;> rfl
        simp [hbranch, isTerminator, hlast, hc, hend]
  | some c =>
      obtain ⟨⟨m, hm, ht, hlead⟩, -⟩ := branch_ok h.accepts hlast hc
      have hterm := terminatorAt_branch hlast hc ht hbet.terminator_eq
      -- The target is a leader too.
      have htarget : ∀ n, instructionAt l l[m].offset = some n → Leader familyOf l atBarriers n := by
        intro n hn
        rw [hl.instructionAt_offset hm, Option.some.injEq] at hn
        rwa [← hn]
      refine ⟨_, stepInstruction_branch hl hlast hc ht, ?_, ?_, ?_⟩
      · by_cases halways : c = .always
        · rw [if_pos halways] at hterm ⊢
          simp only [Block.leave, hterm, StandsAt]
          exact ⟨trivial, htarget⟩
        · rw [if_neg halways] at hterm ⊢
          simp only [Block.leave, hterm, StandsAt, Pc.choose]
          refine ⟨trivial, ?_⟩
          split_ifs
          · exact htarget
          · exact hafter
      · intro hnone
        rw [Block.leave, hterm] at hnone
        split_ifs at hnone
      · have hbranch : b.branch = [b.stop - 1] := by
          rw [Block.branch, hterm]
          split_ifs <;> rfl
        simp [hbranch, isTerminator, hlast, hc]

variable (conds) in
theorem Splits.step_block (hl : Laid start l) (h : Splits familyOf l atBarriers blocks)
    (hb : b ∈ blocks) (t : Nat) :
    (blockMachine familyOf conds l blocks).step (some ⟨b.start, t⟩) =
      some (b.body familyOf l ++ b.branch, b.leave conds ⟨b.start, t⟩) := by
  obtain ⟨n, hat, hn⟩ := h.blockAt_start hl hb
  simp [blockMachine, stepBlock, hat, hn]

variable (conds) in
/-- A block with no `s_endpgm` in it is run alike by both machines. -/
theorem Splits.run_clean (hl : Laid start l) (h : Splits familyOf l atBarriers blocks)
    (hb : b ∈ blocks) (hclean : Clean familyOf l b.first b.stop) (t : Nat) :
    let m := instructionMachine familyOf conds l
    m.out (b.stop - b.first) ⟨b.start, t⟩ = b.body familyOf l ++ b.branch ∧
      StandsAt familyOf conds l atBarriers (b.leave conds ⟨b.start, t⟩)
        (m.last (b.stop - b.first) ⟨b.start, t⟩) ∧
      (b.leave conds ⟨b.start, t⟩ = none →
        instructionAt l (m.last (b.stop - b.first) ⟨b.start, t⟩).offset = none) := by
  intro m
  have hbet := h.between b hb
  have hfirst : b.first ≤ b.stop - 1 := by have := hbet.first_lt; omega
  have hstop : b.stop - 1 < b.stop := by have := hbet.first_lt; omega
  have hlast : b.stop - 1 < l.length := by have := hbet.stop_le; omega
  have hclean' : Clean familyOf l b.first (b.stop - 1) := fun k hk h1 h2 =>
    hclean k hk h1 (by omega)
  obtain ⟨hout, hat⟩ := h.run_straight conds t hl hb hfirst hstop hlast hclean'
  obtain ⟨s', hstep, hstands, hpast, hbody⟩ := h.leave_clean conds hl hb hlast
    (hclean _ hlast hfirst hstop) t
  have hcount : b.stop - b.first = b.stop - 1 - b.first + 1 := by omega
  have hmstep : m.step (m.last (b.stop - 1 - b.first) ⟨b.start, t⟩) = some ([b.stop - 1], s') := by
    rw [hat]
    exact hstep
  obtain ⟨hout', hlast'⟩ := Stepper.run_snoc hmstep
  refine ⟨?_, ?_, ?_⟩
  · rw [hcount, hout', hout, Block.body_split hfirst hstop.le, h.body_clean hb hfirst hstop hclean',
      List.append_assoc, show b.stop - (b.stop - 1) = 1 by omega, hbody]
  · rw [hcount, hlast']
    exact hstands
  · rw [hcount, hlast']
    exact hpast

variable (conds) in
/-- A block whose first `s_endpgm` is at `e`: the instruction machine stops there, and
the block machine has put out what follows it besides. -/
theorem Splits.run_ended (hl : Laid start l) (h : Splits familyOf l atBarriers blocks)
    (hb : b ∈ blocks) {e : Nat} (hfirst : b.first ≤ e) (hstop : e < b.stop) (he : e < l.length)
    (hclean : Clean familyOf l b.first e) (hend : isEnd familyOf l[e] = true) (t : Nat) :
    let m := instructionMachine familyOf conds l
    m.step (m.last (e - b.first) ⟨b.start, t⟩) = none ∧
      b.body familyOf l ++ b.branch = m.out (e - b.first) ⟨b.start, t⟩ ++
        ((List.range' e (b.stop - e)).filter (fun k => !isTerminator familyOf (l.getD k default)) ++
          b.branch) := by
  intro m
  obtain ⟨hout, hat⟩ := h.run_straight conds t hl hb hfirst hstop he hclean
  constructor
  · rw [hat]
    exact stepInstruction_end conds t hl he hend
  · rw [hout, Block.body_split hfirst hstop.le, h.body_clean hb hfirst hstop hclean,
      List.append_assoc]

/-- A block puts out nothing from `e` on exactly when nothing but `s_endpgm` is there. -/
theorem Splits.rest_eq_nil_iff (h : Splits familyOf l atBarriers blocks) (hb : b ∈ blocks)
    {e : Nat} (hfirst : b.first ≤ e) (hstop : e < b.stop) :
    (List.range' e (b.stop - e)).filter (fun k => !isTerminator familyOf (l.getD k default)) ++
        b.branch = [] ↔
      ∀ k, e ≤ k → k < b.stop → isEnd familyOf (l.getD k default) = true := by
  have hbet := h.between b hb
  have hlast : b.stop - 1 < l.length := by have := hbet.stop_le; omega
  have hmem : ∀ k, k ∈ List.range' e (b.stop - e) ↔ e ≤ k ∧ k < b.stop := fun k => by
    rw [List.mem_range'_1]
    omega
  have hterm : ∀ c, conditionOf familyOf l[b.stop - 1] = some c → b.branch ≠ [] := by
    intro c hc
    obtain ⟨⟨m, hm, ht, -⟩, -⟩ := branch_ok h.accepts hlast hc
    rw [Block.branch, terminatorAt_branch hlast hc ht hbet.terminator_eq]
    split_ifs <;> simp
  rw [List.append_eq_nil_iff, List.filter_eq_nil_iff]
  constructor
  · rintro ⟨hbody, hbranch⟩ k hek hks
    have hk : k < l.length := by have := hbet.stop_le; omega
    have hplain : conditionOf familyOf l[k] = none := by
      by_cases hinner : k + 1 < b.stop
      · exact h.inner_plain hb (by omega) hinner hk
      · obtain rfl : k = b.stop - 1 := by omega
        cases hc : conditionOf familyOf l[b.stop - 1] with
        | none => rfl
        | some c => exact absurd hbranch (hterm c hc)
    simpa [isTerminator, hk, hplain] using hbody k ((hmem k).mpr ⟨hek, hks⟩)
  · intro hall
    constructor
    · intro k hk
      obtain ⟨hek, hks⟩ := (hmem k).mp hk
      rw [isTerminator, hall k hek hks, Bool.or_true]
      simp
    · have hend := hall (b.stop - 1) (by omega) (by omega)
      rw [getD_eq hlast] at hend
      have := terminatorAt_plain hlast (conditionOf_of_isEnd hend) hbet.terminator_eq
      rw [if_pos (Or.inl hend)] at this
      rw [Block.branch, this]

/-- A block with an `s_endpgm` and nothing else after it ends the program. -/
theorem Splits.leave_ended (h : Splits familyOf l atBarriers blocks) (hb : b ∈ blocks)
    (hend : isEnd familyOf (l.getD (b.stop - 1) default) = true) (s : Pc) :
    b.leave conds s = none := by
  have hbet := h.between b hb
  have hlast : b.stop - 1 < l.length := by
    have := hbet.stop_le
    have := hbet.first_lt
    omega
  rw [getD_eq hlast] at hend
  have := terminatorAt_plain hlast (conditionOf_of_isEnd hend) hbet.terminator_eq
  rw [if_pos (Or.inl hend)] at this
  rw [Block.leave, this]

/-- A stretch of instructions holds no `s_endpgm` or has a first one. -/
theorem clean_or_first (familyOf : Instruction → Option String) (first : Nat) {stop : Nat}
    (hle : stop ≤ l.length) :
    Clean familyOf l first stop ∨ ∃ e, ∃ he : e < l.length, first ≤ e ∧ e < stop ∧
      Clean familyOf l first e ∧ isEnd familyOf l[e] = true := by
  induction stop with
  | zero => exact Or.inl (fun k _ _ hk => absurd hk (Nat.not_lt_zero k))
  | succ n ih =>
      rcases ih (by omega) with hclean | ⟨e, he, hfirst, hstop, hclean, hend⟩
      · have hn : n < l.length := by omega
        by_cases hat : first ≤ n ∧ isEnd familyOf l[n] = true
        · exact Or.inr ⟨n, hn, hat.1, by omega, hclean, hat.2⟩
        · left
          intro k hk h1 h2
          by_cases hkn : k = n
          · subst hkn
            simpa [h1] using hat
          · exact hclean k hk h1 (by omega)
      · exact Or.inr ⟨e, he, hfirst, by omega, hclean, hend⟩

end Step

/-! ## Whole runs -/

section Runs

variable {familyOf : Instruction → Option String} {conds : Nat → Bool} {l : List Instruction}
  {atBarriers : Bool} {blocks : List Block}

theorem Splits.block_at (h : Splits familyOf l atBarriers blocks) {s : Pc} {n : Nat}
    (hn : instructionAt l s.offset = some n) (hlead : Leader familyOf l atBarriers n) :
    ∃ b ∈ blocks, b.first = n ∧ s = ⟨b.start, s.tested⟩ := by
  obtain ⟨hlt, hoff⟩ := instructionAt_some hn
  obtain ⟨b, hb, rfl⟩ := h.block_of n hlt hlead
  refine ⟨b, hb, rfl, ?_⟩
  rw [← (h.between b hb).start_eq hlt, hoff]

theorem entry_leader (hl : Laid 0 l) {n : Nat} (hn : instructionAt l Pc.entry.offset = some n) :
    Leader familyOf l atBarriers n := by
  obtain ⟨hlt, hoff⟩ := instructionAt_some hn
  left
  by_contra hne
  have h0 : 0 < l.length := by omega
  have := hl.end_le (m := 0) (n := n) (by omega) hlt
  have := hl.length_pos h0
  simp only [Pc.entry] at hoff
  omega

/-- The instruction machine, standing at the instruction `n` after `j` steps, is inside
the block the block machine stands at: that machine has put out all that came before the
block, and no `s_endpgm` stands between the block's start and `n`. -/
def Follows (familyOf : Instruction → Option String) (conds : Nat → Bool) (l : List Instruction)
    (blocks : List Block) (j n : Nat) : Prop :=
  let m := instructionMachine familyOf conds l
  let bm := blockMachine familyOf conds l blocks
  ∃ k t, ∃ b ∈ blocks, b.first ≤ n ∧ n < b.stop ∧ Clean familyOf l b.first n ∧
    bm.last k (some .entry) = some ⟨b.start, t⟩ ∧
    m.out j .entry = bm.out k (some .entry) ++ m.out (n - b.first) ⟨b.start, t⟩ ∧
    m.last j .entry = m.last (n - b.first) ⟨b.start, t⟩

/-- One more step keeps the instruction machine inside the block or takes it, and the
block machine, to the start of the next. -/
theorem Splits.follows_step (hl : Laid 0 l) (h : Splits familyOf l atBarriers blocks) {j q n : Nat}
    {w : List Nat} {s' : Pc} (hq : q < l.length) (hfollows : Follows familyOf conds l blocks j q)
    (hstep : (instructionMachine familyOf conds l).step
      ((instructionMachine familyOf conds l).last j .entry) = some (w, s'))
    (hn : instructionAt l s'.offset = some n) : Follows familyOf conds l blocks (j + 1) n := by
  obtain ⟨k, t, b, hb, hfirst, hstop, hclean, hbat, hbout, hblast⟩ := hfollows
  obtain ⟨hout, hlast⟩ := Stepper.run_snoc hstep
  rw [hblast] at hstep
  obtain ⟨hout', hlast'⟩ := Stepper.run_snoc hstep
  obtain ⟨-, hat⟩ := h.run_straight conds t hl hb hfirst hstop hq hclean
  have hend : isEnd familyOf l[q] = false := by
    by_contra hend
    have hnone := stepInstruction_end conds t hl hq (by simpa using hend)
    rw [hat] at hstep
    exact absurd (hnone.symm.trans hstep) (by simp)
  have hclean' : Clean familyOf l b.first (q + 1) := fun k hk h1 h2 => by
    by_cases hkq : k = q
    · subst hkq
      exact hend
    · exact hclean k hk h1 (by omega)
  have hcount : q + 1 - b.first = q - b.first + 1 := by omega
  by_cases hinner : q + 1 < b.stop
  · have hql : q + 1 < l.length := by have := (h.between b hb).stop_le; omega
    obtain ⟨-, hat'⟩ := h.run_straight conds t hl hb (by omega) hinner hql hclean'
    have hnq : n = q + 1 := by
      rw [← hlast', ← hcount, hat', hl.instructionAt_offset hql] at hn
      exact (Option.some.inj hn).symm
    subst hnq
    refine ⟨k, t, b, hb, by omega, hinner, hclean', hbat, ?_, ?_⟩
    · rw [hout, hbout, hcount, hout', List.append_assoc]
    · rw [hlast, hcount, hlast']
  · have hqs : q + 1 = b.stop := by omega
    rw [hqs] at hclean' hcount
    obtain ⟨hbody, hstands, hpast⟩ := h.run_clean conds hl hb hclean' t
    rw [hcount, hlast'] at hstands hpast
    rw [hcount, hout'] at hbody
    have hbstep := h.step_block conds hl hb t
    rw [← hbat] at hbstep
    obtain ⟨hbout', hblast''⟩ := Stepper.run_snoc hbstep
    cases hleave : b.leave conds ⟨b.start, t⟩ with
    | none => simp [hpast hleave] at hn
    | some s =>
        rw [hleave] at hstands hblast''
        obtain ⟨rfl, hlead⟩ := hstands
        obtain ⟨b', hb', rfl, hs⟩ := h.block_at hn (hlead n hn)
        refine ⟨k + 1, s.tested, b', hb', le_rfl, (h.between b' hb').first_lt, ?_, ?_, ?_, ?_⟩
        · exact fun _ _ h1 h2 => absurd h1 (by omega)
        · rw [hblast'', ← hs]
        · rw [hout, hbout, hbout', Nat.sub_self, Stepper.out_zero, List.append_nil,
            List.append_assoc, hbody]
        · rw [hlast, Nat.sub_self, Stepper.last_zero, ← hs]

theorem Splits.follows (hl : Laid 0 l) (h : Splits familyOf l atBarriers blocks) {j n : Nat}
    (hn : instructionAt l ((instructionMachine familyOf conds l).last j .entry).offset = some n) :
    Follows familyOf conds l blocks j n := by
  induction j generalizing n with
  | zero =>
      obtain ⟨b, hb, rfl, hs⟩ := h.block_at hn (entry_leader hl hn)
      refine ⟨0, 0, b, hb, le_rfl, (h.between b hb).first_lt, ?_, ?_⟩
      · exact fun _ _ h1 h2 => absurd h1 (by omega)
      · rw [Nat.sub_self]
        exact ⟨congrArg some hs, rfl, hs⟩
  | succ j ih =>
      cases hstep : (instructionMachine familyOf conds l).step
          ((instructionMachine familyOf conds l).last j .entry) with
      | none =>
          have hlast : (instructionMachine familyOf conds l).last (j + 1) .entry =
              (instructionMachine familyOf conds l).last j .entry := by
            rw [Stepper.last_add, Stepper.last_of_stopped hstep]
          have hout : (instructionMachine familyOf conds l).out (j + 1) .entry =
              (instructionMachine familyOf conds l).out j .entry := by
            rw [Stepper.out_add, Stepper.out_of_stopped hstep, List.append_nil]
          rw [hlast] at hn
          rw [Follows, hlast, hout]
          exact ih hn
      | some p =>
          obtain ⟨q, hq⟩ : ∃ q, instructionAt l
              ((instructionMachine familyOf conds l).last j .entry).offset = some q := by
            cases hq : instructionAt l
                ((instructionMachine familyOf conds l).last j .entry).offset with
            | none => exact absurd ((stepInstruction_nothing hq).symm.trans hstep) (by simp)
            | some q => exact ⟨q, rfl⟩
          rw [(Stepper.run_snoc hstep).2] at hn
          exact h.follows_step hl (instructionAt_some hq).1 (ih hq) hstep hn

/-- Nothing but `s_endpgm` follows a reached `s_endpgm` in its block. -/
theorem EndsStand.rest (hl : Laid 0 l) (h : Splits familyOf l atBarriers blocks)
    (hstand : EndsStand familyOf l) {b : Block} (hb : b ∈ blocks) {e : Nat} (hfirst : b.first ≤ e)
    (hreached : Reached familyOf l e) (hend : isEnd familyOf (l.getD e default) = true) :
    ∀ k, e ≤ k → k < b.stop → isEnd familyOf (l.getD k default) = true := by
  have hbet := h.between b hb
  intro k hek hks
  rcases Nat.eq_or_lt_of_le hek with rfl | hlt
  · exact hend
  · have hk : k < l.length := by have := hbet.stop_le; omega
    refine hstand e hreached hend k hlt hk (fun i hei hik htarget => ?_)
    exact hbet.inner i (by omega) (by omega) (htarget.leader hl h.accepts)

/-- A step of the block machine is some steps of the instruction machine, where the
`s_endpgm`s stand. -/
theorem Splits.coarse_step (hl : Laid 0 l) (h : Splits familyOf l atBarriers blocks)
    (hstand : EndsStand familyOf l) {b : Block} (hb : b ∈ blocks) {t j : Nat}
    (hat : (instructionMachine familyOf conds l).last j .entry = ⟨b.start, t⟩) :
    let m := instructionMachine familyOf conds l
    ∃ i, m.out i ⟨b.start, t⟩ = b.body familyOf l ++ b.branch ∧
      StandsAt familyOf conds l atBarriers (b.leave conds ⟨b.start, t⟩) (m.last i ⟨b.start, t⟩) ∧
      ((1 ≤ i ∧ m.step ⟨b.start, t⟩ ≠ none) ∨ b.leave conds ⟨b.start, t⟩ = none) := by
  intro m
  have hbet := h.between b hb
  rcases clean_or_first familyOf b.first hbet.stop_le with
    hclean | ⟨e, he, hfirst, hstop, hclean, hend⟩
  · obtain ⟨hout, hstands, -⟩ := h.run_clean conds hl hb hclean t
    refine ⟨b.stop - b.first, hout, hstands, Or.inl ⟨by have := hbet.first_lt; omega, ?_⟩⟩
    intro hnone
    have hnil : b.body familyOf l ++ b.branch = [] := by
      rw [← hout]
      exact Stepper.out_of_stopped hnone _
    have hends := (h.rest_eq_nil_iff hb le_rfl hbet.first_lt).mp hnil b.first le_rfl hbet.first_lt
    rw [getD_eq hbet.first_lt_length, hclean _ _ le_rfl hbet.first_lt] at hends
    exact absurd hends (by simp)
  · obtain ⟨hstopped, hbody⟩ := h.run_ended conds hl hb hfirst hstop he hclean hend t
    have hreached : Reached familyOf l e := by
      refine ⟨conds, j + (e - b.first), ?_⟩
      rw [Stepper.last_add, hat, (h.run_straight conds t hl hb hfirst hstop he hclean).2]
      exact hl.instructionAt_offset he
    have hrest := hstand.rest hl h hb hfirst hreached (by rwa [getD_eq he])
    rw [(h.rest_eq_nil_iff hb hfirst hstop).mpr hrest, List.append_nil] at hbody
    have hleave : b.leave conds ⟨b.start, t⟩ = none :=
      h.leave_ended hb (hrest (b.stop - 1) (by omega) (by omega)) _
    refine ⟨e - b.first, hbody.symm, ?_, Or.inr hleave⟩
    rw [hleave]
    exact hstopped

theorem Splits.runsAlike (hl : Laid 0 l) (h : Splits familyOf l atBarriers blocks)
    (hstand : EndsStand familyOf l) (conds : Nat → Bool) :
    Stepper.RunsAlike (instructionMachine familyOf conds l) .entry
      (blockMachine familyOf conds l blocks) (some .entry) := by
  have hentry : StandsAt familyOf conds l atBarriers (some .entry) .entry :=
    ⟨rfl, fun n hn => entry_leader hl hn⟩
  refine Stepper.runsAlike_of_coarse (R := fun t s => StandsAt familyOf conds l atBarriers t s ∧
    ∃ j, (instructionMachine familyOf conds l).last j .entry = s) ?_ ?_ ⟨hentry, 0, rfl⟩
  · rintro t s ⟨hstands, -⟩ hstop
    cases t with
    | none => exact hstands
    | some t =>
        obtain ⟨rfl, hlead⟩ := hstands
        refine stepInstruction_nothing ?_
        by_contra hne
        obtain ⟨n, hn⟩ := Option.ne_none_iff_exists'.mp hne
        obtain ⟨b, hb, -, hs⟩ := h.block_at hn (hlead n hn)
        rw [hs, h.step_block conds hl hb] at hstop
        exact absurd hstop (by simp)
  · rintro t s w t' ⟨hstands, j, hj⟩ hstep
    cases t with
    | none => exact absurd hstep (by simp [blockMachine, stepBlock])
    | some t =>
        obtain ⟨rfl, -⟩ := hstands
        obtain ⟨n, hn⟩ : ∃ n, blockAt blocks t.offset = some n := by
          by_contra hnone
          rw [not_exists, ← Option.eq_none_iff_forall_ne_some] at hnone
          simp [blockMachine, stepBlock, hnone] at hstep
        obtain ⟨b, -, hb, hoff⟩ := blockAt_some hn
        obtain ⟨offset, tested⟩ := t
        obtain rfl : b.start = offset := hoff
        rw [h.step_block conds hl hb, Option.some.injEq, Prod.mk.injEq] at hstep
        obtain ⟨rfl, rfl⟩ := hstep
        obtain ⟨i, hout, hstands, hprogress⟩ := h.coarse_step hl hstand hb hj
        refine ⟨i, hout, ⟨hstands, j + i, by rw [Stepper.last_add, hj]⟩, hprogress.imp id ?_⟩
        intro hleave
        rw [hleave]
        rfl

/-- For every list the splitter accepts, running its blocks runs the same instructions,
in the same order and to the same stop, as running it one instruction at a time under
every sequence of conditions, exactly when nothing but `s_endpgm` follows a reached
`s_endpgm` up to the next branch target. -/
theorem blocks_run_alike_iff_endsStand {d : Decode} {atBarriers : Bool} {blocks : List Block}
    (h : splitAtBarriers familyOf d atBarriers = .ok blocks) :
    (∀ conds, Stepper.RunsAlike (instructionMachine familyOf conds d.instructions) .entry
      (blockMachine familyOf conds d.instructions blocks) (some .entry)) ↔
    EndsStand familyOf d.instructions := by
  have hl := d.laid
  have hsplit := splitAtBarriers_ok h
  constructor
  · intro halike e hreached hend n hen hn htargets
    obtain ⟨conds, j, hj⟩ := hreached
    have he := (instructionAt_some hj).1
    obtain ⟨k, t, b, hb, hfirst, hstop, hclean, hbat, hbout, hblast⟩ := hsplit.follows hl hj
    rw [getD_eq he] at hend
    obtain ⟨hstopped, hbody⟩ := hsplit.run_ended conds hl hb hfirst hstop he hclean hend t
    -- The block machine puts out what follows `e` in the block; the other one has stopped.
    have hnil : (List.range' e (b.stop - e)).filter
        (fun k => !isTerminator familyOf (d.instructions.getD k default)) ++ b.branch = [] := by
      obtain ⟨i, hi⟩ := (halike conds).covered (k + 1)
      have hstep := hsplit.step_block conds hl hb t
      rw [← hbat] at hstep
      rw [(Stepper.run_snoc hstep).1, hbody, ← List.append_assoc, ← hbout] at hi
      rw [← hblast] at hstopped
      have hle := (hi.trans (Stepper.out_le_of_stopped hstopped i)).length_le
      rw [List.length_append] at hle
      exact List.length_eq_zero_iff.mp (by omega)
    have hrest := (hsplit.rest_eq_nil_iff hb hfirst hstop).mp hnil
    by_cases hns : n < b.stop
    · exact hrest n (by omega) hns
    · have hbet := hsplit.between b hb
      have hlead : Leader familyOf d.instructions atBarriers (b.stop - 1 + 1) := by
        rw [Nat.sub_add_cancel (by omega)]
        exact hbet.bound_stop.resolve_left (by omega)
      have hlast : b.stop - 1 < d.instructions.length := by omega
      have hend' := hrest (b.stop - 1) (by omega) (by omega)
      rw [getD_eq hlast] at hend'
      exact absurd (hlead.targeted hlast hend') (htargets _ (by omega) (by omega))
  · exact fun hstand conds => hsplit.runsAlike hl hstand conds

end Runs

/-! ## Two exits -/

def sampleFamily (i : Instruction) : Option String :=
  i.encoding.bind (["SOPP", "VOP1"][·]?)

/-- `s_cbranch_scc0` over the first exit to the second. -/
def secondExit : Decode where
  instructions :=
    [⟨0, 4, 0xBF840001, some 0, 4, [.immediate 1]⟩, ⟨4, 4, 0xBF810000, some 0, 1, []⟩,
      ⟨8, 4, 0xBF810000, some 0, 1, []⟩]
  laid := by decide

theorem secondExit_targeted : Targeted sampleFamily secondExit.instructions 2 :=
  ⟨⟨0, 4, 0xBF840001, some 0, 4, [.immediate 1]⟩, by decide, by decide, by decide, by decide⟩

theorem secondExit_runs_alike :
    splitAtBarriers sampleFamily secondExit false =
        .ok [⟨0, 0, 1, .branch 8 4⟩, ⟨4, 1, 2, .ended⟩, ⟨8, 2, 3, .ended⟩] ∧
      ∀ conds, Stepper.RunsAlike
        (instructionMachine sampleFamily conds secondExit.instructions) .entry
        (blockMachine sampleFamily conds secondExit.instructions
          [⟨0, 0, 1, .branch 8 4⟩, ⟨4, 1, 2, .ended⟩, ⟨8, 2, 3, .ended⟩]) (some .entry) := by
  have hsplit : splitAtBarriers sampleFamily secondExit false =
      .ok [⟨0, 0, 1, .branch 8 4⟩, ⟨4, 1, 2, .ended⟩, ⟨8, 2, 3, .ended⟩] := by decide
  refine ⟨hsplit, (blocks_run_alike_iff_endsStand hsplit).mpr ?_⟩
  intro e _ hend n hen hn htargets
  have hn' : n < 3 := hn
  have he : e = 0 ∨ e = 1 := by omega
  rcases he with rfl | rfl
  · exact absurd hend (by decide)
  · obtain rfl : n = 2 := by omega
    exact absurd secondExit_targeted (htargets 2 (by omega) (by omega))

/-- The same with a `v_mov_b32` between the exits, which nothing branches to. -/
def movedExit : Decode where
  instructions :=
    [⟨0, 4, 0xBF840002, some 0, 4, [.immediate 2]⟩, ⟨4, 4, 0xBF810000, some 0, 1, []⟩,
      ⟨8, 4, 0x7E000280, some 1, 1, []⟩, ⟨12, 4, 0xBF810000, some 0, 1, []⟩]
  laid := by decide

/-- The block after the branch holds the exit and what follows it, so it runs the
`v_mov_b32` at index 2, which no run of the instructions reaches. -/
theorem movedExit_not_alike :
    ∃ blocks, splitAtBarriers sampleFamily movedExit false = .ok blocks ∧
      ¬ Stepper.RunsAlike
        (instructionMachine sampleFamily (fun _ => false) movedExit.instructions) .entry
        (blockMachine sampleFamily (fun _ => false) movedExit.instructions blocks)
        (some .entry) := by
  refine ⟨[⟨0, 0, 1, .branch 12 4⟩, ⟨4, 1, 3, .fallthrough 12⟩, ⟨12, 3, 4, .ended⟩],
    by decide, fun halike => ?_⟩
  obtain ⟨j, hj⟩ := halike.covered 2
  have hstopped : (instructionMachine sampleFamily (fun _ => false) movedExit.instructions).step
      ((instructionMachine sampleFamily (fun _ => false) movedExit.instructions).last 1 .entry) =
      none := by decide
  have hle := hj.trans (Stepper.out_le_of_stopped hstopped j)
  exact absurd hle (by decide)

end Orbistoun.Translate
