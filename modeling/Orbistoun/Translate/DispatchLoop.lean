import Orbistoun.Lib.Stepper
import Orbistoun.Translate.Blocks.Run

/-! # The dispatch loop and its budget

`emit_loop` and `cap_loop`: the loop one segment of blocks becomes, as the words it reads and
writes each time around. An arm that can jump back counts the jumps it takes, and the wave is sent
to the program's end once they pass the cap. An arm that is not counted only goes forward.
-/

namespace Orbistoun.Translate

open Orbistoun.Lib

def jumpsBack (block : Block) (all : List Block) (index : Nat) : Bool :=
  match block.terminator with
  | .jump target | .branch target _ => (blockAt all target).any (fun n => n ≤ index)
  | .ended | .fallthrough _ => false

/-- The program counter, and the backward jumps counted. -/
structure Words where
  counter : UInt32
  jumps : UInt32
  deriving DecidableEq, Repr

/-- What `cap_loop` writes after an arm: the jump counted where it goes back, and the program's end
for `next` once the count passes the cap. -/
def capLoop (cap exit own next jumps : UInt32) : Words :=
  let backward := next ≤ own
  let step : UInt32 := if backward then 1 else 0
  let after := jumps + step
  let cut := cap < after
  { counter := if cut then exit else next, jumps := after }

/-- One arm of the switch: its block, where it leaves for, and whether that is counted. -/
structure Arm where
  index : UInt32
  next : Successor
  counted : Bool
  deriving DecidableEq, Repr

/-- The loop written for one segment: its range of counter values, the exit value, the cap where
the model has a budget, and the arms. -/
structure Dispatch where
  low : UInt32
  high : UInt32
  exit : UInt32
  cap : Option UInt32
  arms : List Arm
  deriving DecidableEq, Repr

def arms (all : List Block) : List (Block × Nat) → Except TranslateError (List Arm)
  | [] => .ok []
  | (block, index) :: rest => do
      let next ← successor block all
      let arms ← arms all rest
      return ⟨UInt32.ofNat index, next, jumpsBack block all index⟩ :: arms

def emitLoop (all : List Block) (low high : Nat) (cap : Option UInt32) :
    Except TranslateError Dispatch :=
  if all.length < 2 ^ 32 then do
    let arms ← arms all ((all.zipIdx.take high).drop low)
    return ⟨UInt32.ofNat low, UInt32.ofNat high, UInt32.ofNat all.length, cap, arms⟩
  else .error (.unsupported 0 "a shader with more blocks than a program counter can number")

/-- The counter value an arm's block leaves behind, its branch taken or not. -/
def Successor.chosen (taken : Bool) : Successor → Nat
  | .always counter => counter
  | .select target fallthrough => if taken then target else fallthrough

namespace Dispatch

/-- The header's test: the counter less the start, against the length. -/
def running (loop : Dispatch) (w : Words) : Bool :=
  if loop.low = 0 then w.counter < loop.high else w.counter - loop.low < loop.high - loop.low

/-- Once around the loop. The arm run is put out; `tested` branches have been asked before. -/
def step (loop : Dispatch) (taken : Nat → Bool) (s : Words × Nat) :
    Option (List UInt32 × Words × Nat) :=
  let (w, tested) := s
  if loop.running w then
    match loop.arms.find? (fun arm => arm.index == w.counter) with
    | none => some ([], { w with counter := loop.exit }, tested)
    | some arm =>
        let next := UInt32.ofNat (arm.next.chosen (taken tested))
        match arm.counted, loop.cap with
        | true, some cap =>
            some ([arm.index], capLoop cap loop.exit arm.index next w.jumps, tested + 1)
        | _, _ => some ([arm.index], { w with counter := next }, tested + 1)
  else none

/-- The loop under a sequence of branch outcomes. -/
def machine (loop : Dispatch) (taken : Nat → Bool) : Stepper (Words × Nat) UInt32 :=
  ⟨loop.step taken⟩

end Dispatch

/-! ## Blocks in order -/

section Order

variable {familyOf : Instruction → Option String} {l : List Instruction}

theorem cut_firsts {bs : List Nat} {blocks : List Block} (h : cut familyOf l bs = .ok blocks) :
    blocks.map Block.first = bs := by
  induction bs generalizing blocks with
  | nil =>
    obtain rfl : blocks = [] := by simpa [cut] using h.symm
    rfl
  | cons first rest ih =>
    obtain ⟨terminator, blocks', -, hc, rfl⟩ := cut_cons_ok h
    rw [List.map_cons, ih hc]

theorem splitAtBarriers_sorted {d : Decode} {atBarriers : Bool} {blocks : List Block}
    (h : splitAtBarriers familyOf d atBarriers = .ok blocks) :
    blocks.Pairwise (fun b b' => b.first < b'.first) := by
  by_cases hnil : d.instructions = []
  · have hblocks : blocks = [] := by simpa [splitAtBarriers, hnil] using h.symm
    subst hblocks
    exact List.Pairwise.nil
  · simp only [splitAtBarriers, List.isEmpty_iff, hnil, if_false, bind, Except.bind] at h
    cases hs : starts familyOf d.instructions atBarriers with
    | error e => simp [hs] at h
    | ok s =>
      simp only [hs] at h
      have hsorted : s.toList.Pairwise (· < ·) :=
        Std.TreeSet.ordered_toList.imp (fun h => Nat.compare_eq_lt.mp h)
      rw [← cut_firsts h, List.pairwise_map] at hsorted
      exact hsorted

/-- Where a block runs on, past its last instruction. -/
theorem terminatorAt_on {stop next : Nat} {term : Terminator}
    (h : terminatorAt familyOf l stop = .ok term)
    (hon : term = .fallthrough next ∨ ∃ target, term = .branch target next) :
    next = (l.getD (stop - 1) default).offset + (l.getD (stop - 1) default).length := by
  unfold terminatorAt at h
  dsimp only at h
  cases hc : conditionOf familyOf (l.getD (stop - 1) default) with
  | none =>
    simp only [hc] at h
    rcases hon with rfl | ⟨target, rfl⟩ <;> split_ifs at h <;> cases h
    rfl
  | some c =>
    simp only [hc] at h
    cases ht : branchTarget (l.getD (stop - 1) default) with
    | error e =>
      rw [ht] at h
      cases c <;> cases h
    | ok t =>
      rw [ht] at h
      rcases hon with rfl | ⟨target, rfl⟩ <;> cases c <;> cases h <;> rfl

theorem Laid.offset_mono {start : Nat} (hl : Laid start l) {m n : Nat} (hmn : m ≤ n)
    (hn : n < l.length) : l[m].offset ≤ l[n].offset := by
  rcases Nat.eq_or_lt_of_le hmn with heq | hlt
  · subst heq
    exact Nat.le_refl _
  · have := hl.end_le hlt hn
    omega

theorem Splits.after {start : Nat} {atBarriers : Bool} {blocks : List Block} (hl : Laid start l)
    (h : Splits familyOf l atBarriers blocks)
    (hsorted : blocks.Pairwise (fun b b' => b.first < b'.first)) {b : Block} {index next m : Nat}
    (hb : blocks[index]? = some b)
    (hon : b.terminator = .fallthrough next ∨ ∃ target, b.terminator = .branch target next)
    (hat : blockAt blocks next = some m) : index < m := by
  by_contra hnot
  have hbet := h.between b (List.mem_of_getElem? hb)
  obtain ⟨b', hb', hmem', hstart⟩ := blockAt_some hat
  have hbet' := h.between b' hmem'
  have hfirst : b'.first ≤ b.first := by
    rcases Nat.eq_or_lt_of_le (Nat.not_lt.mp hnot) with heq | hlt
    · subst heq
      rw [hb] at hb'
      cases hb'
      exact Nat.le_refl _
    · obtain ⟨hm, rfl⟩ := List.getElem?_eq_some_iff.mp hb'
      obtain ⟨hi, rfl⟩ := List.getElem?_eq_some_iff.mp hb
      exact (List.pairwise_iff_getElem.mp hsorted m index hm hi hlt).le
  have hlast : b.stop - 1 < l.length := by
    have := hbet.stop_le
    have := hbet.first_lt
    omega
  have hnext := terminatorAt_on hbet.terminator_eq hon
  rw [getD_eq hlast] at hnext
  have hle : b'.first ≤ b.stop - 1 := by
    have := hbet.first_lt
    omega
  have hmono := hl.offset_mono hle hlast
  rw [hbet'.start_eq hbet'.first_lt_length, hstart] at hmono
  have := hl.length_pos hlast
  omega

/-- An arm that is not counted goes forward, whichever way its branch goes. -/
theorem Splits.forward {start : Nat} {atBarriers : Bool} {blocks : List Block} (hl : Laid start l)
    (h : Splits familyOf l atBarriers blocks)
    (hsorted : blocks.Pairwise (fun b b' => b.first < b'.first)) {b : Block} {index : Nat}
    (hb : blocks[index]? = some b) {next : Successor} (hnext : successor b blocks = .ok next)
    (taken : Bool) :
    next.chosen taken ≤ blocks.length ∧
      (jumpsBack b blocks index = false → index < next.chosen taken) := by
  have hindex : index < blocks.length := (List.getElem?_eq_some_iff.mp hb).1
  have hfound : ∀ {offset m : Nat}, blockAt blocks offset = some m → m < blocks.length := by
    intro offset m hat
    obtain ⟨b', hb', -⟩ := blockAt_some hat
    exact (List.getElem?_eq_some_iff.mp hb').1
  unfold successor at hnext
  unfold jumpsBack
  cases hterm : b.terminator with
  | ended =>
    simp only [hterm] at hnext
    cases hnext
    exact ⟨Nat.le_refl _, fun _ => hindex⟩
  | jump target =>
    simp only [hterm] at hnext
    cases hat : blockAt blocks target with
    | none => simp [hat, bind, Except.bind] at hnext
    | some m =>
      simp only [hat, bind, Except.bind, pure, Except.pure, Except.ok.injEq] at hnext
      subst hnext
      simp only [Successor.chosen, hat, Option.any_some, decide_eq_false_iff_not]
      exact ⟨(hfound hat).le, Nat.not_le.mp⟩
  | fallthrough target =>
    simp only [hterm] at hnext
    cases hat : blockAt blocks target with
    | none => simp [hat, bind, Except.bind] at hnext
    | some m =>
      simp only [hat, bind, Except.bind, pure, Except.pure, Except.ok.injEq] at hnext
      subst hnext
      exact ⟨(hfound hat).le, fun _ => h.after hl hsorted hb (Or.inl hterm) hat⟩
  | branch target fallthrough =>
    simp only [hterm] at hnext
    cases hat : blockAt blocks target with
    | none => simp [hat, bind, Except.bind] at hnext
    | some m =>
      cases hon : blockAt blocks fallthrough with
      | none => simp [hat, hon, bind, Except.bind] at hnext
      | some m' =>
        simp only [hat, hon, bind, Except.bind, pure, Except.pure, Except.ok.injEq] at hnext
        subst hnext
        have hafter := h.after hl hsorted hb (Or.inr ⟨target, hterm⟩) hon
        simp only [Successor.chosen, hat, Option.any_some, decide_eq_false_iff_not]
        cases taken with
        | true => exact ⟨(hfound hat).le, Nat.not_le.mp⟩
        | false => exact ⟨(hfound hon).le, fun _ => hafter⟩

end Order

/-! ## The arms -/

/-- What the arms of a loop are: one for each counter value in its range, that leaves for a counter
value of the program and, where it is not counted, goes forward. -/
structure Dispatch.Armed (loop : Dispatch) (low high exit : Nat) : Prop where
  low_eq : loop.low.toNat = low
  high_eq : loop.high.toNat = high
  exit_eq : loop.exit.toNat = exit
  within : low ≤ high ∧ high ≤ exit
  find : ∀ i : UInt32, low ≤ i.toNat → i.toNat < high → ∃ arm,
    loop.arms.find? (fun arm => arm.index == i) = some arm ∧ arm.index = i
  forward : ∀ arm ∈ loop.arms, ∀ taken, arm.next.chosen taken ≤ exit ∧
    (arm.counted = false → arm.index.toNat < arm.next.chosen taken)
  exit_lt : exit < 2 ^ 32

theorem arms_ok {all : List Block} {part : List (Block × Nat)} {as : List Arm}
    (h : arms all part = .ok as) :
    (∀ p ∈ part, ∃ arm ∈ as, arm.index = UInt32.ofNat p.2) ∧
      ∀ arm ∈ as, ∃ p ∈ part, arm.index = UInt32.ofNat p.2 ∧ successor p.1 all = .ok arm.next ∧
        arm.counted = jumpsBack p.1 all p.2 := by
  induction part generalizing as with
  | nil =>
    cases h
    simp
  | cons p rest ih =>
    obtain ⟨block, index⟩ := p
    simp only [arms, bind, Except.bind, pure, Except.pure] at h
    cases hnext : successor block all with
    | error e => simp [hnext] at h
    | ok next =>
      cases hrest : arms all rest with
      | error e => simp [hnext, hrest] at h
      | ok as' =>
        simp only [hnext, hrest, Except.ok.injEq] at h
        subst h
        obtain ⟨hall, hfrom⟩ := ih hrest
        constructor
        · intro p hp
          rcases List.mem_cons.mp hp with rfl | hp
          · exact ⟨_, List.mem_cons_self, rfl⟩
          · obtain ⟨arm, harm, hindex⟩ := hall p hp
            exact ⟨arm, List.mem_cons_of_mem _ harm, hindex⟩
        · intro arm harm
          rcases List.mem_cons.mp harm with rfl | harm
          · exact ⟨_, List.mem_cons_self, rfl, hnext, rfl⟩
          · obtain ⟨p, hp, hspec⟩ := hfrom arm harm
            exact ⟨p, List.mem_cons_of_mem _ hp, hspec⟩

theorem emitLoop_armed {familyOf : Instruction → Option String} {d : Decode} {atBarriers : Bool}
    {blocks : List Block} (hsplit : splitAtBarriers familyOf d atBarriers = .ok blocks)
    {low high : Nat} (hlow : low ≤ high) (hhigh : high ≤ blocks.length) {cap : Option UInt32}
    {loop : Dispatch} (hloop : emitLoop blocks low high cap = .ok loop) :
    loop.Armed low high blocks.length ∧ loop.cap = cap := by
  unfold emitLoop at hloop
  split at hloop
  · next hlen =>
    cases has : arms blocks ((blocks.zipIdx.take high).drop low) with
    | error e => simp [has, bind, Except.bind] at hloop
    | ok as =>
      simp only [has, bind, Except.bind, pure, Except.pure, Except.ok.injEq] at hloop
      subst hloop
      obtain ⟨hall, hfrom⟩ := arms_ok has
      have hnat : ∀ n, n ≤ blocks.length → (UInt32.ofNat n).toNat = n := by
        intro n hn
        exact UInt32.toNat_ofNat_of_lt' (Nat.lt_of_le_of_lt hn hlen)
      have hpart : ∀ (b : Block) (i : Nat), (b, i) ∈ (blocks.zipIdx.take high).drop low ↔
          blocks[i]? = some b ∧ low ≤ i ∧ i < high := by
        intro b i
        rw [List.mem_iff_getElem?]
        simp only [List.getElem?_drop, List.getElem?_take, List.getElem?_zipIdx, Nat.zero_add]
        constructor
        · intro hk
          obtain ⟨k, hk⟩ := hk
          split at hk
          · next hlt =>
            obtain ⟨b', hb', heq⟩ := Option.map_eq_some_iff.mp hk
            cases heq
            exact ⟨hb', by omega, hlt⟩
          · cases hk
        · intro hin
          obtain ⟨hb, hli, hih⟩ := hin
          refine ⟨i - low, ?_⟩
          rw [Nat.add_sub_cancel' hli, if_pos hih, hb]
          rfl
      refine ⟨⟨hnat low (by omega), hnat high hhigh, hnat _ (Nat.le_refl _), ⟨hlow, hhigh⟩, ?_, ?_,
        hlen⟩, rfl⟩
      · intro i hli hih
        obtain ⟨b, hb⟩ : ∃ b, blocks[i.toNat]? = some b :=
          ⟨_, List.getElem?_eq_getElem (by omega)⟩
        obtain ⟨arm, harm, hindex⟩ := hall (b, i.toNat) ((hpart b i.toNat).mpr ⟨hb, hli, hih⟩)
        have hself : arm.index = i := by rw [hindex, UInt32.ofNat_toNat]
        have hsome : (as.find? (fun arm => arm.index == i)).isSome = true := by
          rw [List.find?_isSome]
          exact ⟨arm, harm, beq_iff_eq.mpr hself⟩
        obtain ⟨arm', harm'⟩ := Option.isSome_iff_exists.mp hsome
        have hfound := List.find?_some harm'
        exact ⟨arm', harm', by simpa using hfound⟩
      · intro arm harm taken
        obtain ⟨⟨b, i⟩, hp, hindex, hnext, hcounted⟩ := hfrom arm harm
        obtain ⟨hb, -, hi⟩ := (hpart b i).mp hp
        have hforward := (splitAtBarriers_ok hsplit).forward d.laid (splitAtBarriers_sorted hsplit)
          hb hnext taken
        rw [hcounted, hindex, hnat i (by omega)]
        exact hforward
  · cases hloop

/-! ## The budget -/

theorem capLoop_back {cap own next jumps : UInt32} (exit : UInt32) (hback : next ≤ own)
    (hjumps : jumps.toNat ≤ cap.toNat) (hmax : cap.toNat + 1 < 2 ^ 32) :
    (capLoop cap exit own next jumps).jumps.toNat = jumps.toNat + 1 ∧
      (capLoop cap exit own next jumps).counter =
        if cap.toNat < jumps.toNat + 1 then exit else next := by
  have hafter : (jumps + 1).toNat = jumps.toNat + 1 := by
    rw [UInt32.toNat_add]
    exact Nat.mod_eq_of_lt (by simp only [UInt32.reduceToNat]; omega)
  unfold capLoop
  simp only [if_pos hback, UInt32.lt_iff_toNat_lt, hafter]
  trivial

theorem capLoop_forward {cap own next jumps : UInt32} (exit : UInt32) (hforward : own < next)
    (hjumps : jumps.toNat ≤ cap.toNat) : capLoop cap exit own next jumps = ⟨next, jumps⟩ := by
  have hnot : ¬ next ≤ own := UInt32.not_le.mpr hforward
  have hcut : ¬ cap < jumps := by
    rw [UInt32.lt_iff_toNat_lt]
    omega
  unfold capLoop
  simp only [if_neg hnot, UInt32.add_zero, if_neg hcut]

namespace Dispatch

variable {loop : Dispatch} {low high exit : Nat}

/-- The header's one comparison is that the counter is in the range. -/
theorem Armed.running_iff (h : loop.Armed low high exit) (w : Words) :
    loop.running w = true ↔ low ≤ w.counter.toNat ∧ w.counter.toNat < high := by
  have hwithin := h.within
  have hexit := h.exit_lt
  have hcounter := w.counter.toNat_lt
  unfold running
  split
  · next hzero =>
    have hlow : low = 0 := by
      rw [← h.low_eq, hzero]
      rfl
    rw [decide_eq_true_eq, UInt32.lt_iff_toNat_lt, h.high_eq]
    omega
  · rw [decide_eq_true_eq, UInt32.lt_iff_toNat_lt, UInt32.toNat_sub, UInt32.toNat_sub, h.high_eq,
      h.low_eq]
    omega

/-- A wave that may still run: its jumps have not passed the cap, unless it was sent to the end. -/
def Fits (cap : UInt32) (loop : Dispatch) (w : Words) : Prop :=
  w.jumps ≤ cap ∨ w.counter = loop.exit

/-- How many blocks a wave may run yet. -/
def left (cap : UInt32) (low high : Nat) (w : Words) : Nat :=
  (cap.toNat + 1 - w.jumps.toNat) * (high - low) - (w.counter.toNat - low)

/-- Once around runs one block and leaves fewer to run. -/
theorem Armed.step_left (h : loop.Armed low high exit) {cap : UInt32} (hcap : loop.cap = some cap)
    (hmax : cap.toNat + 1 < 2 ^ 32) {taken : Nat → Bool} {w : Words} {tested : Nat}
    (hfits : loop.Fits cap w) (hrun : loop.running w = true) :
    ∃ w', loop.step taken (w, tested) = some ([w.counter], w', tested + 1) ∧ loop.Fits cap w' ∧
      (loop.running w' = true → left cap low high w' < left cap low high w) ∧
      0 < left cap low high w := by
  obtain ⟨hlo, hhi⟩ := (h.running_iff w).mp hrun
  have hwithin := h.within
  have hjumps : w.jumps.toNat ≤ cap.toNat := by
    rcases hfits with hle | hexit
    · exact hle
    · rw [hexit, h.exit_eq] at hhi
      omega
  obtain ⟨arm, hfind, hindex⟩ := h.find w.counter hlo hhi
  obtain ⟨hnext, hforward⟩ := h.forward arm (List.mem_of_find?_eq_some hfind) (taken tested)
  have hvalue : (UInt32.ofNat (arm.next.chosen (taken tested))).toNat =
      arm.next.chosen (taken tested) :=
    UInt32.toNat_ofNat_of_lt' (Nat.lt_of_le_of_lt hnext h.exit_lt)
  generalize hnextEq : UInt32.ofNat (arm.next.chosen (taken tested)) = next at hvalue
  -- what is left before: the rest of this round, and a round for each jump that may be taken yet
  have hround : left cap low high w = (cap.toNat - w.jumps.toNat) * (high - low) +
      ((high - low) - (w.counter.toNat - low)) := by
    unfold left
    rw [Nat.sub_add_comm hjumps, Nat.add_one_mul]
    omega
  have hpos : 0 < left cap low high w := by omega
  have hgoes : ∀ w' : Words, w'.jumps = w.jumps → w.counter.toNat < w'.counter.toNat →
      loop.running w' = true → left cap low high w' < left cap low high w := by
    intro w' hsame hlt hrun'
    have hin := (h.running_iff w').mp hrun'
    unfold left at hround ⊢
    rw [hround, hsame, Nat.sub_add_comm hjumps, Nat.add_one_mul]
    omega
  unfold step
  dsimp only
  rw [if_pos hrun, hfind]
  dsimp only
  rw [hnextEq, hcap]
  cases hcounted : arm.counted with
  | false =>
    rw [hcounted] at hforward
    refine ⟨{ w with counter := next }, by rw [hindex], Or.inl hjumps, ?_, hpos⟩
    apply hgoes { w with counter := next } rfl
    dsimp only
    rw [hvalue, ← hindex]
    exact hforward rfl
  | true =>
    refine ⟨capLoop cap loop.exit w.counter next w.jumps, by rw [hindex], ?_⟩
    by_cases hback : next ≤ w.counter
    · obtain ⟨hcount, hcut⟩ := capLoop_back loop.exit hback hjumps hmax
      generalize capLoop cap loop.exit w.counter next w.jumps = w' at hcount hcut
      by_cases hpast : cap.toNat < w.jumps.toNat + 1
      · rw [if_pos hpast] at hcut
        refine ⟨Or.inr hcut, ?_, hpos⟩
        intro hrun'
        have hin := (h.running_iff w').mp hrun'
        rw [hcut, h.exit_eq] at hin
        omega
      · refine ⟨Or.inl ?_, ?_, hpos⟩
        · rw [UInt32.le_iff_toNat_le, hcount]
          omega
        · intro _
          have hless : left cap low high w' ≤
              (cap.toNat - w.jumps.toNat) * (high - low) := by
            unfold left
            rw [hcount, Nat.add_sub_add_right]
            exact Nat.sub_le _ _
          omega
    · have hless : w.counter < next := UInt32.not_le.mp hback
      rw [capLoop_forward loop.exit hless hjumps]
      refine ⟨Or.inl hjumps, ?_, hpos⟩
      apply hgoes { w with counter := next } rfl
      exact UInt32.lt_iff_toNat_lt.mp hless

theorem step_stopped (taken : Nat → Bool) {w : Words} (tested : Nat)
    (hrun : loop.running w = false) : (loop.machine taken).step (w, tested) = none := by
  show loop.step taken (w, tested) = none
  unfold step
  simp [hrun]

theorem Armed.run_left (h : loop.Armed low high exit) {cap : UInt32} (hcap : loop.cap = some cap)
    (hmax : cap.toNat + 1 < 2 ^ 32) (taken : Nat → Bool) {w : Words} (tested : Nat)
    (hfits : loop.Fits cap w) :
    (∀ j, ((loop.machine taken).out j (w, tested)).length ≤
          (if loop.running w then left cap low high w else 0) ∧
        loop.Fits cap ((loop.machine taken).last j (w, tested)).1) ∧
      (loop.machine taken).Stops (w, tested) := by
  induction hn : left cap low high w using Nat.strong_induction_on generalizing w tested with
  | _ n ih =>
    have hstopped : ∀ {w : Words} (tested : Nat), loop.Fits cap w → loop.running w = false →
        (∀ j, ((loop.machine taken).out j (w, tested)).length ≤ 0 ∧
          loop.Fits cap ((loop.machine taken).last j (w, tested)).1) ∧
        (loop.machine taken).Stops (w, tested) := by
      intro w tested hfits hrun
      have hstop := step_stopped taken tested hrun
      constructor
      · intro j
        rw [Stepper.out_of_stopped hstop, Stepper.last_of_stopped hstop]
        exact ⟨Nat.le_refl _, hfits⟩
      · exact ⟨0, hstop⟩
    cases hrun : loop.running w with
    | false => exact hstopped tested hfits hrun
    | true =>
      obtain ⟨w', hstep, hfits', hless, hpos⟩ := h.step_left hcap hmax hfits hrun
      have hstep : (loop.machine taken).step (w, tested) = some ([w.counter], w', tested + 1) :=
        hstep
      have hrest : (∀ j, ((loop.machine taken).out j (w', tested + 1)).length < n ∧
          loop.Fits cap ((loop.machine taken).last j (w', tested + 1)).1) ∧
          (loop.machine taken).Stops (w', tested + 1) := by
        cases hrun' : loop.running w' with
        | false =>
          obtain ⟨hout, hstops⟩ := hstopped (tested + 1) hfits' hrun'
          refine ⟨fun j => ⟨?_, (hout j).2⟩, hstops⟩
          have := (hout j).1
          omega
        | true =>
          have hlt := hless hrun'
          rw [hn] at hlt
          obtain ⟨hout, hstops⟩ := ih _ hlt (tested + 1) hfits' rfl
          rw [hrun', if_pos rfl] at hout
          exact ⟨fun j => ⟨Nat.lt_of_le_of_lt (hout j).1 hlt, (hout j).2⟩, hstops⟩
      obtain ⟨hout, k, hk⟩ := hrest
      rw [if_pos rfl]
      constructor
      · intro j
        cases j with
        | zero =>
          rw [Stepper.out_zero, Stepper.last_zero]
          exact ⟨Nat.zero_le _, hfits⟩
        | succ j =>
          rw [Stepper.out_succ hstep, Stepper.last_succ hstep, List.length_append]
          have := (hout j).1
          simp only [List.length_singleton]
          exact ⟨by omega, (hout j).2⟩
      · refine ⟨k + 1, ?_⟩
        rw [Stepper.last_succ hstep]
        exact hk

end Dispatch

/-- Under every sequence of branch outcomes the loop over a segment runs a round of its blocks for
each jump of the budget at most, and one more, and then stops; a wave that entered it within the
budget leaves it so or at the program's end. Each arm that is not counted goes forward. -/
theorem dispatch_within_budget {familyOf : Instruction → Option String} {d : Decode}
    {atBarriers : Bool} {blocks : List Block}
    (hsplit : splitAtBarriers familyOf d atBarriers = .ok blocks) {low high : Nat}
    (hlow : low ≤ high) (hhigh : high ≤ blocks.length) {cap : UInt32} (hmax : cap.toNat + 1 < 2 ^ 32)
    {loop : Dispatch} (hloop : emitLoop blocks low high (some cap) = .ok loop) {w : Words}
    (hfits : loop.Fits cap w) (taken : Nat → Bool) :
    (∀ j, ((loop.machine taken).out j (w, 0)).length ≤ (cap.toNat + 1) * (high - low) ∧
        loop.Fits cap ((loop.machine taken).last j (w, 0)).1) ∧
      (loop.machine taken).Stops (w, 0) ∧
      ∀ arm ∈ loop.arms, arm.counted = false →
        ∀ goes, arm.index.toNat < arm.next.chosen goes := by
  obtain ⟨harmed, hcap⟩ := emitLoop_armed hsplit hlow hhigh hloop
  obtain ⟨hout, hstops⟩ := harmed.run_left hcap hmax taken 0 hfits
  refine ⟨?_, hstops, ?_⟩
  · intro j
    obtain ⟨hlength, hlast⟩ := hout j
    apply And.intro _ hlast
    apply hlength.trans
    split
    · unfold Dispatch.left
      apply (Nat.sub_le _ _).trans
      exact Nat.mul_le_mul_right _ (Nat.sub_le _ _)
    · exact Nat.zero_le _
  · intro arm harm hnot goes
    exact (harmed.forward arm harm goes).2 hnot

/-- A block that branches to itself. -/
def spin : Decode where
  instructions := [⟨0, 4, 0xBF82FFFF, some 0, 2, [.immediate (-1)]⟩]
  laid := by decide

def spinLoop (cap : UInt32) : Dispatch := ⟨0, 1, 1, some cap, [⟨0, .always 0, true⟩]⟩

theorem dispatch_within_budget_spin :
    (((spinLoop 3).machine (fun _ => true)).out 10 (⟨0, 0⟩, 0)).length ≤ 4 := by
  have hsplit : splitAtBarriers sampleFamily spin false = .ok [⟨0, 0, 1, .jump 0⟩] := by decide
  have hloop : emitLoop [⟨0, 0, 1, .jump 0⟩] 0 1 (some 3) = .ok (spinLoop 3) := by decide
  exact ((dispatch_within_budget hsplit (Nat.zero_le 1) (Nat.le_refl 1) (by decide) hloop
    (Or.inl (by decide)) (fun _ => true)).1 10).1

/-- A count past the largest cap wraps, so under that cap the block runs for ever. -/
theorem spins_at_largest_cap :
    splitAtBarriers sampleFamily spin false = .ok [⟨0, 0, 1, .jump 0⟩] ∧
      emitLoop [⟨0, 0, 1, .jump 0⟩] 0 1 (some 0xFFFFFFFF) = .ok (spinLoop 0xFFFFFFFF) ∧
      ∀ j, (((spinLoop 0xFFFFFFFF).machine (fun _ => true)).out j (⟨0, 0⟩, 0)).length = j := by
  refine ⟨by decide, by decide, ?_⟩
  have hstep : ∀ jumps tested, ((spinLoop 0xFFFFFFFF).machine (fun _ => true)).step
      (⟨0, jumps⟩, tested) = some ([0], ⟨0, jumps + 1⟩, tested + 1) := by
    intro jumps tested
    have hcut : ¬ (0xFFFFFFFF : UInt32) < jumps + 1 := by
      rw [UInt32.lt_iff_toNat_lt]
      have := (jumps + 1).toNat_lt
      simp only [UInt32.reduceToNat]
      omega
    simp [Dispatch.machine, Dispatch.step, Dispatch.running, spinLoop, capLoop, Successor.chosen,
      hcut]
  have hrun : ∀ j jumps tested, (((spinLoop 0xFFFFFFFF).machine (fun _ => true)).out j
      (⟨0, jumps⟩, tested)).length = j := by
    intro j
    induction j with
    | zero =>
      intro jumps tested
      rfl
    | succ j ih =>
      intro jumps tested
      rw [Stepper.out_succ (hstep jumps tested), List.length_append, ih, List.length_singleton]
      omega
  exact fun j => hrun j 0 0

end Orbistoun.Translate
