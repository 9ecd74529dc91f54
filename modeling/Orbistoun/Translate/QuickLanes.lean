import Mathlib.Tactic
import Orbistoun.Translate.LaneMask

/-! # A lane run's masks, found natively

`quick_lanes.rs` runs a compute wave's steps over plain words in place of the model a lane
run translates through. A lane mask is two scalar registers there, the second of which is
part of the mask in a wave of 64 and a register of its own in a wave of 32. The model asks
which; a run does not.
-/

namespace Orbistoun.Translate.QuickLanes

abbrev Word := BitVec 32

def SCALAR_CODES : Nat := 128

def VCC : Nat := 106

def EXEC : Nat := 126

def SCALAR_REGISTERS : Nat := 106

/-- The vector registers seeded with a draw's ids, unknown to a run. -/
def SEEDED_IDS : List Nat := [0, 1, 2, 5]

/-- A branch target outside the program's words. -/
def OUTSIDE : Nat := 2 ^ 64 - 1

inductive Source where
  | scalar (code : Nat)
  | vector (register : Nat)
  | constant (value : Word)
  deriving DecidableEq, Repr

inductive ScalarOp where
  | subtract
  | multiplyLow
  | multiplyHigh
  deriving DecidableEq, Repr

/-- The unsigned compares a run carries out. -/
inductive CompareOp where
  | less
  | lessOrEqual
  | greater
  | greaterOrEqual
  | equal
  | notEqual
  deriving DecidableEq, Repr

def CompareOp.holds (op : CompareOp) (a b : Word) : Bool :=
  match op with
  | .less => decide (a < b)
  | .lessOrEqual => decide (a ≤ b)
  | .greater => decide (b < a)
  | .greaterOrEqual => decide (b ≤ a)
  | .equal => a == b
  | .notEqual => a != b

/-- The steps `run_wave_step` takes. -/
inductive Step where
  | scalar (op : ScalarOp) (destination : Nat) (a b : Source)
  | mask (not : Bool) (destination a b : Nat)
  | maskBranch (target mask : Nat) (zero : Bool)
  | firstLane (destination : Nat) (source : Source)
  | compare32 (op : CompareOp) (mask : Nat) (a b : Source)
  | forget (first count : Nat)
  deriving DecidableEq, Repr

/-- A run's registers: a word where it is known, of each scalar code and of each vector
register in each modelled lane. -/
structure Lanes where
  scalars : Nat → Option Word
  vectors : Nat → Nat → Option Word
  modelled : Nat
  condition : Option Bool

/-- The two halves of a mask as one. -/
def joined (low high : Word) : BitVec 64 := low.setWidth 64 ||| (high.setWidth 64 <<< 32)

def lowHalf (m : BitVec 64) : Word := m.setWidth 32

def highHalf (m : BitVec 64) : Word := (m >>> 32).setWidth 32

namespace Lanes

/-- A run's registers at entry to a wave `width` wide, `lanes` of it a draw's. -/
def start (firstRegister : Nat) (userData : List Word) (width lanes : Nat) (crosses : Bool) :
    Lanes :=
  let width := max 1 (min width 64)
  let modelled := if crosses then width else max 1 (min lanes width)
  let mask : BitVec 64 := BitVec.allOnes 64 >>> (64 - width)
  { scalars := fun code =>
      if code = EXEC then some (lowHalf mask)
      else if code = EXEC + 1 then some (highHalf mask)
      else if code < SCALAR_REGISTERS ∧ firstRegister ≤ code then userData[code - firstRegister]?
      else none
    vectors := fun register lane =>
      if register ∈ SEEDED_IDS ∧ lane < min lanes modelled then none else some 0
    modelled := modelled
    condition := none }

def scalar (s : Lanes) (code : Nat) : Option Word :=
  if code < SCALAR_CODES then s.scalars code else none

/-- `scalars.get_mut`, then the write. -/
def setScalar (s : Lanes) (code : Nat) (value : Option Word) : Option Lanes :=
  if code < SCALAR_CODES then some { s with scalars := Function.update s.scalars code value }
  else none

def read (s : Lanes) : Source → Nat → Option Word
  | .scalar code, _ => s.scalar code
  | .vector register, lane => s.vectors register lane
  | .constant value, _ => some value

def maskBit (s : Lanes) (code lane : Nat) : Option Bool :=
  (s.scalar (code + lane / 32)).map (fun half => half.getLsbD (lane % 32))

def pair (s : Lanes) (code : Nat) : Option (BitVec 64) := do
  let low ← s.scalar code
  let high ← s.scalar (code + 1)
  some (joined low high)

def setPair (s : Lanes) (code : Nat) (value : BitVec 64) : Option Lanes := do
  let s ← s.setScalar code (some (lowHalf value))
  s.setScalar (code + 1) (some (highHalf value))

def forget (s : Lanes) (first count : Nat) : Lanes :=
  { s with
    vectors := fun register lane =>
      if first ≤ register ∧ register < first + count ∧ lane < s.modelled then none
      else s.vectors register lane }

/-- The loop of a compare over the lanes: the bit of each that runs and for which it holds. -/
def compareBits (s : Lanes) (op : CompareOp) (a b : Source) (running : BitVec 64) :
    List Nat → BitVec 64 → Option (BitVec 64)
  | [], value => some value
  | lane :: rest, value =>
      if !running.getLsbD lane then compareBits s op a b running rest value
      else do
        let x ← s.read a lane
        let y ← s.read b lane
        compareBits s op a b running rest (if op.holds x y then value ||| 1#64 <<< lane else value)

end Lanes

def scalarValue (op : ScalarOp) (a b : Word) (condition : Option Bool) : Word × Option Bool :=
  match op with
  | .subtract => (a - b, some (decide ((a - b).toInt ≠ a.toInt - b.toInt)))
  | .multiplyLow => (a * b, condition)
  | .multiplyHigh => (highHalf (a.setWidth 64 * b.setWidth 64), condition)

/-- One step, and where the run goes on; nothing where a value it needs is unknown, or a
branch leaves the words kept. -/
def runWaveStep (s : Lanes) (step : Step) (at_ : Nat) : Option (Lanes × Nat) :=
  match step with
  | .scalar op destination a b => do
      let a ← s.read a 0
      let b ← s.read b 0
      let (value, condition) := scalarValue op a b s.condition
      let s ← { s with condition }.setScalar destination (some value)
      some (s, at_)
  | .mask not destination a b => do
      let a ← s.pair a
      let b ← s.pair b
      let value := if not then a &&& ~~~b else a &&& b
      let s ← s.setPair destination value
      some ({ s with condition := some (value != 0) }, at_)
  | .maskBranch target mask zero => do
      let value ← s.pair mask
      if (value == 0) == zero then
        if target = OUTSIDE then none else some (s, target)
      else some (s, at_)
  | .firstLane destination source => do
      let running := (List.range s.modelled).find? (fun lane => s.maskBit EXEC lane == some true)
      let value ← s.read source (running.getD 0)
      let s ← s.setScalar destination (some value)
      some (s, at_)
  | .compare32 op mask a b => do
      let running ← s.pair EXEC
      let value ← s.compareBits op a b running (List.range s.modelled) 0#64
      let s ← s.setPair mask value
      some (s, at_)
  | .forget first count => some (s.forget first count, at_)

/-! ## What the model of a lane run computes -/

/-- `read_lane_mask`: the two registers a mask's halves are held in. -/
def readLaneMask (s : Lanes) (code : Nat) : Option Word × Option Word :=
  (s.scalar code, s.scalar (code + 1))

/-- A word operation of the model, known where both sides are. -/
def binary (f : Word → Word → Word) (x y : Option Word) : Option Word := do
  let x ← x
  let y ← y
  some (f x y)

/-- `branch_condition_value` for a branch on the mask at `code`. -/
def branchConditionValue (lanes : Nat) (s : Lanes) (code : Nat) (wantZero : Bool) : Option Bool :=
  let (low, high) := readLaneMask s code
  let any :=
    match compare lanes 32 with
    | .lt => binary (· &&& ·) low (some (BitVec.ofNat 32 (2 ^ lanes - 1)))
    | .eq => low
    | .gt => binary (· ||| ·) low high
  any.map (fun any => (any == 0) == wantZero)

/-- `lane_known_idle`, of a model that knows its execution mask. -/
def laneKnownIdle (s : Lanes) (lane : Nat) : Bool := s.maskBit EXEC lane == some false

/-- `constant_lane_bit`. -/
def setLaneBit (halves : Option Word × Option Word) (lane : Nat) (condition : Option Bool) :
    Option Word × Option Word :=
  let contribution := condition.map (fun c => if c then 1#32 <<< (lane % 32) else 0)
  if lane < 32 then (binary (· ||| ·) halves.1 contribution, halves.2)
  else (halves.1, binary (· ||| ·) halves.2 contribution)

/-- `every_lane_bit`, lanes known not to run left out. -/
def everyLaneBit (s : Lanes) (condition : Nat → Option Bool) :
    List Nat → Option Word × Option Word → Option Word × Option Word
  | [], halves => halves
  | lane :: rest, halves =>
      if laneKnownIdle s lane then everyLaneBit s condition rest halves
      else everyLaneBit s condition rest (setLaneBit halves lane (condition lane))

def laneCompare (s : Lanes) (op : CompareOp) (a b : Source) (lane : Nat) : Option Bool := do
  let x ← s.read a lane
  let y ← s.read b lane
  some (op.holds x y)

/-- `running_bits`. -/
def runningBits (s : Lanes) (halves : Option Word × Option Word) : Option Word × Option Word :=
  let (runningLow, runningHigh) := readLaneMask s EXEC
  (binary (· &&& ·) halves.1 runningLow, binary (· &&& ·) halves.2 runningHigh)

/-- `write_wave_mask`, and the same for a scalar destination: a wave of 32 leaves the
register after as it was. -/
def writeWaveMask (lanes : Nat) (s : Lanes) (code : Nat) (halves : Option Word × Option Word) :
    Lanes :=
  if 32 < lanes then
    { s with scalars := Function.update (Function.update s.scalars code halves.1) (code + 1) halves.2 }
  else { s with scalars := Function.update s.scalars code halves.1 }

/-- `compare`, and where `long` is set `compare_long`, which leaves a lane that does not run
to `every_lane_bit`. -/
def translatedCompare (long : Bool) (lanes : Nat) (s : Lanes) (op : CompareOp) (code : Nat)
    (a b : Source) : Lanes :=
  let halves := everyLaneBit s (laneCompare s op a b) (List.range s.modelled) (some 0, some 0)
  writeWaveMask lanes s code (if long then halves else runningBits s halves)

/-! ## Halves -/

theorem getLsbD_joined (low high : Word) {i : Nat} (hi : i < 64) :
    (joined low high).getLsbD i = if i < 32 then low.getLsbD i else high.getLsbD (i - 32) := by
  unfold joined
  rw [BitVec.getLsbD_or, BitVec.getLsbD_shiftLeft, BitVec.getLsbD_setWidth, BitVec.getLsbD_setWidth]
  by_cases h : i < 32
  · simp [h, hi]
  · have hlow : low.getLsbD i = false := BitVec.getLsbD_of_ge low i (by omega)
    have hlt : i - 32 < 64 := by omega
    simp [h, hi, hlow, hlt]

theorem getLsbD_lowHalf (m : BitVec 64) (i : Nat) :
    (lowHalf m).getLsbD i = (decide (i < 32) && m.getLsbD i) := by
  simp [lowHalf, BitVec.getLsbD_setWidth]

theorem getLsbD_highHalf (m : BitVec 64) (i : Nat) :
    (highHalf m).getLsbD i = (decide (i < 32) && m.getLsbD (32 + i)) := by
  simp [highHalf, BitVec.getLsbD_setWidth, BitVec.getLsbD_ushiftRight]

@[simp] theorem lowHalf_joined (low high : Word) : lowHalf (joined low high) = low := by
  apply BitVec.eq_of_getLsbD_eq
  intro i hi
  rw [getLsbD_lowHalf, getLsbD_joined low high (by omega)]
  simp [hi]

@[simp] theorem highHalf_joined (low high : Word) : highHalf (joined low high) = high := by
  apply BitVec.eq_of_getLsbD_eq
  intro i hi
  rw [getLsbD_highHalf, getLsbD_joined low high (by omega)]
  have hge : ¬ 32 + i < 32 := by omega
  simp [hi]

theorem joined_eq_zero (low high : Word) : joined low high = 0 ↔ low = 0 ∧ high = 0 := by
  constructor
  · intro h
    have hlow := congrArg lowHalf h
    have hhigh := congrArg highHalf h
    rw [lowHalf_joined] at hlow
    rw [highHalf_joined] at hhigh
    exact ⟨hlow, hhigh⟩
  · intro ⟨hlow, hhigh⟩
    rw [hlow, hhigh]
    decide

/-- The halves of a mask, both known. -/
def halvesOf (m : BitVec 64) : Option Word × Option Word := (some (lowHalf m), some (highHalf m))

theorem setLaneBit_halvesOf (m : BitVec 64) {lane : Nat} (hlane : lane < 64) (c : Bool) :
    setLaneBit (halvesOf m) lane (some c) =
      halvesOf (if c then m ||| 1#64 <<< lane else m) := by
  have hbit : ∀ i, (1#64 <<< lane).getLsbD i = (decide (i < 64) && decide (i = lane)) := by
    intro i
    rw [BitVec.getLsbD_shiftLeft, BitVec.getLsbD_one]
    by_cases hi : i = lane
    · simp [hi]
    · by_cases hlt : i < lane
      · simp [hi, hlt]
      · have : i - lane ≠ 0 := by omega
        simp [hi, this]
  have hword : ∀ i, (1#32 <<< (lane % 32)).getLsbD i = (decide (i < 32) && decide (i = lane % 32)) := by
    intro i
    rw [BitVec.getLsbD_shiftLeft, BitVec.getLsbD_one]
    by_cases hi : i = lane % 32
    · simp [hi]
    · by_cases hlt : i < lane % 32
      · simp [hi, hlt]
      · have : i - lane % 32 ≠ 0 := by omega
        simp [hi, this]
  cases c with
  | false => by_cases hlow : lane < 32 <;> simp [setLaneBit, halvesOf, binary, hlow]
  | true =>
      by_cases hlow : lane < 32
      · have hl : lowHalf m ||| 1#32 <<< (lane % 32) = lowHalf (m ||| 1#64 <<< lane) := by
          apply BitVec.eq_of_getLsbD_eq
          intro i hi
          rw [BitVec.getLsbD_or, getLsbD_lowHalf, getLsbD_lowHalf, BitVec.getLsbD_or, hbit, hword,
            Nat.mod_eq_of_lt hlow]
          have hi64 : i < 64 := by omega
          simp [hi, hi64]
        have hh : highHalf m = highHalf (m ||| 1#64 <<< lane) := by
          apply BitVec.eq_of_getLsbD_eq
          intro i hi
          rw [getLsbD_highHalf, getLsbD_highHalf, BitVec.getLsbD_or, hbit]
          have hne : 32 + i ≠ lane := by omega
          simp [hne]
        simp [setLaneBit, halvesOf, binary, hlow, hl, ← hh]
      · have hl : lowHalf m = lowHalf (m ||| 1#64 <<< lane) := by
          apply BitVec.eq_of_getLsbD_eq
          intro i hi
          rw [getLsbD_lowHalf, getLsbD_lowHalf, BitVec.getLsbD_or, hbit]
          have hne : i ≠ lane := by omega
          simp [hne]
        have hh : highHalf m ||| 1#32 <<< (lane % 32) = highHalf (m ||| 1#64 <<< lane) := by
          apply BitVec.eq_of_getLsbD_eq
          intro i hi
          rw [BitVec.getLsbD_or, getLsbD_highHalf, getLsbD_highHalf, BitVec.getLsbD_or, hbit, hword]
          have hsame : (i = lane % 32) ↔ (32 + i = lane) := by omega
          have hi64 : 32 + i < 64 := by omega
          simp [hi, hi64, hsame]
        simp [setLaneBit, halvesOf, binary, hlow, hh, ← hl]

/-! ## The same bits -/

namespace Lanes

theorem pair_eq_some {s : Lanes} {code : Nat} {m : BitVec 64} (h : s.pair code = some m) :
    s.scalar code = some (lowHalf m) ∧ s.scalar (code + 1) = some (highHalf m) := by
  unfold pair at h
  cases hlow : s.scalar code with
  | none => simp [hlow] at h
  | some low =>
      cases hhigh : s.scalar (code + 1) with
      | none => simp [hlow, hhigh] at h
      | some high =>
          have hm : joined low high = m := by simpa [hlow, hhigh] using h
          rw [← hm, lowHalf_joined, highHalf_joined]
          exact ⟨rfl, rfl⟩

theorem pair_of_scalars {s : Lanes} {code : Nat} {low high : Word} (hlow : s.scalar code = some low)
    (hhigh : s.scalar (code + 1) = some high) : s.pair code = some (joined low high) := by
  simp [pair, hlow, hhigh]

theorem maskBit_eq {s : Lanes} {code : Nat} {m : BitVec 64} (h : s.pair code = some m) {lane : Nat}
    (hlane : lane < 64) : s.maskBit code lane = some (m.getLsbD lane) := by
  obtain ⟨hlow, hhigh⟩ := pair_eq_some h
  unfold maskBit
  by_cases hlt : lane < 32
  · have hdiv : lane / 32 = 0 := by omega
    have hmod : lane % 32 = lane := by omega
    rw [hdiv, hmod, Nat.add_zero, hlow, Option.map_some, getLsbD_lowHalf]
    simp [hlt]
  · have hdiv : lane / 32 = 1 := by omega
    have hadd : 32 + lane % 32 = lane := by omega
    rw [hdiv, hhigh, Option.map_some, getLsbD_highHalf, hadd]
    have hmod : lane % 32 < 32 := by omega
    simp [hmod]

/-- A compare's loop finds the bits the model's does: over the same lanes, one bit at a
time, from the same bits so far. -/
theorem compareBits_translated {s : Lanes} {op : CompareOp} {a b : Source} {running : BitVec 64}
    (hrunning : s.pair EXEC = some running) {lanes : List Nat} (hlanes : ∀ lane ∈ lanes, lane < 64)
    {value out : BitVec 64} (h : s.compareBits op a b running lanes value = some out) :
    everyLaneBit s (laneCompare s op a b) lanes (halvesOf value) = halvesOf out := by
  induction lanes generalizing value with
  | nil =>
      cases h
      rfl
  | cons lane rest ih =>
      have hlane := hlanes lane List.mem_cons_self
      have hrest : ∀ l ∈ rest, l < 64 := fun l hl => hlanes l (List.mem_cons_of_mem _ hl)
      rw [compareBits] at h
      rw [everyLaneBit, laneKnownIdle, maskBit_eq hrunning hlane]
      cases hbit : running.getLsbD lane with
      | false =>
          rw [hbit] at h
          exact ih hrest h
      | true =>
          rw [hbit] at h
          cases hx : s.read a lane with
          | none => simp [hx] at h
          | some x =>
              cases hy : s.read b lane with
              | none => simp [hx, hy] at h
              | some y =>
                  have hcompare : laneCompare s op a b lane = some (op.holds x y) := by
                    simp [laneCompare, hx, hy]
                  have hnext : s.compareBits op a b running rest
                      (if op.holds x y then value ||| 1#64 <<< lane else value) = some out := by
                    simpa [hx, hy] using h
                  have hskip : (some true == some false) = false := rfl
                  rw [hskip, hcompare, setLaneBit_halvesOf value hlane]
                  exact ih hrest hnext

theorem compareBits_bits {s : Lanes} {op : CompareOp} {a b : Source} {running : BitVec 64}
    {lanes : List Nat} {value out : BitVec 64}
    (h : s.compareBits op a b running lanes value = some out) {i : Nat} (hi : out.getLsbD i = true) :
    value.getLsbD i = true ∨ (i ∈ lanes ∧ running.getLsbD i = true) := by
  induction lanes generalizing value with
  | nil =>
      cases h
      exact .inl hi
  | cons lane rest ih =>
      rw [compareBits] at h
      cases hbit : running.getLsbD lane with
      | false =>
          rw [hbit] at h
          exact (ih h).imp_right (fun ⟨hmem, hrun⟩ => ⟨List.mem_cons_of_mem _ hmem, hrun⟩)
      | true =>
          rw [hbit] at h
          cases hx : s.read a lane with
          | none => simp [hx] at h
          | some x =>
              cases hy : s.read b lane with
              | none => simp [hx, hy] at h
              | some y =>
                  have hnext : s.compareBits op a b running rest
                      (if op.holds x y then value ||| 1#64 <<< lane else value) = some out := by
                    simpa [hx, hy] using h
                  rcases ih hnext with hset | ⟨hmem, hrun⟩
                  · by_cases hlane : i = lane
                    · subst hlane
                      exact .inr ⟨List.mem_cons_self, hbit⟩
                    · left
                      split at hset
                      · rw [BitVec.getLsbD_or, BitVec.getLsbD_shiftLeft, BitVec.getLsbD_one] at hset
                        by_cases hlt : i < lane
                        · simpa [hlt] using hset
                        · have hne : i - lane ≠ 0 := by omega
                          simpa [hne] using hset
                      · exact hset
                  · exact .inr ⟨List.mem_cons_of_mem _ hmem, hrun⟩

end Lanes

/-! ## Branches -/

/-- A run takes a mask branch as the model's condition says, where it takes it at all. -/
def BranchAgrees (w : Width) (s : Lanes) (mask : Nat) (zero : Bool) : Prop :=
  ∀ target at_ s' at', runWaveStep s (.maskBranch target mask zero) at_ = some (s', at') →
    ∃ taken, branchConditionValue w.lanes s mask zero = some taken ∧ s' = s ∧
      at' = if taken then target else at_

/-- The register after a mask is not zero while the mask's own low half is. -/
def UpperOnly (s : Lanes) (mask : Nat) : Prop :=
  s.scalar mask = some 0 ∧ ∃ high, high ≠ 0 ∧ s.scalar (mask + 1) = some high

theorem runWaveStep_maskBranch {s : Lanes} {mask : Nat} {m : BitVec 64} (h : s.pair mask = some m)
    (target at_ : Nat) (zero : Bool) :
    runWaveStep s (.maskBranch target mask zero) at_ =
      if (m == 0) == zero then if target = OUTSIDE then none else some (s, target)
      else some (s, at_) := by
  simp [runWaveStep, h]

theorem branchAgrees_of_pair {w : Width} {s : Lanes} {mask : Nat} {m : BitVec 64} {zero taken : Bool}
    (h : s.pair mask = some m) (htaken : branchConditionValue w.lanes s mask zero = some taken) :
    BranchAgrees w s mask zero ↔ ((m == 0) == zero) = taken := by
  constructor
  · intro hagrees
    have hrun := runWaveStep_maskBranch h 0 1 zero
    have hinside : ¬ 0 = OUTSIDE := by decide
    rw [if_neg hinside] at hrun
    cases hquick : (m == 0) == zero with
    | true =>
        rw [hquick, if_pos rfl] at hrun
        obtain ⟨t, ht, -, hat⟩ := hagrees 0 1 s 0 hrun
        rw [htaken] at ht
        cases ht
        cases taken with
        | true => rfl
        | false => simp at hat
    | false =>
        rw [hquick, if_neg Bool.false_ne_true] at hrun
        obtain ⟨t, ht, -, hat⟩ := hagrees 0 1 s 1 hrun
        rw [htaken] at ht
        cases ht
        cases taken with
        | true => simp at hat
        | false => rfl
  · intro hsame target at_ s' at' hrun
    rw [runWaveStep_maskBranch h, hsame] at hrun
    refine ⟨taken, htaken, ?_⟩
    cases taken with
    | true =>
        rw [if_pos rfl] at hrun
        split at hrun
        · cases hrun
        · cases hrun
          exact ⟨rfl, rfl⟩
    | false =>
        rw [if_neg Bool.false_ne_true] at hrun
        cases hrun
        exact ⟨rfl, rfl⟩

theorem branchAgrees_iff (w : Width) (s : Lanes) (mask : Nat) (zero : Bool) :
    BranchAgrees w s mask zero ↔ w = .wave64 ∨ ¬ UpperOnly s mask := by
  cases hpair : s.pair mask with
  | none =>
      constructor
      · intro _
        right
        rintro ⟨hlow, high, -, hhigh⟩
        rw [Lanes.pair_of_scalars hlow hhigh] at hpair
        cases hpair
      · intro _ target at_ s' at' hrun
        simp [runWaveStep, hpair] at hrun
  | some m =>
      obtain ⟨hlow, hhigh⟩ := Lanes.pair_eq_some hpair
      have hjoined : joined (lowHalf m) (highHalf m) = m := by
        have h := Lanes.pair_of_scalars hlow hhigh
        rw [hpair] at h
        exact (Option.some.inj h).symm
      have hm : (m == 0) = (lowHalf m == 0 && highHalf m == 0) := by
        rw [Bool.eq_iff_iff, Bool.and_eq_true, beq_iff_eq, beq_iff_eq, beq_iff_eq, ← joined_eq_zero,
          hjoined]
      cases w with
      | wave64 =>
          have htaken : branchConditionValue Width.wave64.lanes s mask zero =
              some ((lowHalf m ||| highHalf m == 0) == zero) := by
            have hcompare : compare Width.wave64.lanes 32 = .gt := by decide
            simp [branchConditionValue, readLaneMask, hlow, hhigh, hcompare, binary]
          rw [branchAgrees_of_pair hpair htaken]
          refine ⟨fun _ => .inl rfl, fun _ => ?_⟩
          have hor : (lowHalf m ||| highHalf m == 0) = (lowHalf m == 0 && highHalf m == 0) := by
            rw [Bool.eq_iff_iff, Bool.and_eq_true, beq_iff_eq, beq_iff_eq, beq_iff_eq]
            exact BitVec.or_eq_zero_iff
          rw [hm, hor]
      | wave32 =>
          have htaken : branchConditionValue Width.wave32.lanes s mask zero =
              some ((lowHalf m == 0) == zero) := by
            have hcompare : compare Width.wave32.lanes 32 = .eq := by decide
            simp [branchConditionValue, readLaneMask, hlow, hcompare]
          have hupper : UpperOnly s mask ↔ (lowHalf m == 0) = true ∧ (highHalf m == 0) = false := by
            simp [UpperOnly, hlow, hhigh]
          rw [branchAgrees_of_pair hpair htaken, hupper, hm]
          cases lowHalf m == 0 <;> cases highHalf m == 0 <;> cases zero <;> simp

/-! ## Compares -/

/-- A run leaves every scalar register as the model's compare does, in its short form and
its long one, where it carries the compare out. -/
def CompareAgrees (w : Width) (s : Lanes) (op : CompareOp) (mask : Nat) (a b : Source) : Prop :=
  ∀ at_ s' at', runWaveStep s (.compare32 op mask a b) at_ = some (s', at') →
    at' = at_ ∧ ∀ long code,
      s'.scalar code = (translatedCompare long w.lanes s op mask a b).scalar code

/-- What a compare needs is known: the mask of the running lanes, the sources in each of
them, and two registers to leave its answer in. -/
def Decided (s : Lanes) (mask : Nat) (a b : Source) : Prop :=
  mask + 1 < SCALAR_CODES ∧ ∃ running, s.pair EXEC = some running ∧
    ∀ lane < s.modelled, running.getLsbD lane = true →
      (s.read a lane).isSome = true ∧ (s.read b lane).isSome = true

theorem compareBits_isSome {s : Lanes} {op : CompareOp} {a b : Source} {running : BitVec 64}
    {lanes : List Nat} {value : BitVec 64} :
    (s.compareBits op a b running lanes value).isSome = true ↔
      ∀ lane ∈ lanes, running.getLsbD lane = true →
        (s.read a lane).isSome = true ∧ (s.read b lane).isSome = true := by
  induction lanes generalizing value with
  | nil => simp [Lanes.compareBits]
  | cons lane rest ih =>
      rw [Lanes.compareBits, List.forall_mem_cons]
      cases hbit : running.getLsbD lane with
      | false =>
          rw [Bool.not_false, if_pos rfl, ih]
          simp
      | true =>
          cases hx : s.read a lane with
          | none => simp
          | some x =>
              cases hy : s.read b lane with
              | none => simp
              | some y => simpa using ih

theorem setPair_eq (s : Lanes) {mask : Nat} (hmask : mask + 1 < SCALAR_CODES) (m : BitVec 64) :
    s.setPair mask m = some { s with
      scalars := Function.update (Function.update s.scalars mask (some (lowHalf m))) (mask + 1)
        (some (highHalf m)) } := by
  have hlow : mask < SCALAR_CODES := by omega
  simp [Lanes.setPair, Lanes.setScalar, hlow, hmask]

theorem setPair_none (s : Lanes) {mask : Nat} (hmask : ¬ mask + 1 < SCALAR_CODES) (m : BitVec 64) :
    s.setPair mask m = none := by
  by_cases hlow : mask < SCALAR_CODES
  · simp [Lanes.setPair, Lanes.setScalar, hlow, hmask]
  · simp [Lanes.setPair, Lanes.setScalar, hlow]

/-- A compare that is carried out, and what it leaves. -/
theorem runWaveStep_compare {s : Lanes} {op : CompareOp} {mask : Nat} {a b : Source}
    (h : Decided s mask a b) :
    ∃ running out, s.pair EXEC = some running ∧
      s.compareBits op a b running (List.range s.modelled) 0#64 = some out ∧
      ∀ at_, runWaveStep s (.compare32 op mask a b) at_ = some ({ s with
        scalars := Function.update (Function.update s.scalars mask (some (lowHalf out))) (mask + 1)
          (some (highHalf out)) }, at_) := by
  obtain ⟨hmask, running, hrunning, hknown⟩ := h
  have hsome : (s.compareBits op a b running (List.range s.modelled) 0#64).isSome = true :=
    compareBits_isSome.mpr (fun lane hlane => hknown lane (List.mem_range.mp hlane))
  obtain ⟨out, hout⟩ := Option.isSome_iff_exists.mp hsome
  exact ⟨running, out, hrunning, hout, fun at_ => by
    simp [runWaveStep, hrunning, hout, setPair_eq s hmask]⟩

theorem decided_of_answer {s : Lanes} {op : CompareOp} {mask : Nat} {a b : Source} {at_ : Nat}
    {answer : Lanes × Nat} (h : runWaveStep s (.compare32 op mask a b) at_ = some answer) :
    Decided s mask a b := by
  cases hrunning : s.pair EXEC with
  | none => simp [runWaveStep, hrunning] at h
  | some running =>
      cases hout : s.compareBits op a b running (List.range s.modelled) 0#64 with
      | none => simp [runWaveStep, hrunning, hout] at h
      | some out =>
          refine ⟨?_, running, hrunning, fun lane hlane => ?_⟩
          · by_contra hmask
            simp [runWaveStep, hrunning, setPair_none s hmask] at h
          · have hsome : (s.compareBits op a b running (List.range s.modelled) 0#64).isSome = true := by
              simp [hout]
            exact compareBits_isSome.mp hsome lane (List.mem_range.mpr hlane)

/-- Its answer holds running lanes' bits only, so masking it by them changes nothing. -/
theorem runningBits_halvesOf {s : Lanes} {op : CompareOp} {a b : Source} {running out : BitVec 64}
    (hrunning : s.pair EXEC = some running)
    (hout : s.compareBits op a b running (List.range s.modelled) 0#64 = some out) :
    runningBits s (halvesOf out) = halvesOf out := by
  have hsub : out &&& running = out := by
    apply BitVec.eq_of_getLsbD_eq
    intro i hi
    rw [BitVec.getLsbD_and]
    cases hbit : out.getLsbD i with
    | false => rfl
    | true =>
        rcases Lanes.compareBits_bits hout hbit with hzero | ⟨-, hrun⟩
        · simp at hzero
        · rw [hrun]
          rfl
  obtain ⟨hlow, hhigh⟩ := Lanes.pair_eq_some hrunning
  have hl : lowHalf out &&& lowHalf running = lowHalf out := by
    conv_rhs => rw [← hsub]
    simp [lowHalf, BitVec.setWidth_and]
  have hh : highHalf out &&& highHalf running = highHalf out := by
    conv_rhs => rw [← hsub]
    simp [highHalf, BitVec.setWidth_and, BitVec.ushiftRight_and_distrib]
  simp [runningBits, readLaneMask, hlow, hhigh, halvesOf, binary, hl, hh]

theorem translatedCompare_eq {s : Lanes} {op : CompareOp} {a b : Source} {running out : BitVec 64}
    (hmodelled : s.modelled ≤ 64) (hrunning : s.pair EXEC = some running)
    (hout : s.compareBits op a b running (List.range s.modelled) 0#64 = some out) (long : Bool)
    (lanes mask : Nat) :
    translatedCompare long lanes s op mask a b = writeWaveMask lanes s mask (halvesOf out) := by
  have hbits : everyLaneBit s (laneCompare s op a b) (List.range s.modelled) (some 0, some 0) =
      halvesOf out := by
    have hzero : halvesOf 0 = (some 0, some 0) := by decide
    rw [← hzero]
    exact Lanes.compareBits_translated hrunning
      (fun lane hlane => lt_of_lt_of_le (List.mem_range.mp hlane) hmodelled) hout
  unfold translatedCompare
  dsimp only
  rw [hbits, runningBits_halvesOf hrunning hout, ite_self]

theorem highHalf_of_modelled {s : Lanes} {op : CompareOp} {a b : Source} {running out : BitVec 64}
    (hmodelled : s.modelled ≤ 32)
    (hout : s.compareBits op a b running (List.range s.modelled) 0#64 = some out) :
    highHalf out = 0 := by
  apply BitVec.eq_of_getLsbD_eq
  intro i hi
  have hzero : (0 : Word).getLsbD i = false := BitVec.getLsbD_zero
  rw [getLsbD_highHalf, hzero]
  cases hbit : out.getLsbD (32 + i) with
  | false => exact Bool.and_false _
  | true =>
      rcases Lanes.compareBits_bits hout hbit with hzero | ⟨hmem, -⟩
      · simp at hzero
      · have hlt := List.mem_range.mp hmem
        omega

theorem compareAgrees_iff {w : Width} {s : Lanes} (hmodelled : s.modelled ≤ w.lanes)
    (op : CompareOp) (mask : Nat) (a b : Source) :
    CompareAgrees w s op mask a b ↔
      ¬ Decided s mask a b ∨ w = .wave64 ∨ s.scalar (mask + 1) = some 0 := by
  by_cases hdecided : Decided s mask a b
  · obtain ⟨running, out, hrunning, hout, hrun⟩ :=
      runWaveStep_compare hdecided
    have htranslated := translatedCompare_eq (hmodelled.trans w.lanes_le) hrunning hout
    cases w with
    | wave64 =>
        refine ⟨fun _ => .inr (.inl rfl), fun _ at_ s' at' h => ?_⟩
        rw [hrun] at h
        cases h
        refine ⟨rfl, fun long code => ?_⟩
        rw [htranslated]
        rfl
    | wave32 =>
        have hhigh := highHalf_of_modelled hmodelled hout
        have hafter : ∀ long, (translatedCompare long Width.wave32.lanes s op mask a b).scalar (mask + 1) =
            s.scalar (mask + 1) := by
          intro long
          rw [htranslated]
          simp [writeWaveMask, Width.lanes, Lanes.scalar, halvesOf]
        constructor
        · intro h
          right; right
          have hsame := (h 0 _ 0 (hrun 0)).2 true (mask + 1)
          rw [hafter] at hsame
          rw [← hsame]
          simp [Lanes.scalar, hdecided.1, hhigh]
        · intro h at_ s' at' hstep
          rw [hrun] at hstep
          cases hstep
          refine ⟨rfl, fun long code => ?_⟩
          have hzero : s.scalar (mask + 1) = some 0 := by
            rcases h with h | h | h
            · exact absurd hdecided h
            · cases h
            · exact h
          by_cases hcode : code = mask + 1
          · subst hcode
            rw [hafter, hzero]
            simp [Lanes.scalar, hdecided.1, hhigh]
          · rw [htranslated]
            simp [writeWaveMask, Width.lanes, Lanes.scalar, halvesOf, Function.update_of_ne hcode]
  · refine ⟨fun _ => .inl hdecided, fun _ at_ s' at' h => ?_⟩
    exact absurd (decided_of_answer h) hdecided

/-! ## A run and the model -/

/-- A run looks at no lane past the wave's width. -/
theorem start_modelled_le (w : Width) (firstRegister : Nat) (userData : List Word) (lanes : Nat)
    (crosses : Bool) : (Lanes.start firstRegister userData w.lanes lanes crosses).modelled ≤ w.lanes := by
  have hpos := w.lanes_pos
  have hle := w.lanes_le
  unfold Lanes.start
  dsimp only
  split <;> omega

/-- A run agrees with the model on a mask branch exactly where the wave is 64 wide or the
branch's register after the mask does not decide it alone, and on a compare exactly where
the wave is 64 wide or the register after the destination is zero already. -/
theorem quick_run_agrees_iff (w : Width) (s : Lanes) (hmodelled : s.modelled ≤ w.lanes) :
    (∀ mask zero, BranchAgrees w s mask zero ↔ w = .wave64 ∨ ¬ UpperOnly s mask) ∧
    (∀ op mask a b, CompareAgrees w s op mask a b ↔
      ¬ Decided s mask a b ∨ w = .wave64 ∨ s.scalar (mask + 1) = some 0) :=
  ⟨branchAgrees_iff w s, compareAgrees_iff hmodelled⟩

/-- A wave of 32 at entry, all of its user data zero. -/
theorem quick_run_agrees_zero_data :
    BranchAgrees .wave32 (Lanes.start 0 (List.replicate 16 0) 32 32 false) EXEC true ∧
      CompareAgrees .wave32 (Lanes.start 0 (List.replicate 16 0) 32 32 false) .less 10
        (.vector 3) (.scalar 4) := by
  have h := quick_run_agrees_iff .wave32 (Lanes.start 0 (List.replicate 16 0) 32 32 false)
    (start_modelled_le .wave32 0 (List.replicate 16 0) 32 false)
  constructor
  · apply (h.1 EXEC true).mpr
    right
    rintro ⟨hlow, -⟩
    revert hlow
    decide
  · apply (h.2 .less 10 (.vector 3) (.scalar 4)).mpr
    right; right
    decide

/-- Every register of a wave of 32 known, and zero but for `vcc_hi`. -/
def upperData : Lanes :=
  ⟨fun code => some (if code = VCC + 1 then 5 else 0), fun _ _ => some 0, 32, none⟩

/-- Data in `vcc_hi` of a wave of 32 decides a branch on `vcc`, and a compare into `vcc`
clears it. -/
theorem quick_run_reads_upper_half :
    (¬ ∀ (w : Width) (s : Lanes), s.modelled ≤ w.lanes → ∀ mask zero, BranchAgrees w s mask zero) ∧
    ¬ ∀ (w : Width) (s : Lanes), s.modelled ≤ w.lanes →
      ∀ op mask a b, CompareAgrees w s op mask a b := by
  constructor
  · intro h
    have hrun : runWaveStep upperData (.maskBranch 7 VCC false) 1 = some (upperData, 7) := by rfl
    obtain ⟨taken, htaken, -, hat⟩ := h .wave32 upperData (by decide) VCC false 7 1 _ _ hrun
    have hfalse : branchConditionValue Width.wave32.lanes upperData VCC false = some false := by
      decide
    rw [hfalse] at htaken
    cases htaken
    cases hat
  · intro h
    have hdecided : Decided upperData VCC (.constant 0) (.constant 0) :=
      ⟨by decide, 0, by decide, fun lane _ _ => ⟨rfl, rfl⟩⟩
    have hagrees := (compareAgrees_iff (by decide) .equal VCC (.constant 0) (.constant 0)).mp
      (h .wave32 upperData (by decide) .equal VCC (.constant 0) (.constant 0))
    rcases hagrees with hnot | hwidth | hupper
    · exact hnot hdecided
    · cases hwidth
    · revert hupper
      decide

end Orbistoun.Translate.QuickLanes
