import Mathlib.Algebra.BigOperators.Fin
import Orbistoun.Translate.LaneMask

/-! # What a compute wave finds in its registers at entry

A group of several waves is seeded by one invocation a wave, by one a lane, or by one for two
lanes. Each seeding is given here as the words its emitted operations compute: the thread ids
each lane is handed, and the halves of the execution mask.
-/

namespace Orbistoun.Translate

local instance neZero_three : NeZero 3 := ⟨by decide⟩

/-- The last group along each dimension, and how many threads it runs along it. -/
structure PartialGroups where
  last : Fin 3 → Nat
  threads : Fin 3 → Nat
  deriving DecidableEq

/-- A guest compute dispatch's entry state. -/
structure ComputeInputs where
  workgroupIds : Fin 3 → Bool
  threadIdComponents : Nat
  threads : Fin 3 → Nat
  unwrittenUserData : Nat := 0
  /-- A dispatch whose last group along a dimension runs fewer threads. -/
  partialGroups : Option PartialGroups := none
  integerImages : Fin 2 → Bool := fun _ => false
  integerFetched : Nat := 0
  firstThread : Nat := 0
  sampledBuffers : Nat := 0
  tableBuffers : Nat := 0
  scratchWaveBytes : Nat := 0
  deviceAddressed : Bool := false
  floatMode : Option Nat := none
  loopCap : Nat := 0
  deriving DecidableEq

/-! ## Words -/

def MAX_WORD : Nat := 2 ^ 32 - 1

def add32 (x y : Nat) : Nat := (x + y) % 2 ^ 32

def sub32 (x y : Nat) : Nat := (x + (2 ^ 32 - y)) % 2 ^ 32

def mul32 (x y : Nat) : Nat := (x * y) % 2 ^ 32

def checkedMul (x y : Nat) : Option Nat := if x * y < 2 ^ 32 then some (x * y) else none

/-! ## The push-constant block -/

def USER_DATA_STAGE_WORDS : Nat := 32
def PARTIAL_PUSH_WORD : Nat := USER_DATA_STAGE_WORDS
def GLOBAL_BASE_PUSH_WORD : Nat := PARTIAL_PUSH_WORD + 6
def SAMPLED_BASES_PUSH_WORD : Nat := GLOBAL_BASE_PUSH_WORD + 1
def MOST_SAMPLED_BUFFERS : Nat := 8
def DEVICE_TABLE_PUSH_WORD : Nat := SAMPLED_BASES_PUSH_WORD + 2 * MOST_SAMPLED_BUFFERS
def DEVICE_TABLE_PUSH_WORDS : Nat := 7
def FIRST_THREAD_PUSH_WORD : Nat := DEVICE_TABLE_PUSH_WORD + DEVICE_TABLE_PUSH_WORDS

/-- The words a module reads at `PARTIAL_PUSH_WORD`. -/
def PartialGroups.pushWords (p : PartialGroups) : List Nat :=
  [p.last 0, p.last 1, p.last 2, p.threads 0, p.threads 1, p.threads 2]

namespace ComputeInputs

def groupThreads (c : ComputeInputs) : Nat :=
  ((((checkedMul 1 (c.threads 0)).bind (checkedMul · (c.threads 1))).bind
    (checkedMul · (c.threads 2))).getD MAX_WORD)

def waves (c : ComputeInputs) (lanes : Nat) : Nat :=
  max ((c.groupThreads + (max lanes 1 - 1)) / max lanes 1) 1

def refusal (detail : String) : TranslateError := .unsupported 0 detail

/-- Refuses a shape translated waves cannot run exactly. -/
def check (c : ComputeInputs) : Except TranslateError Unit :=
  if c.groupThreads = 0 then .error (refusal "a thread group of no threads")
  else if ¬(1 ≤ c.threadIdComponents ∧ c.threadIdComponents ≤ 3) then
    .error (refusal "a thread id of other than one to three components")
  else .ok ()

end ComputeInputs

/-! ## Pieces of the seedings -/

/-- The execution mask of a wave whose first `threads` lanes run. -/
def firstThreads (threads : Nat) : Nat × Nat :=
  (if 32 ≤ threads then MAX_WORD else (1 <<< threads) - 1,
    if 64 ≤ threads then MAX_WORD else if 33 ≤ threads then (1 <<< (threads - 32)) - 1 else 0)

/-- Whether this group is the last along each dimension it is wider than one thread along, and
the last group's thread count. -/
abbrev LastGroups := Fin 3 → Option (Bool × Nat)

/-- The thread id components of the thread at a place in a group, x fastest. -/
def splitPlace (place : Nat) (shape : Fin 3 → Nat) : Fin 3 → Nat :=
  let divide (value divisor : Nat) : Nat × Nat :=
    (value / divisor, sub32 value (mul32 (value / divisor) divisor))
  let (row, x) := divide place (shape 0)
  let (z, y) := divide row (shape 1)
  ![x, y, z]

/-- A lane's thread id components, and its place in a group of several waves. -/
def threadIds (base : Option Nat) (shape : Fin 3 → Nat) (lane : Nat) :
    (Fin 3 → Nat) × Option Nat :=
  match base with
  | none => (![lane % shape 0, (lane / shape 0) % shape 1, lane / mul32 (shape 0) (shape 1)], none)
  | some base =>
      let place := add32 base lane
      (splitPlace place shape, some place)

def either (off : Option Bool) (here : Bool) : Option Bool :=
  match off with
  | none => some here
  | some before => some (before || here)

/-- Whether a thread does not run: none where nothing can stop it. -/
def threadOff (last : LastGroups) (end_ : Option Nat) (ids : Fin 3 → Nat) (place : Option Nat) :
    Option Bool :=
  let off :=
    match end_, place with
    | some end_, some place => either none (decide (end_ ≤ place))
    | _, _ => none
  ([0, 1, 2] : List (Fin 3)).foldl (fun off dimension =>
    match last dimension with
    | some (isLast, count) => either off (isLast && decide (count ≤ ids dimension))
    | none => off) off

def setBit (halves : Nat × Nat) (lane : Nat) (condition : Bool) : Nat × Nat :=
  let bit := if condition then 1 <<< (lane % 32) else 0
  if lane < 32 then (halves.1 ||| bit, halves.2) else (halves.1, halves.2 ||| bit)

def ballot (invocations : Nat) (condition : Nat → Bool) : Nat × Nat :=
  (List.range invocations).foldl (fun halves i => setBit halves i (condition i)) (0, 0)

/-! ## The seedings -/

/-- What a module is built from: the inputs, the wave's width, and whether it is a streamout
pass. -/
structure ComputeModule where
  inputs : ComputeInputs
  width : Width
  pass : Bool := false

/-- Where an invocation runs: its group, and the words of its push-constant block. -/
structure Place where
  group : Fin 3 → Nat
  block : Nat → Nat

/-- What a wave's lanes find: their registers, none where nothing is stored, and the halves of
the execution mask. -/
structure Seeded where
  registers : Nat → Fin 3 → Option Nat
  exec : Nat × Nat

namespace ComputeModule

variable (m : ComputeModule) (here : Place)

def lanes : Nat := m.width.lanes

/-- The first thread of a wave, when the group is several. -/
def waveBase (wave : Nat) : Option Nat :=
  if 1 < m.inputs.waves m.lanes then some (mul32 wave m.lanes) else none

def lastGroups : LastGroups := fun dimension =>
  if m.inputs.threads dimension ≤ 1 ∨ m.inputs.partialGroups = none then none
  else
    some (here.group dimension == here.block (PARTIAL_PUSH_WORD + dimension),
      here.block (PARTIAL_PUSH_WORD + 3 + dimension))

/-- The end of the group, where the wave width does not divide it. -/
def groupEnd : Option Nat :=
  if m.inputs.groupThreads % m.lanes ≠ 0 then some m.inputs.groupThreads else none

/-- A thread's id in a register, a streamout pass's x id moved by the wave's first vertex. -/
def offsetX (register : Fin 3) (value : Nat) : Nat :=
  if register ≠ 0 ∨ m.pass = false then value else add32 value (here.block FIRST_THREAD_PUSH_WORD)

def stored (ids : Fin 3 → Nat) : Fin 3 → Option Nat := fun register =>
  if register < m.inputs.threadIdComponents then some (m.offsetX here register (ids register))
  else none

/-- The mask of a wave that may lie past its group's end or in a partial group. -/
def groupMask (lanes : List ((Fin 3 → Nat) × Option Nat)) : Nat × Nat :=
  lanes.zipIdx.foldl (fun halves e =>
    match threadOff (m.lastGroups here) m.groupEnd e.1.1 e.1.2 with
    | none => setBit halves e.2 true
    | some off => setBit halves e.2 (!off)) (0, 0)

def seedWave (wave : Nat) : Seeded :=
  let base := m.waveBase wave
  let threads := m.inputs.groupThreads
  let count := if base.isSome then m.lanes else min m.lanes threads
  let lanes := (List.range count).map (threadIds base m.inputs.threads)
  { registers := fun lane register =>
      (lanes[lane]?).bind (fun ids => m.stored here ids.1 register)
    exec :=
      if base = none ∧ m.inputs.partialGroups = none then firstThreads threads
      else m.groupMask here lanes }

/-- The place of a lane in its group, as an invocation that runs it finds it. -/
def lanePlace (wave lane : Nat) : Nat :=
  match m.waveBase wave with
  | some base => add32 base lane
  | none => lane

/-- Whether the thread of a lane does not run, as its invocation finds it. -/
def laneOff (wave lane : Nat) : Option Bool :=
  threadOff (m.lastGroups here) m.groupEnd (splitPlace (m.lanePlace wave lane) m.inputs.threads)
    (some (m.lanePlace wave lane))

/-- Both lanes of an invocation that holds two: its place in its subgroup of thirty-two, and
that place plus thirty-two. -/
def seedHalves (wave invocation : Nat) : Seeded :=
  let known := m.waveBase wave = none ∧ m.inputs.partialGroups = none
  -- a half's bits are the subgroup's ballot of whether that half's lane's thread runs
  let half (h : Nat) : Nat :=
    match m.laneOff here wave (invocation + 32 * h) with
    | none => MAX_WORD
    | some _ => (ballot 32 (fun i => !(m.laneOff here wave (i + 32 * h)).getD false)).1
  { registers := fun lane register =>
      if lane = invocation ∨ lane = invocation + 32 then
        m.stored here (splitPlace (m.lanePlace wave lane) m.inputs.threads) register
      else none
    exec :=
      if known then firstThreads m.inputs.groupThreads else (half 0, half 1) }

/-- One lane of a dispatch run one invocation per lane; `own` where each invocation holds its
own lane's bit alone, and otherwise every lane's, by ballot or exchanged. -/
def seedLane (own : Bool) (wave lane : Nat) : Seeded where
  registers := fun other register =>
    if other = lane then
      m.stored here (splitPlace (m.lanePlace wave lane) m.inputs.threads) register
    else none
  exec :=
    if m.waveBase wave = none ∧ m.inputs.partialGroups = none then
      firstThreads m.inputs.groupThreads
    else if own = false then
      match m.laneOff here wave lane with
      | none => firstThreads m.lanes
      | some _ => ballot m.lanes (fun i => !(m.laneOff here wave i).getD false)
    else
      let bit := 1 <<< (lane &&& 31)
      let bit :=
        match m.laneOff here wave lane with
        | none => bit
        | some off => if off then 0 else bit
      if 32 ≤ lane then (0, bit) else (bit, 0)

def workgroupScalars (userSgprs : Nat) : List (Nat × Nat) :=
  ((([0, 1, 2] : List (Fin 3)).filter m.inputs.workgroupIds).zipIdx userSgprs).map
    (fun e => (e.2, here.group e.1))

end ComputeModule

/-- How the invocations of a module run its waves. -/
inductive Seeding where
  | wave
  | halves (invocation : Nat)
  | lane (own : Bool) (lane : Nat)

def ComputeModule.seed (m : ComputeModule) (here : Place) (userSgprs wave : Nat) (how : Seeding) :
    List (Nat × Nat) × Seeded :=
  (m.workgroupScalars here userSgprs,
    match how with
    | .wave => m.seedWave here wave
    | .halves invocation => m.seedHalves here wave invocation
    | .lane own lane => m.seedLane here own wave lane)

/-! ## Words without wrapping -/

theorem sub32_mul32 {value divisor : Nat} (h : value < 2 ^ 32) :
    sub32 value (mul32 (value / divisor) divisor) = value % divisor := by
  have hle := Nat.div_mul_le_self value divisor
  have hmod := Nat.div_add_mod' value divisor
  have hlt := Nat.mod_le value divisor
  unfold sub32 mul32
  rw [Nat.mod_eq_of_lt (by omega : value / divisor * divisor < 2 ^ 32)]
  omega

def idOf (shape : Fin 3 → Nat) (place : Nat) : Fin 3 → Nat :=
  ![place % shape 0, place / shape 0 % shape 1, place / (shape 0 * shape 1)]

theorem splitPlace_eq {place : Nat} (h : place < 2 ^ 32) (shape : Fin 3 → Nat) :
    splitPlace place shape = idOf shape place := by
  unfold splitPlace idOf
  dsimp only
  have hrow : place / shape 0 < 2 ^ 32 := Nat.lt_of_le_of_lt (Nat.div_le_self _ _) h
  rw [sub32_mul32 h, sub32_mul32 hrow, Nat.div_div_eq_div_mul]

theorem checkedMul_of_lt {x y : Nat} (h : x * y < 2 ^ 32) : checkedMul x y = some (x * y) :=
  if_pos h

namespace ComputeInputs

variable {c : ComputeInputs}

/-- The threads of a group, counted without a bound. -/
def shapeThreads (c : ComputeInputs) : Nat := c.threads 0 * c.threads 1 * c.threads 2

theorem threads_pos (h : 0 < c.shapeThreads) (dimension : Fin 3) : 0 < c.threads dimension := by
  unfold shapeThreads at h
  have hrow := Nat.pos_of_mul_pos_right h
  fin_cases dimension
  · exact Nat.pos_of_mul_pos_right hrow
  · exact Nat.pos_of_mul_pos_left hrow
  · exact Nat.pos_of_mul_pos_left h

theorem groupThreads_eq (hpos : 0 < c.shapeThreads) (h : c.shapeThreads < 2 ^ 32) :
    c.groupThreads = c.shapeThreads := by
  have hrow : c.threads 0 * c.threads 1 < 2 ^ 32 :=
    Nat.lt_of_le_of_lt (Nat.le_mul_of_pos_right _ (threads_pos hpos 2)) h
  have hx : 1 * c.threads 0 < 2 ^ 32 := by
    rw [Nat.one_mul]
    exact Nat.lt_of_le_of_lt (Nat.le_mul_of_pos_right _ (threads_pos hpos 1)) hrow
  unfold groupThreads
  rw [checkedMul_of_lt hx, Option.bind_some, Nat.one_mul, checkedMul_of_lt hrow,
    Option.bind_some, checkedMul_of_lt h, Option.getD_some]
  rfl

theorem waves_eq {lanes : Nat} (hlanes : 0 < lanes) :
    c.waves lanes = max ((c.groupThreads + (lanes - 1)) / lanes) 1 := by
  rw [waves, Nat.max_eq_left hlanes]

theorem lt_waves_iff {lanes wave : Nat} (hlanes : 0 < lanes) (hpos : 0 < c.groupThreads) :
    wave < c.waves lanes ↔ wave * lanes < c.groupThreads := by
  have hone : 1 ≤ (c.groupThreads + (lanes - 1)) / lanes :=
    (Nat.one_le_div_iff hlanes).mpr (by omega)
  rw [waves_eq hlanes, Nat.max_eq_left hone]
  rw [Nat.lt_iff_add_one_le, Nat.le_div_iff_mul_le hlanes, Nat.add_one_mul]
  omega

end ComputeInputs

/-! ## Bits -/

def maskBit (halves : Nat × Nat) (lane : Nat) : Bool :=
  if lane < 32 then halves.1.testBit lane else halves.2.testBit (lane - 32)

@[simp] theorem maskBit_zero (lane : Nat) : maskBit (0, 0) lane = false := by
  simp [maskBit]

theorem maskBit_setBit {halves : Nat × Nat} {lane other : Nat} (hlane : lane < 64)
    (hother : other < 64) (condition : Bool) :
    maskBit (setBit halves lane condition) other =
      (maskBit halves other || (condition && decide (lane = other))) := by
  have hbit (i : Nat) : (if condition then 1 <<< (lane % 32) else 0).testBit i =
      (condition && decide (lane % 32 = i)) := by
    cases condition
    · simp
    · rw [if_pos rfl, Nat.one_shiftLeft, Nat.testBit_two_pow, Bool.true_and]
  unfold setBit maskBit
  dsimp only
  by_cases hlow : lane < 32
  · rw [if_pos hlow]
    by_cases hother : other < 32
    · rw [if_pos hother, if_pos hother, Nat.testBit_or, hbit, Nat.mod_eq_of_lt hlow]
    · rw [if_neg hother, if_neg hother, decide_eq_false (by omega), Bool.and_false, Bool.or_false]
  · rw [if_neg hlow]
    by_cases hother : other < 32
    · rw [if_pos hother, if_pos hother, decide_eq_false (by omega), Bool.and_false, Bool.or_false]
    · rw [if_neg hother, if_neg hother, Nat.testBit_or, hbit]
      congr 2
      apply decide_eq_decide.mpr
      omega

theorem maskBit_ballot {invocations lane : Nat} (hin : invocations ≤ 64) (hlane : lane < 64)
    (condition : Nat → Bool) :
    maskBit (ballot invocations condition) lane = (decide (lane < invocations) && condition lane) := by
  induction invocations with
  | zero => simp [ballot]
  | succ n ih =>
      have hn := ih (by omega)
      unfold ballot at hn ⊢
      rw [List.range_succ, List.foldl_append, List.foldl_cons, List.foldl_nil,
        maskBit_setBit (by omega) hlane, hn]
      by_cases heq : n = lane
      · subst heq
        simp
      · rw [decide_eq_false heq, Bool.and_false, Bool.or_false]
        congr 1
        apply decide_eq_decide.mpr
        omega

theorem maskBit_firstThreads {threads lane : Nat} (hlane : lane < 64) :
    maskBit (firstThreads threads) lane = decide (lane < threads) := by
  have hones (n i : Nat) : ((1 <<< n) - 1).testBit i = decide (i < n) := by
    rw [Nat.one_shiftLeft, Nat.testBit_two_pow_sub_one]
  have hmax (i : Nat) : MAX_WORD.testBit i = decide (i < 32) := hones 32 i
  unfold maskBit firstThreads
  dsimp only
  by_cases hlow : lane < 32
  · rw [if_pos hlow]
    split
    · rw [hmax]
      apply decide_eq_decide.mpr
      omega
    · exact hones _ _
  · rw [if_neg hlow]
    split
    · rw [hmax]
      apply decide_eq_decide.mpr
      omega
    · split
      · rw [hones]
        apply decide_eq_decide.mpr
        omega
      · rw [Nat.zero_testBit, decide_eq_false (by omega)]

/-! ## Which threads run -/

/-- What a module is run with: a group of at least one and fewer than `2 ^ 32` threads, whose
partial groups run a thread at least along each dimension, and their words in the block. -/
structure ComputeModule.Ready (m : ComputeModule) (block : Nat → Nat) : Prop where
  checked : m.inputs.check = .ok ()
  pos : 0 < m.inputs.shapeThreads
  small : m.inputs.shapeThreads < 2 ^ 32
  runs : ∀ p, m.inputs.partialGroups = some p → ∀ dimension, 1 ≤ p.threads dimension
  pushed : ∀ p, m.inputs.partialGroups = some p →
    ∀ i : Fin 6, p.pushWords[i]? = some (block (PARTIAL_PUSH_WORD + i))

/-- A thread of the dispatch in a group: inside the group's shape, and along each dimension the
group is the last of, below that group's count. -/
def ComputeInputs.Runs (c : ComputeInputs) (group thread : Fin 3 → Nat) : Prop :=
  (∀ dimension, thread dimension < c.threads dimension) ∧
    ∀ p, c.partialGroups = some p →
      ∀ dimension, group dimension = p.last dimension → thread dimension < p.threads dimension

instance (c : ComputeInputs) (group thread : Fin 3 → Nat) : Decidable (c.Runs group thread) :=
  match h : c.partialGroups with
  | none => decidable_of_iff (∀ dimension, thread dimension < c.threads dimension)
      ⟨fun hin => ⟨hin, fun p hp => by rw [h] at hp; cases hp⟩, fun hruns => hruns.1⟩
  | some p => decidable_of_iff ((∀ dimension, thread dimension < c.threads dimension) ∧
      ∀ dimension, group dimension = p.last dimension → thread dimension < p.threads dimension)
      ⟨fun hin => ⟨hin.1, fun q hq => by rw [h] at hq; cases hq; exact hin.2⟩,
        fun hruns => ⟨hruns.1, hruns.2 p h⟩⟩

theorem either_getD (off : Option Bool) (here : Bool) :
    (either off here).getD false = (off.getD false || here) := by
  cases off <;> rfl

theorem threadOff_getD (last : LastGroups) (end_ : Option Nat) (ids : Fin 3 → Nat)
    (place : Option Nat) :
    (threadOff last end_ ids place).getD false = true ↔
      (∃ e p, end_ = some e ∧ place = some p ∧ e ≤ p) ∨
        ∃ dimension count, last dimension = some (true, count) ∧ count ≤ ids dimension := by
  have hstep (off : Option Bool) (dimension : Fin 3) :
      (match last dimension with
        | some (isLast, count) => either off (isLast && decide (count ≤ ids dimension))
        | none => off).getD false = true ↔
      off.getD false = true ∨
        ∃ count, last dimension = some (true, count) ∧ count ≤ ids dimension := by
    cases last dimension with
    | none => simp
    | some e =>
        obtain ⟨isLast, count⟩ := e
        rw [either_getD]
        cases isLast <;> simp
  have hend : ((match end_, place with
      | some end_, some place => either none (decide (end_ ≤ place))
      | _, _ => none) : Option Bool).getD false = true ↔
        ∃ e p, end_ = some e ∧ place = some p ∧ e ≤ p := by
    cases end_ with
    | none => simp
    | some e =>
        cases place with
        | none => simp
        | some p => simp [either]
  unfold threadOff
  rw [List.foldl_cons, List.foldl_cons, List.foldl_cons, List.foldl_nil, hstep, hstep, hstep, hend,
    Fin.exists_fin_succ, Fin.exists_fin_succ, Fin.exists_fin_succ]
  simp [or_assoc]

namespace ComputeModule

variable {m : ComputeModule} {here : Place} {wave lane : Nat}

theorem lanes_pos : 0 < m.lanes := m.width.lanes_pos

theorem lanes_le : m.lanes ≤ 64 := m.width.lanes_le

theorem lanes_cases (m : ComputeModule) : m.lanes = 32 ∨ m.lanes = 64 := by
  unfold lanes
  cases m.width
  · exact .inl rfl
  · exact .inr rfl

theorem Ready.groupThreads_eq (h : m.Ready here.block) :
    m.inputs.groupThreads = m.inputs.shapeThreads :=
  m.inputs.groupThreads_eq h.pos h.small

theorem Ready.lastGroups_eq (h : m.Ready here.block) (dimension : Fin 3) :
    m.lastGroups here dimension =
      if m.inputs.threads dimension ≤ 1 then none
      else m.inputs.partialGroups.map
        (fun p => (here.group dimension == p.last dimension, p.threads dimension)) := by
  unfold lastGroups
  cases hpartial : m.inputs.partialGroups with
  | none => simp
  | some p =>
      have hlast := h.pushed p hpartial ⟨dimension, by omega⟩
      have hcount := h.pushed p hpartial ⟨3 + dimension, by omega⟩
      have hword : p.pushWords[(dimension : Nat)]? = some (p.last dimension) := by
        fin_cases dimension <;> rfl
      have hthreads : p.pushWords[3 + (dimension : Nat)]? = some (p.threads dimension) := by
        fin_cases dimension <;> rfl
      rw [Fin.getElem?_fin, hword] at hlast
      rw [Fin.getElem?_fin, hthreads] at hcount
      have hlast := Option.some.inj hlast
      have hcount := Option.some.inj hcount
      simp only [reduceCtorEq, or_false, Option.map_some]
      rw [hlast, hcount, Nat.add_assoc]

theorem Ready.lanePlace_eq (h : m.Ready here.block) (hwave : wave < m.inputs.waves m.lanes)
    (hlane : lane < m.lanes) :
    m.lanePlace wave lane = wave * m.lanes + lane ∧ wave * m.lanes + lane < 2 ^ 32 := by
  have hpos : 0 < m.inputs.groupThreads := by
    rw [h.groupThreads_eq]
    exact h.pos
  have hbelow := (m.inputs.lt_waves_iff lanes_pos hpos).mp hwave
  have hsmall := h.small
  rw [← h.groupThreads_eq] at hsmall
  have hplace : wave * m.lanes + lane < 2 ^ 32 := by
    -- the wave width divides the words' range
    rcases m.lanes_cases with hw | hw <;> rw [hw] at hbelow hlane ⊢ <;> omega
  refine ⟨?_, hplace⟩
  unfold lanePlace waveBase
  split
  · next base hbase =>
    split at hbase
    · cases hbase
      rw [mul32, Nat.mod_eq_of_lt (by omega), add32, Nat.mod_eq_of_lt hplace]
    · cases hbase
  · next hbase =>
    split at hbase
    · cases hbase
    · next hone =>
      have hzero : wave = 0 := by omega
      rw [hzero, Nat.zero_mul, Nat.zero_add]

theorem idOf_lt {shape : Fin 3 → Nat} {place : Nat} (hpos : ∀ d, 0 < shape d)
    (h : place < shape 0 * shape 1 * shape 2) (dimension : Fin 3) :
    idOf shape place dimension < shape dimension := by
  fin_cases dimension
  · exact Nat.mod_lt _ (hpos 0)
  · exact Nat.mod_lt _ (hpos 1)
  · exact (Nat.div_lt_iff_lt_mul (Nat.mul_pos (hpos 0) (hpos 1))).mpr (by rw [Nat.mul_comm]; exact h)

theorem Ready.counts_iff (h : m.Ready here.block) {place : Nat}
    (hin : place < m.inputs.shapeThreads) :
    (¬∃ dimension count, m.lastGroups here dimension = some (true, count) ∧
        count ≤ idOf m.inputs.threads place dimension) ↔
      m.inputs.Runs here.group (idOf m.inputs.threads place) := by
  have hids := idOf_lt (m.inputs.threads_pos h.pos) hin
  constructor
  · intro hnone
    refine ⟨hids, fun p hp dimension hlast => ?_⟩
    apply Nat.lt_of_not_le
    intro hle
    by_cases hone : m.inputs.threads dimension ≤ 1
    · have hrun := h.runs p hp dimension
      have hid := hids dimension
      omega
    · apply hnone
      refine ⟨dimension, p.threads dimension, ?_, hle⟩
      rw [h.lastGroups_eq, if_neg hone, hp, Option.map_some, hlast, beq_self_eq_true]
  · rintro ⟨-, hruns⟩ ⟨dimension, count, hlast, hle⟩
    rw [h.lastGroups_eq] at hlast
    split at hlast
    · cases hlast
    · obtain ⟨p, hp, heq⟩ := Option.map_eq_some_iff.mp hlast
      rw [Prod.mk.injEq, beq_iff_eq] at heq
      obtain ⟨hgroup, rfl⟩ := heq
      exact absurd (hruns p hp dimension hgroup) (Nat.not_lt_of_le hle)

theorem Ready.laneOff_iff (h : m.Ready here.block) (hwave : wave < m.inputs.waves m.lanes)
    (hlane : lane < m.lanes) :
    (!(m.laneOff here wave lane).getD false) = true ↔
      wave * m.lanes + lane < m.inputs.shapeThreads ∧
        m.inputs.Runs here.group (idOf m.inputs.threads (wave * m.lanes + lane)) := by
  obtain ⟨hplace, hword⟩ := h.lanePlace_eq hwave hlane
  rw [Bool.not_eq_true', Bool.eq_false_iff, ne_eq, laneOff, threadOff_getD, hplace,
    splitPlace_eq hword]
  generalize hat : wave * m.lanes + lane = place at hword ⊢
  have hend : (¬∃ e p, m.groupEnd = some e ∧ some place = some p ∧ e ≤ p) ↔
      place < m.inputs.shapeThreads := by
    have hbelow := (m.inputs.lt_waves_iff lanes_pos (by rw [h.groupThreads_eq]; exact h.pos)).mp hwave
    unfold groupEnd
    rw [h.groupThreads_eq] at hbelow ⊢
    by_cases hdivides : m.inputs.shapeThreads % m.lanes = 0
    · -- the last wave of a group the width divides is whole
      have hin : place < m.inputs.shapeThreads := by
        rcases m.lanes_cases with hw | hw <;> rw [hw] at hbelow hlane hdivides hat <;> omega
      simp [hdivides, hin]
    · simp [hdivides]
  rw [not_or, hend]
  exact and_congr_right (fun hin => h.counts_iff hin)

/-- Nothing can stop one lane's thread where nothing can stop another's. -/
theorem laneOff_none_iff (wave lane other : Nat) :
    m.laneOff here wave lane = none ↔ m.laneOff here wave other = none := by
  have hnone (ids : Fin 3 → Nat) (place : Nat) :
      threadOff (m.lastGroups here) m.groupEnd ids (some place) = none ↔
        m.groupEnd = none ∧ ∀ dimension, m.lastGroups here dimension = none := by
    have hstep (off : Option Bool) (dimension : Fin 3) :
        (match m.lastGroups here dimension with
          | some (isLast, count) => either off (isLast && decide (count ≤ ids dimension))
          | none => off) = none ↔ off = none ∧ m.lastGroups here dimension = none := by
      cases m.lastGroups here dimension with
      | none => simp
      | some e => cases off <;> simp [either]
    unfold threadOff
    rw [List.foldl_cons, List.foldl_cons, List.foldl_cons, List.foldl_nil, hstep, hstep, hstep,
      Fin.forall_fin_succ, Fin.forall_fin_succ, Fin.forall_fin_succ]
    cases m.groupEnd with
    | none => simp [and_assoc]
    | some e => simp [either]
  rw [laneOff, laneOff, hnone, hnone]

/-! ## The masks -/

/-- Whether a wave's lane is to run. -/
def LaneRuns (m : ComputeModule) (here : Place) (wave lane : Nat) : Prop :=
  wave * m.lanes + lane < m.inputs.shapeThreads ∧
    m.inputs.Runs here.group (idOf m.inputs.threads (wave * m.lanes + lane))

theorem Ready.known_runs (h : m.Ready here.block) (hwave : wave < m.inputs.waves m.lanes)
    (hone : m.waveBase wave = none) (hwhole : m.inputs.partialGroups = none) :
    m.LaneRuns here wave lane ↔ lane < m.inputs.groupThreads := by
  have hzero : wave = 0 := by
    unfold waveBase at hone
    split at hone
    · cases hone
    · omega
  unfold LaneRuns
  rw [h.groupThreads_eq, hzero, Nat.zero_mul, Nat.zero_add]
  constructor
  · exact fun hruns => hruns.1
  · intro hin
    exact ⟨hin, idOf_lt (m.inputs.threads_pos h.pos) hin, fun p hp => by rw [hwhole] at hp; cases hp⟩

theorem maskBit_groupMask (lanes : List ((Fin 3 → Nat) × Option Nat)) (hle : lanes.length ≤ 64)
    (hlane : lane < 64) :
    maskBit (m.groupMask here lanes) lane =
      match lanes[lane]? with
      | some e => !(threadOff (m.lastGroups here) m.groupEnd e.1 e.2).getD false
      | none => false := by
  unfold groupMask
  induction lanes using List.reverseRecOn with
  | nil => simp
  | append_singleton lanes e ih =>
      rw [List.length_append, List.length_singleton] at hle
      have hset (halves : Nat × Nat) : (match threadOff (m.lastGroups here) m.groupEnd e.1 e.2 with
          | none => setBit halves lanes.length true
          | some off => setBit halves lanes.length (!off)) =
          setBit halves lanes.length
            (!(threadOff (m.lastGroups here) m.groupEnd e.1 e.2).getD false) := by
        cases threadOff (m.lastGroups here) m.groupEnd e.1 e.2 <;> rfl
      rw [List.zipIdx_append, List.foldl_append]
      simp only [List.zipIdx_cons, List.zipIdx_nil, List.foldl_cons, List.foldl_nil, Nat.zero_add]
      rw [hset, maskBit_setBit (by omega) hlane, ih (by omega)]
      rcases Nat.lt_trichotomy lane lanes.length with hlt | heq | hgt
      · rw [List.getElem?_append_left hlt, decide_eq_false (by omega), Bool.and_false,
          Bool.or_false]
      · rw [heq, List.getElem?_eq_none (Nat.le_refl _), List.getElem?_concat_length]
        simp
      · rw [List.getElem?_eq_none (by omega), List.getElem?_eq_none (by simp; omega),
          decide_eq_false (by omega), Bool.and_false, Bool.or_false]

/-- The lanes a wave's one invocation seeds find their place as an invocation of their own
would. -/
theorem Ready.threadIds_eq (h : m.Ready here.block) (hwave : wave < m.inputs.waves m.lanes)
    (hlane : lane < m.lanes) :
    (threadIds (m.waveBase wave) m.inputs.threads lane).1 =
      idOf m.inputs.threads (wave * m.lanes + lane) := by
  obtain ⟨hplace, hword⟩ := h.lanePlace_eq hwave hlane
  unfold lanePlace at hplace
  unfold threadIds
  cases hbase : m.waveBase wave with
  | none =>
      rw [hbase] at hplace
      dsimp only at hplace ⊢
      have hrow : m.inputs.threads 0 * m.inputs.threads 1 < 2 ^ 32 :=
        Nat.lt_of_le_of_lt (Nat.le_mul_of_pos_right _ (m.inputs.threads_pos h.pos 2)) h.small
      rw [← hplace, mul32, Nat.mod_eq_of_lt hrow]
      rfl
  | some base =>
      rw [hbase] at hplace
      dsimp only at hplace ⊢
      rw [hplace, splitPlace_eq hword]

theorem Ready.seedWave_bit (h : m.Ready here.block) (hwave : wave < m.inputs.waves m.lanes)
    (hlane : lane < m.lanes) :
    maskBit (m.seedWave here wave).exec lane = true ↔ m.LaneRuns here wave lane := by
  have hsixty : lane < 64 := Nat.lt_of_lt_of_le hlane lanes_le
  unfold seedWave
  dsimp only
  split
  · next hknown =>
    rw [maskBit_firstThreads hsixty, decide_eq_true_eq, h.known_runs hwave hknown.1 hknown.2]
  · next hunknown =>
    have hlength : ((List.range (if (m.waveBase wave).isSome = true then m.lanes
        else min m.lanes m.inputs.groupThreads)).map
        (threadIds (m.waveBase wave) m.inputs.threads)).length ≤ 64 := by
      have := m.lanes_le
      rw [List.length_map, List.length_range]
      split <;> omega
    rw [maskBit_groupMask _ hlength hsixty, List.getElem?_map]
    cases hbase : m.waveBase wave with
    | some base =>
        have hplace : m.lanePlace wave lane = add32 base lane := by rw [lanePlace, hbase]
        rw [Option.isSome_some, if_pos rfl, List.getElem?_range hlane, Option.map_some]
        have hoff := h.laneOff_iff hwave hlane
        rw [laneOff, hplace] at hoff
        exact hoff
    | none =>
        rw [if_neg (by decide)]
        by_cases hin : lane < m.inputs.groupThreads
        · rw [List.getElem?_range (by omega), Option.map_some]
          have hids := h.threadIds_eq hwave hlane
          rw [hbase] at hids
          dsimp only
          rw [hids, Bool.not_eq_true', Bool.eq_false_iff, ne_eq, threadOff_getD, not_or]
          have hzero : wave * m.lanes + lane = lane := by
            rw [← (h.lanePlace_eq hwave hlane).1, lanePlace, hbase]
          have hplace : wave * m.lanes + lane < m.inputs.shapeThreads := by
            rw [hzero, ← h.groupThreads_eq]
            exact hin
          rw [h.counts_iff hplace, LaneRuns]
          constructor
          · exact fun hruns => ⟨hplace, hruns.2⟩
          · refine fun hruns => ⟨?_, hruns.2⟩
            rintro ⟨_, _, -, hnone, -⟩
            cases hnone
        · rw [List.getElem?_eq_none (by rw [List.length_range]; omega), Option.map_none]
          have hzero : wave * m.lanes + lane = lane := by
            rw [← (h.lanePlace_eq hwave hlane).1, lanePlace, hbase]
          rw [LaneRuns, hzero, ← h.groupThreads_eq]
          constructor
          · intro hfalse
            cases hfalse
          · exact fun hruns => absurd hruns.1 hin

theorem Ready.seedLane_bit (h : m.Ready here.block) (hwave : wave < m.inputs.waves m.lanes)
    {other : Nat} (hother : other < m.lanes) :
    maskBit (m.seedLane here false wave lane).exec other = true ↔ m.LaneRuns here wave other := by
  have hsixty : other < 64 := Nat.lt_of_lt_of_le hother lanes_le
  have hoff := h.laneOff_iff hwave hother
  unfold seedLane
  dsimp only
  split
  · next hknown =>
    rw [maskBit_firstThreads hsixty, decide_eq_true_eq, h.known_runs hwave hknown.1 hknown.2]
  · rw [if_pos rfl]
    cases hnone : m.laneOff here wave lane with
    | none =>
        dsimp only
        rw [laneOff_none_iff wave lane other] at hnone
        rw [hnone] at hoff
        rw [maskBit_firstThreads hsixty, decide_eq_true hother]
        exact hoff
    | some off =>
        dsimp only
        rw [maskBit_ballot lanes_le hsixty, decide_eq_true hother, Bool.true_and]
        exact hoff


theorem Ready.seedLane_own_bit (h : m.Ready here.block) (hwave : wave < m.inputs.waves m.lanes)
    (hlane : lane < m.lanes) :
    maskBit (m.seedLane here true wave lane).exec lane = true ↔ m.LaneRuns here wave lane := by
  have hsixty : lane < 64 := Nat.lt_of_lt_of_le hlane lanes_le
  have hoff := h.laneOff_iff hwave hlane
  unfold seedLane
  dsimp only
  split
  · next hknown =>
    rw [maskBit_firstThreads hsixty, decide_eq_true_eq, h.known_runs hwave hknown.1 hknown.2]
  · rw [if_neg (by decide)]
    have hchosen : (match m.laneOff here wave lane with
        | none => 1 <<< (lane &&& 31)
        | some off => if off = true then 0 else 1 <<< (lane &&& 31)) =
        if !(m.laneOff here wave lane).getD false then 1 <<< (lane % 32) else 0 := by
      rw [show lane &&& 31 = lane % 32 from Nat.and_two_pow_sub_one_eq_mod lane 5]
      cases m.laneOff here wave lane with
      | none => rfl
      | some off => cases off <;> rfl
    have hset : (if 32 ≤ lane then (0, if !(m.laneOff here wave lane).getD false
          then 1 <<< (lane % 32) else 0)
        else (if !(m.laneOff here wave lane).getD false then 1 <<< (lane % 32) else 0, 0)) =
        setBit (0, 0) lane (!(m.laneOff here wave lane).getD false) := by
      unfold setBit
      by_cases hhigh : 32 ≤ lane
      · rw [if_pos hhigh, if_neg (Nat.not_lt_of_le hhigh)]
        simp
      · rw [if_neg hhigh, if_pos (Nat.lt_of_not_le hhigh)]
        simp
    rw [hchosen, hset, maskBit_setBit hsixty hsixty, decide_eq_true rfl, Bool.and_true,
      maskBit_zero, Bool.false_or]
    exact hoff

theorem Ready.seedHalves_bit (h : m.Ready here.block) (hwidth : m.width = .wave64)
    (hwave : wave < m.inputs.waves m.lanes) (invocation : Nat) (hlane : lane < m.lanes) :
    maskBit (m.seedHalves here wave invocation).exec lane = true ↔ m.LaneRuns here wave lane := by
  have hsixty : lane < 64 := Nat.lt_of_lt_of_le hlane lanes_le
  have hlanes : m.lanes = 64 := by rw [lanes, hwidth]; rfl
  have hoff := h.laneOff_iff hwave hlane
  -- a half holds the condition of each of its thirty-two lanes
  have hhalf (half i : Nat) (hi : i < 32) :
      ((match m.laneOff here wave (invocation + 32 * half) with
        | none => MAX_WORD
        | some _ => (ballot 32 (fun i => !(m.laneOff here wave (i + 32 * half)).getD false)).1).testBit
          i) = !(m.laneOff here wave (i + 32 * half)).getD false := by
    cases hnone : m.laneOff here wave (invocation + 32 * half) with
    | none =>
        rw [laneOff_none_iff wave _ (i + 32 * half)] at hnone
        have hone := @maskBit_firstThreads 32 i (by omega)
        rw [maskBit, if_pos hi] at hone
        rw [hnone]
        exact hone.trans (decide_eq_true hi)
    | some _ =>
        have hbit := maskBit_ballot (show 32 ≤ 64 by decide) (show i < 64 by omega)
          (fun i => !(m.laneOff here wave (i + 32 * half)).getD false)
        rw [maskBit, if_pos hi, decide_eq_true hi, Bool.true_and] at hbit
        exact hbit
  unfold seedHalves
  dsimp only
  split
  · next hknown =>
    rw [maskBit_firstThreads hsixty, decide_eq_true_eq, h.known_runs hwave hknown.1 hknown.2]
  · rw [maskBit]
    by_cases hlow : lane < 32
    · rw [if_pos hlow, hhalf 0 lane hlow]
      exact hoff
    · have hback : lane - 32 + 32 * 1 = lane := by omega
      rw [if_neg hlow, hhalf 1 (lane - 32) (by omega), hback]
      exact hoff

/-! ## The ids -/

theorem Ready.seedWave_ids (h : m.Ready here.block) (hwave : wave < m.inputs.waves m.lanes)
    (hlane : lane < m.lanes) (hruns : m.LaneRuns here wave lane) :
    (m.seedWave here wave).registers lane =
      m.stored here (idOf m.inputs.threads (wave * m.lanes + lane)) := by
  have hcount : lane < if (m.waveBase wave).isSome then m.lanes
      else min m.lanes m.inputs.groupThreads := by
    split
    · exact hlane
    · next hbase =>
      have hnone : m.waveBase wave = none := Option.not_isSome_iff_eq_none.mp hbase
      have hplace := (h.lanePlace_eq hwave hlane).1
      rw [lanePlace, hnone] at hplace
      have hin := hruns.1
      rw [← hplace, ← h.groupThreads_eq] at hin
      exact Nat.lt_min.mpr ⟨hlane, hin⟩
  funext register
  unfold seedWave
  dsimp only
  rw [List.getElem?_map, List.getElem?_range hcount, Option.map_some, Option.bind_some,
    h.threadIds_eq hwave hlane]

theorem Ready.seedLane_ids (h : m.Ready here.block) (hwave : wave < m.inputs.waves m.lanes)
    (hlane : lane < m.lanes) (own : Bool) :
    (m.seedLane here own wave lane).registers lane =
      m.stored here (idOf m.inputs.threads (wave * m.lanes + lane)) := by
  obtain ⟨hplace, hword⟩ := h.lanePlace_eq hwave hlane
  funext register
  unfold seedLane
  dsimp only
  rw [if_pos rfl, hplace, splitPlace_eq hword]

theorem Ready.seedHalves_ids (h : m.Ready here.block) (hwave : wave < m.inputs.waves m.lanes)
    (hlane : lane < m.lanes) :
    (m.seedHalves here wave (lane % 32)).registers lane =
      m.stored here (idOf m.inputs.threads (wave * m.lanes + lane)) := by
  obtain ⟨hplace, hword⟩ := h.lanePlace_eq hwave hlane
  have hown : lane = lane % 32 ∨ lane = lane % 32 + 32 := by
    have := Nat.lt_of_lt_of_le hlane m.lanes_le
    omega
  funext register
  unfold seedHalves
  dsimp only
  rw [if_pos hown, hplace, splitPlace_eq hword]

end ComputeModule

/-! ## The threads of a group -/

def placeOf (shape thread : Fin 3 → Nat) : Nat :=
  thread 0 + shape 0 * (thread 1 + shape 1 * thread 2)

theorem placeOf_idOf (shape : Fin 3 → Nat) (place : Nat) : placeOf shape (idOf shape place) = place := by
  have hrow : place / shape 0 % shape 1 + shape 1 * (place / (shape 0 * shape 1)) =
      place / shape 0 := by
    rw [← Nat.div_div_eq_div_mul]
    exact Nat.mod_add_div _ _
  show place % shape 0 + shape 0 *
    (place / shape 0 % shape 1 + shape 1 * (place / (shape 0 * shape 1))) = place
  rw [hrow]
  exact Nat.mod_add_div _ _

theorem idOf_placeOf {shape thread : Fin 3 → Nat} (h : ∀ d, thread d < shape d) :
    idOf shape (placeOf shape thread) = thread := by
  have hx : placeOf shape thread % shape 0 = thread 0 := by
    rw [placeOf, Nat.add_mul_mod_self_left, Nat.mod_eq_of_lt (h 0)]
  have hrow : placeOf shape thread / shape 0 = thread 1 + shape 1 * thread 2 := by
    rw [placeOf, Nat.add_mul_div_left _ _ (Nat.zero_lt_of_lt (h 0)), Nat.div_eq_of_lt (h 0),
      Nat.zero_add]
  funext d
  fin_cases d
  · exact hx
  · show placeOf shape thread / shape 0 % shape 1 = thread 1
    rw [hrow, Nat.add_mul_mod_self_left, Nat.mod_eq_of_lt (h 1)]
  · show placeOf shape thread / (shape 0 * shape 1) = thread 2
    rw [← Nat.div_div_eq_div_mul, hrow, Nat.add_mul_div_left _ _ (Nat.zero_lt_of_lt (h 1)),
      Nat.div_eq_of_lt (h 1), Nat.zero_add]

theorem placeOf_lt {shape thread : Fin 3 → Nat} (h : ∀ d, thread d < shape d) :
    placeOf shape thread < shape 0 * shape 1 * shape 2 := by
  have hrow : thread 1 + shape 1 * thread 2 < shape 1 * shape 2 :=
    calc thread 1 + shape 1 * thread 2 < shape 1 * (thread 2 + 1) := by
          rw [Nat.mul_add_one]
          have := h 1
          omega
      _ ≤ shape 1 * shape 2 := Nat.mul_le_mul_left _ (h 2)
  calc placeOf shape thread < shape 0 * (thread 1 + shape 1 * thread 2 + 1) := by
        rw [placeOf, Nat.mul_add_one]
        have := h 0
        omega
    _ ≤ shape 0 * (shape 1 * shape 2) := Nat.mul_le_mul_left _ hrow
    _ = shape 0 * shape 1 * shape 2 := (Nat.mul_assoc ..).symm

variable {m : ComputeModule} {here : Place}

theorem laneRuns_bijOn (h : m.Ready here.block) :
    Set.BijOn (fun at_ : Nat × Nat => idOf m.inputs.threads (at_.1 * m.lanes + at_.2))
      {at_ | at_.1 < m.inputs.waves m.lanes ∧ at_.2 < m.lanes ∧ m.LaneRuns here at_.1 at_.2}
      {thread | m.inputs.Runs here.group thread} := by
  refine ⟨?_, ?_, ?_⟩
  · rintro ⟨wave, lane⟩ ⟨-, -, hruns⟩
    exact hruns.2
  · rintro ⟨wave, lane⟩ ⟨-, hlane, -⟩ ⟨wave', lane'⟩ ⟨-, hlane', -⟩ heq
    have hplace := congrArg (placeOf m.inputs.threads) heq
    dsimp only at hplace hlane hlane'
    rw [placeOf_idOf, placeOf_idOf] at hplace
    rw [Prod.mk.injEq]
    rcases m.lanes_cases with hw | hw <;> rw [hw] at hplace hlane hlane' <;> omega
  · intro thread hruns
    have hid := idOf_placeOf hruns.1
    have hin : placeOf m.inputs.threads thread < m.inputs.shapeThreads := placeOf_lt hruns.1
    have hback := Nat.div_add_mod' (placeOf m.inputs.threads thread) m.lanes
    refine ⟨(placeOf m.inputs.threads thread / m.lanes, placeOf m.inputs.threads thread % m.lanes),
      ⟨?_, Nat.mod_lt _ m.lanes_pos, ?_, ?_⟩, ?_⟩
    · apply (m.inputs.lt_waves_iff m.lanes_pos (by rw [h.groupThreads_eq]; exact h.pos)).mpr
      rw [h.groupThreads_eq]
      dsimp only
      omega
    · dsimp only
      rw [hback]
      exact hin
    · dsimp only
      rw [hback, hid]
      exact hruns
    · dsimp only
      rw [hback, hid]

/-- The lanes a group's waves enable are its threads of the dispatch, each once with its own
id, and the three ways of seeding give every lane the same bit and every lane that runs the
same ids. -/
theorem entry_state (h : m.Ready here.block) (userSgprs : Nat) :
    (Set.BijOn (fun at_ : Nat × Nat => idOf m.inputs.threads (at_.1 * m.lanes + at_.2))
      {at_ | at_.1 < m.inputs.waves m.lanes ∧ at_.2 < m.lanes ∧
        maskBit (m.seed here userSgprs at_.1 .wave).2.exec at_.2 = true}
      {thread | m.inputs.Runs here.group thread}) ∧
    ∀ wave lane, wave < m.inputs.waves m.lanes → lane < m.lanes →
      let whole := (m.seed here userSgprs wave .wave).2
      (∀ other, maskBit (m.seed here userSgprs wave (.lane false other)).2.exec lane =
        maskBit whole.exec lane) ∧
      maskBit (m.seed here userSgprs wave (.lane true lane)).2.exec lane =
        maskBit whole.exec lane ∧
      (m.width = .wave64 → ∀ invocation,
        maskBit (m.seed here userSgprs wave (.halves invocation)).2.exec lane =
          maskBit whole.exec lane) ∧
      (maskBit whole.exec lane = true →
        whole.registers lane = m.stored here (idOf m.inputs.threads (wave * m.lanes + lane)) ∧
        (∀ own, (m.seed here userSgprs wave (.lane own lane)).2.registers lane =
          whole.registers lane) ∧
        (m.seed here userSgprs wave (.halves (lane % 32))).2.registers lane =
          whole.registers lane) := by
  constructor
  · have hset : {at_ : Nat × Nat | at_.1 < m.inputs.waves m.lanes ∧ at_.2 < m.lanes ∧
        maskBit (m.seed here userSgprs at_.1 .wave).2.exec at_.2 = true} =
        {at_ | at_.1 < m.inputs.waves m.lanes ∧ at_.2 < m.lanes ∧ m.LaneRuns here at_.1 at_.2} := by
      ext ⟨wave, lane⟩
      apply and_congr_right
      intro hwave
      apply and_congr_right
      intro hlane
      exact h.seedWave_bit hwave hlane
    rw [hset]
    exact laneRuns_bijOn h
  · intro wave lane hwave hlane
    have hwhole := h.seedWave_bit hwave hlane
    refine ⟨fun other => ?_, ?_, fun hwidth invocation => ?_, fun hruns => ?_⟩
    · exact Bool.eq_iff_iff.mpr ((h.seedLane_bit hwave hlane).trans hwhole.symm)
    · exact Bool.eq_iff_iff.mpr ((h.seedLane_own_bit hwave hlane).trans hwhole.symm)
    · exact Bool.eq_iff_iff.mpr ((h.seedHalves_bit hwidth hwave invocation hlane).trans hwhole.symm)
    · have hids := h.seedWave_ids hwave hlane (hwhole.mp hruns)
      exact ⟨hids, fun own => (h.seedLane_ids hwave hlane own).trans hids.symm,
        (h.seedHalves_ids hwave hlane).trans hids.symm⟩

/-- A group of two waves, the last along x of a dispatch that runs five threads of it there. -/
def partialGroup : ComputeModule where
  inputs :=
    { workgroupIds := fun _ => true
      threadIdComponents := 3
      threads := ![12, 7, 1]
      partialGroups := some ⟨![3, 0, 0], ![5, 7, 1]⟩ }
  width := .wave64

def partialBlock (word : Nat) : Nat := [3, 0, 0, 5, 7, 1].getD (word - PARTIAL_PUSH_WORD) 0

theorem entry_state_small :
    Set.BijOn (fun at_ : Nat × Nat => idOf ![12, 7, 1] (at_.1 * 64 + at_.2))
      {at_ | at_.1 < 2 ∧ at_.2 < 64 ∧
        maskBit (partialGroup.seed ⟨![3, 0, 0], partialBlock⟩ 0 at_.1 .wave).2.exec at_.2 = true}
      {thread | partialGroup.inputs.Runs ![3, 0, 0] thread} :=
  (@entry_state partialGroup ⟨![3, 0, 0], partialBlock⟩
    ⟨by decide, by decide, by decide,
      fun p hp d => by
        cases hp
        revert d
        decide,
      fun p hp i => by
        cases hp
        revert i
        decide⟩ 0).1

def shaped (threads : Fin 3 → Nat) (groups : Option PartialGroups) : ComputeModule where
  inputs :=
    { workgroupIds := fun _ => false, threadIdComponents := 3, threads, partialGroups := groups }
  width := .wave64

/-- Three shapes accepted: a lane past three threads is handed ids by an invocation of its own
alone; a last group of no threads along a dimension of one runs its thread; and the last thread
of `2 ^ 32` is run by no lane. -/
theorem entry_state_differs :
    let here : Place := ⟨![0, 0, 0], fun word => [0, 0, 0, 1, 0, 1].getD (word - 32) 0⟩
    let three := shaped ![3, 1, 1] none
    let none_ := shaped ![1, 1, 1] (some ⟨![0, 0, 0], ![1, 0, 1]⟩)
    let square := shaped ![65536, 65536, 1] none
    (three.inputs.check = .ok () ∧
      (three.seed here 0 0 .wave).2.registers 5 ≠
        (three.seed here 0 0 (.lane false 5)).2.registers 5) ∧
    (none_.inputs.check = .ok () ∧ maskBit (none_.seed here 0 0 .wave).2.exec 0 = true ∧
      ¬ none_.inputs.Runs here.group ![0, 0, 0]) ∧
    (square.inputs.check = .ok () ∧ square.inputs.Runs here.group ![65535, 65535, 0] ∧
      ∀ wave lane, wave < square.inputs.waves 64 → lane < 64 →
        maskBit (square.seed here 0 wave .wave).2.exec lane = true →
          idOf square.inputs.threads (wave * 64 + lane) ≠ ![65535, 65535, 0]) := by
  refine ⟨⟨by decide, by decide⟩, ⟨by decide, by decide, by decide⟩, by decide, by decide, ?_⟩
  intro wave lane hwave hlane hbit hid
  have hplace := congrArg (placeOf ![65536, 65536, 1]) hid
  have hback := placeOf_idOf ![65536, 65536, 1] (wave * 64 + lane)
  have hlast : placeOf ![65536, 65536, 1] ![65535, 65535, 0] = 4294967295 := by decide
  have heq : wave * 64 + lane = 4294967295 := hback.symm.trans (hplace.trans hlast)
  obtain ⟨rfl, rfl⟩ : wave = 67108863 ∧ lane = 63 := by omega
  have hoff : maskBit ((shaped ![65536, 65536, 1] none).seed
      ⟨![0, 0, 0], fun word => [0, 0, 0, 1, 0, 1].getD (word - 32) 0⟩ 0 67108863 .wave).2.exec 63 =
      false := by decide +kernel
  rw [hoff] at hbit
  cases hbit

end Orbistoun.Translate
