import Orbistoun.Gpu.Bc.Bc7

/-! # BC6H blocks

A block's header is a table of runs, some scattered and some reversed, that differs from mode to
mode: each run is some bits of one endpoint's field.
-/

namespace Orbistoun.Gpu.Bc

open Lib.BitReader Lib.Codes

/-- An endpoint field: one of the four endpoints' red, green or blue. -/
inductive Field where
  | Rw | Gw | Bw | Rx | Gx | Bx | Ry | Gy | By | Rz | Gz | Bz
  deriving DecidableEq, Repr

/-- A field's place among the twelve. -/
def Field.index : Field → Fin 12
  | Rw => 0 | Gw => 1 | Bw => 2 | Rx => 3 | Gx => 4 | Bx => 5
  | Ry => 6 | Gy => 7 | By => 8 | Rz => 9 | Gz => 10 | Bz => 11

/-- One run of a header's bits: a count of them into a field from a bit up or, where reversed, the
first read its highest. -/
structure Run where
  field : Field
  shift : Nat
  count : Nat
  reversed : Bool
  deriving DecidableEq, Repr

def run (field : Field) (shift count : Nat) : Run := ⟨field, shift, count, false⟩

def reversed (field : Field) (shift count : Nat) : Run := ⟨field, shift, count, true⟩

/-- One mode: its endpoint precision, its deltas' precision for red, green and blue, whether the
other endpoints are deltas from the first, two subsets or one, and its header's bits after the mode
bits. -/
structure Bc6Mode where
  precision : Nat
  deltas : Fin 3 → Nat
  transformed : Bool
  subsets : Nat
  runs : List Run

def BC6_MODE_1 : List Run :=
  [run .Gy 4 1, run .By 4 1, run .Bz 4 1, run .Rw 0 10, run .Gw 0 10, run .Bw 0 10, run .Rx 0 5,
    run .Gz 4 1, run .Gy 0 4, run .Gx 0 5, run .Bz 0 1, run .Gz 0 4, run .Bx 0 5, run .Bz 1 1,
    run .By 0 4, run .Ry 0 5, run .Bz 2 1, run .Rz 0 5, run .Bz 3 1]

def BC6_MODE_2 : List Run :=
  [run .Gy 5 1, run .Gz 4 2, run .Rw 0 7, run .Bz 0 2, run .By 4 1, run .Gw 0 7, run .By 5 1,
    run .Bz 2 1, run .Gy 4 1, run .Bw 0 7, run .Bz 3 1, run .Bz 5 1, run .Bz 4 1, run .Rx 0 6,
    run .Gy 0 4, run .Gx 0 6, run .Gz 0 4, run .Bx 0 6, run .By 0 4, run .Ry 0 6, run .Rz 0 6]

def BC6_MODE_3 : List Run :=
  [run .Rw 0 10, run .Gw 0 10, run .Bw 0 10, run .Rx 0 5, run .Rw 10 1, run .Gy 0 4, run .Gx 0 4,
    run .Gw 10 1, run .Bz 0 1, run .Gz 0 4, run .Bx 0 4, run .Bw 10 1, run .Bz 1 1, run .By 0 4,
    run .Ry 0 5, run .Bz 2 1, run .Rz 0 5, run .Bz 3 1]

def BC6_MODE_4 : List Run :=
  [run .Rw 0 10, run .Gw 0 10, run .Bw 0 10, run .Rx 0 4, run .Rw 10 1, run .Gz 4 1, run .Gy 0 4,
    run .Gx 0 5, run .Gw 10 1, run .Gz 0 4, run .Bx 0 4, run .Bw 10 1, run .Bz 1 1, run .By 0 4,
    run .Ry 0 4, run .Bz 0 1, run .Bz 2 1, run .Rz 0 4, run .Gy 4 1, run .Bz 3 1]

def BC6_MODE_5 : List Run :=
  [run .Rw 0 10, run .Gw 0 10, run .Bw 0 10, run .Rx 0 4, run .Rw 10 1, run .By 4 1, run .Gy 0 4,
    run .Gx 0 4, run .Gw 10 1, run .Bz 0 1, run .Gz 0 4, run .Bx 0 5, run .Bw 10 1, run .By 0 4,
    run .Ry 0 4, run .Bz 1 2, run .Rz 0 4, run .Bz 4 1, run .Bz 3 1]

def BC6_MODE_6 : List Run :=
  [run .Rw 0 9, run .By 4 1, run .Gw 0 9, run .Gy 4 1, run .Bw 0 9, run .Bz 4 1, run .Rx 0 5,
    run .Gz 4 1, run .Gy 0 4, run .Gx 0 5, run .Bz 0 1, run .Gz 0 4, run .Bx 0 5, run .Bz 1 1,
    run .By 0 4, run .Ry 0 5, run .Bz 2 1, run .Rz 0 5, run .Bz 3 1]

def BC6_MODE_7 : List Run :=
  [run .Rw 0 8, run .Gz 4 1, run .By 4 1, run .Gw 0 8, run .Bz 2 1, run .Gy 4 1, run .Bw 0 8,
    run .Bz 3 2, run .Rx 0 6, run .Gy 0 4, run .Gx 0 5, run .Bz 0 1, run .Gz 0 4, run .Bx 0 5,
    run .Bz 1 1, run .By 0 4, run .Ry 0 6, run .Rz 0 6]

def BC6_MODE_8 : List Run :=
  [run .Rw 0 8, run .Bz 0 1, run .By 4 1, run .Gw 0 8, run .Gy 5 1, run .Gy 4 1, run .Bw 0 8,
    run .Gz 5 1, run .Bz 4 1, run .Rx 0 5, run .Gz 4 1, run .Gy 0 4, run .Gx 0 6, run .Gz 0 4,
    run .Bx 0 5, run .Bz 1 1, run .By 0 4, run .Ry 0 5, run .Bz 2 1, run .Rz 0 5, run .Bz 3 1]

def BC6_MODE_9 : List Run :=
  [run .Rw 0 8, run .Bz 1 1, run .By 4 1, run .Gw 0 8, run .By 5 1, run .Gy 4 1, run .Bw 0 8,
    run .Bz 5 1, run .Bz 4 1, run .Rx 0 5, run .Gz 4 1, run .Gy 0 4, run .Gx 0 5, run .Bz 0 1,
    run .Gz 0 4, run .Bx 0 6, run .By 0 4, run .Ry 0 5, run .Bz 2 1, run .Rz 0 5, run .Bz 3 1]

def BC6_MODE_10 : List Run :=
  [run .Rw 0 6, run .Gz 4 1, run .Bz 0 2, run .By 4 1, run .Gw 0 6, run .Gy 5 1, run .By 5 1,
    run .Bz 2 1, run .Gy 4 1, run .Bw 0 6, run .Gz 5 1, run .Bz 3 1, run .Bz 5 1, run .Bz 4 1,
    run .Rx 0 6, run .Gy 0 4, run .Gx 0 6, run .Gz 0 4, run .Bx 0 6, run .By 0 4, run .Ry 0 6,
    run .Rz 0 6]

def BC6_MODE_11 : List Run :=
  [run .Rw 0 10, run .Gw 0 10, run .Bw 0 10, run .Rx 0 10, run .Gx 0 10, run .Bx 0 10]

def BC6_MODE_12 : List Run :=
  [run .Rw 0 10, run .Gw 0 10, run .Bw 0 10, run .Rx 0 9, run .Rw 10 1, run .Gx 0 9, run .Gw 10 1,
    run .Bx 0 9, run .Bw 10 1]

def BC6_MODE_13 : List Run :=
  [run .Rw 0 10, run .Gw 0 10, run .Bw 0 10, run .Rx 0 8, reversed .Rw 10 2, run .Gx 0 8,
    reversed .Gw 10 2, run .Bx 0 8, reversed .Bw 10 2]

def BC6_MODE_14 : List Run :=
  [run .Rw 0 10, run .Gw 0 10, run .Bw 0 10, run .Rx 0 4, reversed .Rw 10 6, run .Gx 0 4,
    reversed .Gw 10 6, run .Bx 0 4, reversed .Bw 10 6]

/-- The modes by the value of their mode bits: two bits for the first two, five for the rest. -/
def bc6Mode (value : Nat) : Option Bc6Mode :=
  let two := fun precision deltas transformed runs =>
    some (⟨precision, deltas, transformed, 2, runs⟩ : Bc6Mode)
  let one := fun precision delta runs =>
    some (⟨precision, fun _ => delta, precision != 10, 1, runs⟩ : Bc6Mode)
  match value with
  | 0 => two 10 ![5, 5, 5] true BC6_MODE_1
  | 1 => two 7 ![6, 6, 6] true BC6_MODE_2
  | 2 => two 11 ![5, 4, 4] true BC6_MODE_3
  | 6 => two 11 ![4, 5, 4] true BC6_MODE_4
  | 10 => two 11 ![4, 4, 5] true BC6_MODE_5
  | 14 => two 9 ![5, 5, 5] true BC6_MODE_6
  | 18 => two 8 ![6, 5, 5] true BC6_MODE_7
  | 22 => two 8 ![5, 6, 5] true BC6_MODE_8
  | 26 => two 8 ![5, 5, 6] true BC6_MODE_9
  | 30 => two 6 ![6, 6, 6] false BC6_MODE_10
  | 3 => one 10 10 BC6_MODE_11
  | 7 => one 11 9 BC6_MODE_12
  | 11 => one 12 8 BC6_MODE_13
  | 15 => one 16 4 BC6_MODE_14
  | _ => none

/-! ## Reading -/

/-- The thirty-two bits of a word, the other way round. -/
def reverseBits (bits : Nat) : Nat := (BitVec.ofNat 32 bits).reverse.toNat

def Run.ordered (part : Run) (bits : Nat) : Option Nat :=
  if part.reversed then (minus 32 part.count).map fun down => reverseBits bits >>> down
  else some bits

def Run.placed (part : Run) (bits : Nat) : Option Nat := do
  let ordered ← part.ordered bits
  fit32 (ordered <<< part.shift)

/-- The fields of a header, from the ones so far. -/
def readRuns : List Run → (Fin 12 → Nat) → Reader (Fin 12 → Nat)
  | [], fields => pure fields
  | part :: rest, fields => do
      let bits ← take part.count
      let placed ← part.placed bits
      readRuns rest
        (Function.update fields part.field.index (fields part.field.index ||| placed))

/-- What a block of a mode reads, its mode by the value of its mode bits. -/
structure Bc6Readings where
  value : Nat
  fields : Fin 12 → Nat
  partition : Nat
  indices : List Nat
  deriving DecidableEq

def readModeBits : Reader Nat := do
  let low ← take 2
  if low < 2 then pure low
  else do
    let high ← take 3
    pure (low ||| high <<< 2)

def readPartition (mode : Bc6Mode) : Reader Nat := if mode.subsets = 2 then take 5 else pure 0

def Bc6Mode.indexBits (mode : Bc6Mode) : Nat := if mode.subsets = 2 then 3 else 4

def readHeader (value : Nat) (mode : Bc6Mode) : Reader Bc6Readings := do
  let fields ← readRuns mode.runs fun _ => 0
  let partition ← readPartition mode
  let indices ← readIndices mode.indexBits mode.subsets partition
  pure { value, fields, partition, indices }

/-- A block's readings, none of a reserved mode. -/
def readBc6h : Reader (Option Bc6Readings) := do
  let value ← readModeBits
  match bc6Mode value with
  | none => pure none
  | some mode => do
      let readings ← readHeader value mode
      pure (some readings)

/-! ## Decoding -/

def signExtend (value bits : Nat) : Option Int :=
  if bits = 0 ∨ 32 < bits then none else some (BitVec.ofNat bits value).toInt

/-- A signed thirty-two bit result, where it does not overflow. -/
def fitI32 (value : Int) : Option Int :=
  if -2 ^ 31 ≤ value ∧ value < 2 ^ 31 then some value else none

/-- A component past the first endpoint, in a transformed mode a delta from it. -/
def componentOf (mode : Bc6Mode) (base raw : Nat) (channel : Fin 3) : Option Nat :=
  if mode.transformed then (signExtend raw (mode.deltas channel)).map fun delta =>
    (((base : Int) + delta) % 2 ^ 32).toNat &&& (2 ^ mode.precision - 1)
  else some raw

def numberOf (mode : Bc6Mode) (signed : Bool) (value : Nat) : Option Int :=
  if signed then signExtend value mode.precision else some value

section

attribute [local instance] neZero_four

def endpointOf (mode : Bc6Mode) (fields : Fin 12 → Nat) (signed : Bool) (endpoint : Fin 4)
    (channel : Fin 3) : Option Int :=
  let base := fields ⟨channel.val, by omega⟩
  if endpoint = 0 then numberOf mode signed base
  else (componentOf mode base (fields ⟨3 * endpoint.val + channel.val, by omega⟩) channel).bind
    (numberOf mode signed)

end

/-- A magnitude below a power of two, scaled to fifteen bits. -/
def scaledMagnitude (magnitude : Int) (down : Nat) : Option Int :=
  if magnitude = 0 then some 0
  else if 2 ^ down - 1 ≤ magnitude then some 0x7fff
  else (fitI32 (magnitude * 2 ^ 15 + 0x4000)).map (· / 2 ^ down)

/-- A component as the sixteen-bit value interpolation works in. -/
def unquantize (value : Int) (bits : Nat) (signed : Bool) : Option Int :=
  if signed then
    if 16 ≤ bits then some value
    else do
      let down ← minus bits 1
      let unquantized ← scaledMagnitude value.natAbs down
      pure (if value < 0 then -unquantized else unquantized)
  else if 15 ≤ bits then some value
  else if value = 0 then some 0
  else if value = 2 ^ bits - 1 then some 0xffff
  else (fitI32 (value * 2 ^ 16 + 0x8000)).map (· / 2 ^ bits)

def finish (value : Int) (signed : Bool) : Option Nat :=
  if signed then
    if value < 0 then (fitI32 (-value * 31)).map fun scaled =>
      0x8000 ||| (scaled / 2 ^ 5).toNat % 2 ^ 16
    else (fitI32 (value * 31)).map fun scaled => (scaled / 2 ^ 5).toNat % 2 ^ 16
  else (fitI32 (value * 31)).map fun scaled => (scaled / 2 ^ 6 % 2 ^ 16).toNat

def bc6Endpoints (mode : Bc6Mode) (readings : Bc6Readings) (signed : Bool) :
    Option (List (List Int)) :=
  (List.finRange 4).mapM fun endpoint => (List.finRange 3).mapM fun channel =>
    (endpointOf mode readings.fields signed endpoint channel).bind fun value =>
      unquantize value mode.precision signed

def mixed (a b : Int) (w : Nat) : Option Int :=
  (fitI32 (a * (64 - w) + b * w + 32)).map (· / 2 ^ 6)

def bc6Texel (mode : Bc6Mode) (readings : Bc6Readings) (signed : Bool)
    (endpoints : List (List Int)) (texel : Nat) : Option (List Nat) := do
  let subset ← subsetOf mode.subsets readings.partition texel
  let index ← readings.indices[texel]?
  let w ← (weights mode.indexBits)[index]?
  let a ← endpoints[2 * subset]?
  let b ← endpoints[2 * subset + 1]?
  (List.range 3).mapM fun channel => do
    let first ← a[channel]?
    let second ← b[channel]?
    let value ← mixed first second w
    finish value signed

/-- A block's sixteen texels, zero of a reserved mode; nothing where the code would panic. -/
def bc6h (block : Block) (signed : Bool) : Option (List (List Nat)) := do
  let (read, _) ← readBc6h block.bits
  match read with
  | none => some (List.replicate 16 [0, 0, 0])
  | some readings => do
      let mode ← bc6Mode readings.value
      let endpoints ← bc6Endpoints mode readings signed
      (List.range 16).mapM (bc6Texel mode readings signed endpoints)

/-! ## The layouts -/

def Run.covers (part : Run) (field : Fin 12) (bit : Nat) : Prop :=
  part.field.index = field ∧ part.shift ≤ bit ∧ bit < part.shift + part.count

/-- Two runs share no bit of a field. -/
def Run.Apart (part other : Run) : Prop :=
  part.field ≠ other.field ∨ part.shift + part.count ≤ other.shift ∨
    other.shift + other.count ≤ part.shift

instance (part other : Run) : Decidable (part.Apart other) := by
  unfold Run.Apart
  infer_instance

def Bc6Mode.fieldBits (mode : Bc6Mode) (field : Fin 12) : Nat :=
  if field.val < 3 ∨ !mode.transformed then mode.precision
  else mode.deltas ⟨field.val % 3, Nat.mod_lt _ (by decide)⟩

/-- A mode whose runs share no bit, fit their fields, and with the mode bits, the partition and the
indices are a block. -/
structure Bc6Mode.Shaped (mode : Bc6Mode) (value : Nat) : Prop where
  subsets : 1 ≤ mode.subsets ∧ mode.subsets < 3
  precision : 6 ≤ mode.precision ∧ mode.precision ≤ 12 ∨ mode.precision = 16
  deltas : ∀ channel, 1 ≤ mode.deltas channel ∧ mode.deltas channel ≤ 32
  apart : mode.runs.Pairwise Run.Apart
  within : ∀ part ∈ mode.runs, part.count ≤ 32 ∧
    part.shift + part.count ≤ mode.fieldBits part.field.index ∧
    mode.fieldBits part.field.index ≤ 16
  width : (if value < 2 then 2 else 5) + ((mode.runs.map Run.count).sum +
    ((if mode.subsets = 2 then 5 else 0) + ((16 * mode.indexBits - mode.subsets) + 0))) = 128

theorem bc6Mode_shaped {value : Nat} {mode : Bc6Mode} (hvalue : value < 32)
    (h : bc6Mode value = some mode) : mode.Shaped value := by
  interval_cases value
  all_goals cases h
  all_goals exact ⟨by decide, by decide, by decide, by decide, by decide, by decide⟩

/-! ## Runs -/

theorem testBit_reverseBits (bits i : Nat) :
    (reverseBits bits).testBit i = (decide (i < 32) && bits.testBit (31 - i)) := by
  unfold reverseBits
  rw [BitVec.testBit_toNat, BitVec.getLsbD_reverse, BitVec.getMsbD_eq_getLsbD, BitVec.getLsbD_ofNat]
  by_cases hi : i < 32
  · simp only [hi, decide_true, Bool.true_and]
    rw [decide_eq_true (by omega), Bool.true_and]
  · simp [hi]

/-- The bits of a run put the other way round, bit by bit. -/
theorem testBit_reversed {bits count : Nat} (hcount : count ≤ 32) (i : Nat) :
    (reverseBits bits >>> (32 - count)).testBit i =
      (decide (i < count) && bits.testBit (count - 1 - i)) := by
  rw [Nat.testBit_shiftRight, testBit_reverseBits]
  by_cases hi : i < count
  · rw [decide_eq_true (show 32 - count + i < 32 by omega), decide_eq_true hi,
      show 31 - (32 - count + i) = count - 1 - i by omega]
  · rw [decide_eq_false (show ¬32 - count + i < 32 by omega), decide_eq_false hi]
    rfl

/-- Which of a run's bits, as read, a bit of its place is. -/
def Run.source (part : Run) (i : Nat) : Nat := if part.reversed then part.count - 1 - i else i

theorem testBit_placed {part : Run} {bits placed : Nat} (hcount : part.count ≤ 32)
    (hbits : bits < 2 ^ part.count) (h : part.placed bits = some placed) (i : Nat) :
    placed.testBit i = (decide (part.shift ≤ i ∧ i < part.shift + part.count) &&
      bits.testBit (part.source (i - part.shift))) := by
  have hordered : ∃ ordered, placed = ordered <<< part.shift ∧ ∀ k, ordered.testBit k =
      (decide (k < part.count) && bits.testBit (part.source k)) := by
    unfold Run.placed at h
    obtain ⟨ordered, hordered, hfit⟩ := Option.bind_eq_some_iff.mp h
    refine ⟨ordered, ?_, fun k => ?_⟩
    · unfold fit32 at hfit
      split at hfit
      · exact (Option.some_inj.mp hfit).symm
      · cases hfit
    · unfold Run.ordered at hordered
      unfold Run.source
      cases hreversed : part.reversed with
      | true =>
        rw [hreversed, if_pos rfl, minus_eq hcount] at hordered
        cases hordered
        rw [if_pos rfl]
        exact testBit_reversed hcount k
      | false =>
        rw [hreversed, if_neg (by decide)] at hordered
        cases hordered
        rw [if_neg (by decide)]
        by_cases hk : k < part.count
        · rw [decide_eq_true hk, Bool.true_and]
        · rw [decide_eq_false hk, Bool.false_and]
          exact Nat.testBit_lt_two_pow (Nat.lt_of_lt_of_le hbits
            (Nat.pow_le_pow_right (by decide) (Nat.le_of_not_lt hk)))
  obtain ⟨ordered, rfl, htest⟩ := hordered
  rw [Nat.testBit_shiftLeft, htest]
  by_cases hlow : part.shift ≤ i
  · rw [decide_eq_true hlow, Bool.true_and]
    congr 2
    exact propext ⟨fun hlt => ⟨hlow, by omega⟩, fun hlt => by omega⟩
  · rw [decide_eq_false hlow, Bool.false_and,
      decide_eq_false (show ¬(part.shift ≤ i ∧ i < part.shift + part.count) from
        fun hboth => hlow hboth.1), Bool.false_and]

theorem placed_fits {part : Run} {bits : Nat} (hcount : part.count ≤ 32)
    (hwide : part.shift + part.count ≤ 16) (hbits : bits < 2 ^ part.count) :
    ∃ placed, part.placed bits = some placed := by
  have hordered : ∃ ordered < 2 ^ part.count, part.ordered bits = some ordered := by
    unfold Run.ordered
    cases part.reversed with
    | true =>
      refine ⟨reverseBits bits >>> (32 - part.count), ?_, ?_⟩
      · apply Nat.lt_pow_two_of_testBit
        intro i hi
        rw [testBit_reversed hcount, decide_eq_false (Nat.not_lt_of_le hi), Bool.false_and]
      · rw [if_pos rfl, minus_eq hcount]
        rfl
    | false => exact ⟨bits, hbits, rfl⟩
  obtain ⟨ordered, hlt, hordered⟩ := hordered
  have hshifted : ordered <<< part.shift < 2 ^ 32 := by
    rw [Nat.shiftLeft_eq]
    calc ordered * 2 ^ part.shift
        < 2 ^ part.count * 2 ^ part.shift := Nat.mul_lt_mul_of_pos_right hlt (Nat.two_pow_pos _)
      _ = 2 ^ (part.count + part.shift) := (Nat.pow_add 2 _ _).symm
      _ ≤ 2 ^ 32 := Nat.pow_le_pow_right (by decide) (by omega)
  refine ⟨ordered <<< part.shift, ?_⟩
  unfold Run.placed
  rw [hordered]
  exact fit32_eq hshifted

theorem reads_runs {width : Fin 12 → Nat} : ∀ {runs : List Run} {fields : Fin 12 → Nat},
    (∀ part ∈ runs, part.count ≤ 32 ∧ part.shift + part.count ≤ width part.field.index ∧
      width part.field.index ≤ 16) → (∀ field, fields field < 2 ^ width field) →
    Reads 128 (readRuns runs fields) (runs.map Run.count).sum
      (fun fields => ∀ field, fields field < 2 ^ width field) := by
  intro runs
  induction runs with
  | nil => exact fun _ hfields => Reads.pure hfields
  | cons part rest ih =>
    intro fields hruns hfields
    obtain ⟨hcount, hshift, hwide⟩ := hruns part List.mem_cons_self
    rw [List.map_cons, List.sum_cons]
    unfold readRuns
    apply (reads_take hcount).bind
    intro bits hbits
    obtain ⟨placed, hplaced⟩ := placed_fits hcount (Nat.le_trans hshift hwide) hbits
    rw [← Nat.zero_add (rest.map Run.count).sum]
    apply (Reads.lift hplaced hplaced : Reads 128 _ 0 (fun value => part.placed bits = some value)).bind
    intro value hvalue
    apply ih (fun other hmem => hruns other (List.mem_cons_of_mem part hmem))
    intro field
    by_cases hfield : field = part.field.index
    · subst hfield
      rw [Function.update_self]
      apply Nat.or_lt_two_pow (hfields _)
      apply Nat.lt_pow_two_of_testBit
      intro i hi
      rw [testBit_placed hcount hbits hvalue, decide_eq_false (by omega), Bool.false_and]
    · rw [Function.update_of_ne hfield]
      exact hfields field

theorem runs_keep : ∀ {runs : List Run} {fields : Fin 12 → Nat},
    (∀ part ∈ runs, part.count ≤ 32) → ∀ s final s', readRuns runs fields s = some (final, s') →
    ∀ field i, (∀ part ∈ runs, ¬part.covers field i) →
      (final field).testBit i = (fields field).testBit i := by
  intro runs
  induction runs with
  | nil =>
    intro fields _ s final s' hrun field i _
    cases pure_eq_some.mp hrun
    rfl
  | cons part rest ih =>
    intro fields hruns s final s' hrun field i hcovers
    have hcount := hruns part List.mem_cons_self
    obtain ⟨bits, s₁, htake, hrun⟩ := bind_eq_some.mp hrun
    obtain ⟨placed, s₂, hplaced, hrun⟩ := bind_eq_some.mp hrun
    rw [ih (fun other hmem => hruns other (List.mem_cons_of_mem part hmem)) _ _ _ hrun field i
      fun other hmem => hcovers other (List.mem_cons_of_mem part hmem)]
    by_cases hfield : field = part.field.index
    · subst hfield
      have houtside : ¬(part.shift ≤ i ∧ i < part.shift + part.count) :=
        fun hinside => hcovers part List.mem_cons_self ⟨rfl, hinside.1, hinside.2⟩
      rw [Function.update_self, Nat.testBit_or,
        testBit_placed hcount (take_lt htake) (lift_eq_some hplaced), decide_eq_false houtside,
        Bool.false_and, Bool.or_false]
    · rw [Function.update_of_ne hfield]

def Run.recovered (part : Run) (fields : Fin 12 → Nat) : Nat :=
  let ordered := fields part.field.index >>> part.shift % 2 ^ part.count
  if part.reversed then reverseBits ordered >>> (32 - part.count) else ordered

theorem recovered_eq {part : Run} {bits : Nat} {fields : Fin 12 → Nat} (hcount : part.count ≤ 32)
    (hbits : bits < 2 ^ part.count) (h : ∀ i < part.count,
      (fields part.field.index).testBit (part.shift + i) = bits.testBit (part.source i)) :
    part.recovered fields = bits := by
  have hordered : ∀ i, (fields part.field.index >>> part.shift % 2 ^ part.count).testBit i =
      (decide (i < part.count) && bits.testBit (part.source i)) := by
    intro i
    rw [Nat.testBit_mod_two_pow, Nat.testBit_shiftRight]
    by_cases hi : i < part.count
    · rw [h i hi]
    · rw [decide_eq_false hi, Bool.false_and, Bool.false_and]
  have hbeyond : ∀ i, ¬i < part.count → bits.testBit i = false := fun i hi =>
    Nat.testBit_lt_two_pow (Nat.lt_of_lt_of_le hbits
      (Nat.pow_le_pow_right (by decide) (Nat.le_of_not_lt hi)))
  unfold Run.recovered
  apply Nat.eq_of_testBit_eq
  intro i
  unfold Run.source at hordered
  cases hreversed : part.reversed with
  | true =>
    rw [hreversed] at hordered
    simp only [if_true] at hordered ⊢
    rw [testBit_reversed hcount, hordered]
    by_cases hi : i < part.count
    · rw [decide_eq_true hi, decide_eq_true (show part.count - 1 - i < part.count by omega),
        Bool.true_and, Bool.true_and, show part.count - 1 - (part.count - 1 - i) = i by omega]
    · rw [decide_eq_false hi, Bool.false_and, hbeyond i hi]
  | false =>
    rw [hreversed] at hordered
    simp only [Bool.false_eq_true, if_false] at hordered ⊢
    rw [hordered]
    by_cases hi : i < part.count
    · rw [decide_eq_true hi, Bool.true_and]
    · rw [decide_eq_false hi, Bool.false_and, hbeyond i hi]

theorem Run.Apart.not_covers {part other : Run} (h : part.Apart other) {field : Fin 12} {i : Nat}
    (hcovers : part.covers field i) : ¬other.covers field i := by
  intro hother
  obtain ⟨hfield, hlow, hhigh⟩ := hcovers
  obtain ⟨hfield', hlow', hhigh'⟩ := hother
  rcases h with hne | hbefore | hafter
  · apply hne
    have hsame := hfield.trans hfield'.symm
    revert hsame
    cases part.field <;> cases other.field <;> decide
  · omega
  · omega

theorem determined_runs : ∀ {runs : List Run} {fields : Fin 12 → Nat},
    (∀ part ∈ runs, part.count ≤ 32) → runs.Pairwise Run.Apart →
    (∀ part ∈ runs, ∀ field i, part.covers field i → (fields field).testBit i = false) →
    Determined (readRuns runs fields) := by
  intro runs
  induction runs with
  | nil => exact fun _ _ _ => Determined.pure _
  | cons part rest ih =>
    intro fields hruns hapart hclear
    obtain ⟨hfirst, hrest⟩ := List.pairwise_cons.mp hapart
    have hcount := hruns part List.mem_cons_self
    have hruns' : ∀ other ∈ rest, other.count ≤ 32 :=
      fun other hmem => hruns other (List.mem_cons_of_mem part hmem)
    unfold readRuns
    apply (determined_take part.count).bind _ (fun final => some (part.recovered final))
    · intro s bits s' final s'' htake hrun
      obtain ⟨placed, s₂, hplaced, hrun⟩ := bind_eq_some.mp hrun
      apply congrArg some
      apply recovered_eq hcount (take_lt htake)
      intro i hi
      have hcovers : part.covers part.field.index (part.shift + i) := ⟨rfl, by omega, by omega⟩
      rw [runs_keep hruns' _ _ _ hrun _ _
        fun other hmem => (hfirst other hmem).not_covers hcovers, Function.update_self,
        Nat.testBit_or, hclear part List.mem_cons_self _ _ hcovers, Bool.false_or,
        testBit_placed hcount (take_lt htake) (lift_eq_some hplaced),
        decide_eq_true (show part.shift ≤ part.shift + i ∧ part.shift + i < part.shift + part.count
          by omega), Bool.true_and, Nat.add_sub_cancel_left]
    · intro s bits s' htake
      apply Determined.liftBind
      intro placed hplaced
      apply ih hruns' hrest
      intro other hmem field i hcovers
      have hbefore := hclear other (List.mem_cons_of_mem part hmem) field i hcovers
      by_cases hfield : field = part.field.index
      · subst hfield
        have houtside : ¬(part.shift ≤ i ∧ i < part.shift + part.count) := fun hinside =>
          (hfirst other hmem).not_covers ⟨rfl, hinside.1, hinside.2⟩ hcovers
        rw [Function.update_self, Nat.testBit_or, hbefore, Bool.false_or,
          testBit_placed hcount (take_lt htake) hplaced, decide_eq_false houtside, Bool.false_and]
      · rw [Function.update_of_ne hfield]
        exact hbefore

/-! ## What a block reads -/

/-- A block's readings are within the widths of its mode. -/
structure Bc6Ranged (mode : Bc6Mode) (readings : Bc6Readings) : Prop where
  fields : ∀ field, readings.fields field < 2 ^ mode.fieldBits field
  partition : readings.partition < 64
  indices : readings.indices.length = 16 ∧ ∀ index ∈ readings.indices, index < 2 ^ mode.indexBits

theorem indexBits_cases (mode : Bc6Mode) : 2 ≤ mode.indexBits ∧ mode.indexBits ≤ 4 := by
  unfold Bc6Mode.indexBits
  split <;> decide

theorem reads_header {mode : Bc6Mode} {value : Nat} (hshaped : mode.Shaped value) :
    Reads 128 (readHeader value mode) (128 - if value < 2 then 2 else 5)
      (fun readings => readings.value = value ∧ Bc6Ranged mode readings) := by
  have hwidth := hshaped.width
  obtain ⟨hlow, hhigh⟩ := indexBits_cases mode
  rw [show 128 - (if value < 2 then 2 else 5) = (mode.runs.map Run.count).sum +
    ((if mode.subsets = 2 then 5 else 0) + ((16 * mode.indexBits - mode.subsets) + 0)) by omega]
  unfold readHeader
  apply (reads_runs hshaped.within fun _ => Nat.two_pow_pos _).bind
  intro fields hfields
  have hpartition : Reads 128 (readPartition mode) (if mode.subsets = 2 then 5 else 0) (· < 64) := by
    unfold readPartition
    split
    · exact (reads_take (by decide)).weaken fun _ hlt => Nat.lt_trans hlt (by decide)
    · exact Reads.pure (by decide)
  apply hpartition.bind
  intro partition hpartition
  have hsubsets := hshaped.subsets
  apply (reads_readIndices (by omega) (by omega) hsubsets.1 (by omega) hpartition).bind
  intro indices hindices
  exact Reads.pure ⟨rfl, hfields, hpartition, hindices⟩

theorem yields_value (value : Nat) (mode : Bc6Mode) :
    Yields (readHeader value mode) (fun readings => readings.value = value) := by
  unfold readHeader
  iterate 3 (apply Yields.bind; intro _)
  exact Yields.pure rfl

theorem determined_header {mode : Bc6Mode} (hcounts : ∀ part ∈ mode.runs, part.count ≤ 32)
    (hapart : mode.runs.Pairwise Run.Apart) (value : Nat) : Determined (readHeader value mode) := by
  unfold readHeader
  apply (determined_runs hcounts hapart
    fun _ _ _ i _ => Nat.zero_testBit i).bindKept _ Bc6Readings.fields
  · intro fields
    iterate 2 (apply Yields.bind; intro _)
    exact Yields.pure rfl
  · intro fields
    have hpartition : Determined (readPartition mode) := by
      unfold readPartition
      split
      · exact determined_take 5
      · exact Determined.pure 0
    apply hpartition.bindKept _ Bc6Readings.partition
    · intro partition
      iterate 1 (apply Yields.bind; intro _)
      exact Yields.pure rfl
    · intro partition
      apply (determined_readIndices _ _ _).map _ (fun readings => some readings.indices)
      intro s indices s' _
      rfl

theorem modeBits_read (block : Block) : ∃ value s, readModeBits block.bits = some (value, s) ∧
    value < 32 ∧ Took block.bits s (if value < 2 then 2 else 5) := by
  obtain ⟨low, s, htake, hlow, htook⟩ :=
    (reads_take (by decide) : Reads 128 (take 2) 2 _) block.bits (by show 0 + 2 ≤ 128; decide)
  have hfour : low < 4 := hlow
  by_cases htwo : low < 2
  · refine ⟨low, s, bind_eq_some.mpr ⟨low, s, htake, ?_⟩, by omega, ?_⟩
    · rw [if_pos htwo]
      rfl
    · rw [if_pos htwo]
      exact htook
  · obtain ⟨high, s', htake', hhigh, htook'⟩ :=
      (reads_take (by decide) : Reads 128 (take 3) 3 _) s (by
        rw [htook.2.1]
        show 0 + 2 + 3 ≤ 128
        decide)
    have height : high < 8 := hhigh
    have hvalue : low ||| high <<< 2 = high * 4 + low := by
      rw [Nat.shiftLeft_eq, Nat.or_comm, Nat.mul_comm, ← Nat.two_pow_add_eq_or_of_lt hlow high]
    refine ⟨low ||| high <<< 2, s', bind_eq_some.mpr ⟨low, s, htake, ?_⟩, by omega, ?_⟩
    · rw [if_neg htwo]
      exact bind_eq_some.mpr ⟨high, s', htake', rfl⟩
    · rw [if_neg (by omega)]
      exact htook.trans htook'

theorem determined_modeBits : Determined readModeBits := by
  unfold readModeBits
  apply (determined_take 2).bind _ (fun value => some (value % 4))
  · intro s low s' value s'' htake hrun
    have hlow : low < 4 := take_lt htake
    split at hrun
    · cases pure_eq_some.mp hrun
      exact congrArg some (Nat.mod_eq_of_lt hlow)
    · obtain ⟨high, s₁, _, hrun⟩ := bind_eq_some.mp hrun
      cases pure_eq_some.mp hrun
      rw [Nat.shiftLeft_eq, Nat.or_comm, Nat.mul_comm,
        ← Nat.two_pow_add_eq_or_of_lt (show low < 2 ^ 2 from hlow) high]
      congr 1
      omega
  · intro s low s' htake
    have hlow : low < 4 := take_lt htake
    split
    · exact Determined.pure low
    · apply (determined_take 3).map _ (fun value => some (value / 4))
      intro s high s' _
      rw [Nat.shiftLeft_eq, Nat.or_comm, Nat.mul_comm,
        ← Nat.two_pow_add_eq_or_of_lt (show low < 2 ^ 2 from hlow) high]
      congr 1
      omega

/-- Reading a block never fails, and one that names a mode is read whole, each bit once, and each
value within its width. -/
theorem bc6h_read (block : Block) : ∃ read s, readBc6h block.bits = some (read, s) ∧
    ∀ readings, read = some readings → ∃ mode, bc6Mode readings.value = some mode ∧
      mode.Shaped readings.value ∧ Bc6Ranged mode readings ∧ s.next = 128 ∧
      s.spans.flatMap (fun span => List.range' span.1 span.2) = List.range 128 := by
  obtain ⟨value, s, hbits, hvalue, htook⟩ := modeBits_read block
  cases hmode : bc6Mode value with
  | none =>
    refine ⟨none, s, bind_eq_some.mpr ⟨value, s, hbits, ?_⟩, fun _ hread => nomatch hread⟩
    rw [hmode]
    rfl
  | some mode =>
    have hshaped := bc6Mode_shaped hvalue hmode
    have hnext : s.next = if value < 2 then 2 else 5 := htook.2.1.trans (Nat.zero_add _)
    obtain ⟨readings, s', hheader, ⟨hsame, hranged⟩, htook'⟩ :=
      reads_header hshaped s (by rw [hnext]; split <;> decide)
    refine ⟨some readings, s', bind_eq_some.mpr ⟨value, s, hbits, ?_⟩, ?_⟩
    · rw [hmode]
      exact bind_eq_some.mpr ⟨readings, s', hheader, rfl⟩
    · intro other hread
      cases hread
      obtain ⟨_, hend, spans, hspans, hcover⟩ := htook.trans htook'
      have hall : (if value < 2 then 2 else 5) + (128 - if value < 2 then 2 else 5) = 128 := by
        split <;> rfl
      rw [hall] at hend hcover
      refine ⟨mode, hsame.symm ▸ hmode, hsame.symm ▸ hshaped, hranged,
        hend.trans (Nat.zero_add _), ?_⟩
      rw [hspans]
      exact hcover.trans List.range_eq_range'.symm

theorem bc6h_inj {block other : Block} {readings : Bc6Readings} {s s' : Cursor}
    (h : readBc6h block.bits = some (some readings, s))
    (h' : readBc6h other.bits = some (some readings, s')) : block = other := by
  have hparts : ∀ {b : Block} {t}, readBc6h b.bits = some (some readings, t) →
      ∃ mode, bc6Mode readings.value = some mode ∧ mode.Shaped readings.value ∧ 128 ≤ t.next ∧
        (readModeBits >>= fun value => readHeader value mode) b.bits = some (readings, t) := by
    intro b t hread
    obtain ⟨read, t', hread', hall⟩ := bc6h_read b
    rw [hread] at hread'
    cases hread'
    obtain ⟨mode, hmode, hshaped, _, hnext, _⟩ := hall readings rfl
    obtain ⟨value, t₁, hbits, hrest⟩ := bind_eq_some.mp hread
    cases hvalue : bc6Mode value with
    | none =>
      rw [hvalue] at hrest
      cases pure_eq_some.mp hrest
    | some mode' =>
      rw [hvalue] at hrest
      obtain ⟨readings', t₂, hheader, hlast⟩ := bind_eq_some.mp hrest
      cases pure_eq_some.mp hlast
      have hsame := yields_value value mode' _ _ _ hheader
      subst hsame
      rw [hmode] at hvalue
      cases hvalue
      exact ⟨mode, hmode, hshaped, Nat.le_of_eq hnext.symm,
        bind_eq_some.mpr ⟨_, t₁, hbits, hheader⟩⟩
  obtain ⟨mode, hmode, hshaped, hend, hrun⟩ := hparts h
  obtain ⟨mode', hmode', _, _, hrun'⟩ := hparts h'
  rw [hmode] at hmode'
  cases hmode'
  have hdetermined : Determined (readModeBits >>= fun value => readHeader value mode) :=
    determined_modeBits.bindKept
      (determined_header (fun part hmem => (hshaped.within part hmem).1) hshaped.apart)
      Bc6Readings.value fun value => yields_value value mode
  apply Block.word_inj
  exact hdetermined.word_eq block.word_lt other.word_lt hrun hrun' hend
    fun i hi => absurd hi (Nat.not_lt_zero i)

/-! ## What a block decodes to -/

/-- A half float's place among them, from its bits; both zeros stand at 0. -/
def halfOrder (bits : Nat) : Int := if bits < 0x8000 then (bits : Int) else -((bits - 0x8000 : Nat) : Int)

/-- What interpolation works in: sixteen bits, signed or not. -/
def Working (signed : Bool) (value : Int) : Prop :=
  if signed then -0x8000 ≤ value ∧ value ≤ 0x7fff else 0 ≤ value ∧ value ≤ 0xffff

theorem fitI32_eq {value : Int} (h : -2 ^ 31 ≤ value ∧ value < 2 ^ 31) :
    fitI32 value = some value := if_pos h

theorem signExtend_bounds {value bits : Nat} (h : 1 ≤ bits) (h' : bits ≤ 32) :
    ∃ extended, signExtend value bits = some extended ∧
      -2 ^ (bits - 1) ≤ extended ∧ extended < 2 ^ (bits - 1) := by
  refine ⟨(BitVec.ofNat bits value).toInt, if_neg (by omega), ?_, BitVec.toInt_lt⟩
  exact BitVec.le_toInt _

theorem scaledMagnitude_fits {magnitude : Int} {down : Nat} (hdown : down ≤ 11)
    (h : 0 ≤ magnitude ∧ magnitude ≤ 2 ^ down) :
    ∃ scaled, scaledMagnitude magnitude down = some scaled ∧ 0 ≤ scaled ∧ scaled ≤ 0x7fff := by
  have hpow : (2 : Int) ^ down ≤ 2 ^ 11 := pow_le_pow_right₀ (by decide) hdown
  have hpos : (0 : Int) < 2 ^ down := pow_pos (by decide) _
  unfold scaledMagnitude
  by_cases hzero : magnitude = 0
  · exact ⟨0, if_pos hzero, by decide⟩
  · rw [if_neg hzero]
    by_cases hfull : 2 ^ down - 1 ≤ magnitude
    · exact ⟨0x7fff, if_pos hfull, by decide⟩
    · have hlt : (magnitude * 2 ^ 15 + 0x4000) / 2 ^ down < 2 ^ 15 :=
        Int.ediv_lt_of_lt_mul hpos (by nlinarith)
      rw [if_neg hfull, fitI32_eq (by omega)]
      exact ⟨(magnitude * 2 ^ 15 + 0x4000) / 2 ^ down, rfl,
        Int.ediv_nonneg (by omega) (by omega), by omega⟩

theorem unquantize_signed {value : Int} {bits : Nat} (hbits : 6 ≤ bits ∧ bits ≤ 12 ∨ bits = 16)
    (h : -2 ^ (bits - 1) ≤ value ∧ value < 2 ^ (bits - 1)) :
    ∃ unquantized, unquantize value bits true = some unquantized ∧ Working true unquantized := by
  unfold unquantize Working
  simp only [if_true]
  rcases hbits with hsmall | rfl
  · obtain ⟨scaled, hscaled, hlow, hhigh⟩ :=
      @scaledMagnitude_fits value.natAbs (bits - 1) (by omega) (by omega)
    refine ⟨if value < 0 then -scaled else scaled, ?_, ?_⟩
    · rw [if_neg (by omega), minus_eq (by omega)]
      simp only [Option.bind_eq_bind, Option.bind_some, hscaled]
      rfl
    · split <;> omega
  · exact ⟨value, if_pos (by decide), by omega⟩

theorem unquantize_unsigned {value : Int} {bits : Nat} (hbits : 6 ≤ bits ∧ bits ≤ 12 ∨ bits = 16)
    (h : 0 ≤ value ∧ value < 2 ^ bits) :
    ∃ unquantized, unquantize value bits false = some unquantized ∧ Working false unquantized := by
  unfold unquantize Working
  simp only [Bool.false_eq_true, if_false]
  rcases hbits with hsmall | rfl
  · rw [if_neg (by omega)]
    by_cases hzero : value = 0
    · exact ⟨0, if_pos hzero, by decide⟩
    · rw [if_neg hzero]
      by_cases hfull : value = 2 ^ bits - 1
      · exact ⟨0xffff, if_pos hfull, by decide⟩
      · have hpow : (2 : Int) ^ bits ≤ 2 ^ 12 := pow_le_pow_right₀ (by decide) hsmall.2
        have hpos : (0 : Int) < 2 ^ bits := pow_pos (by decide) bits
        have hlt : (value * 2 ^ 16 + 0x8000) / 2 ^ bits < 2 ^ 16 :=
          Int.ediv_lt_of_lt_mul hpos (by nlinarith)
        rw [if_neg hfull, fitI32_eq (by omega)]
        exact ⟨(value * 2 ^ 16 + 0x8000) / 2 ^ bits, rfl,
          Int.ediv_nonneg (by omega) (by omega), by omega⟩
  · exact ⟨value, if_pos (by decide), by omega⟩

/-- A working value finishes to a half float no greater than the largest finite one where it is
unsigned, in the order of what it is from. -/
theorem finish_order (signed : Bool) : ∃ order : Int → Int, Monotone order ∧
    ∀ value, Working signed value → ∃ half, finish value signed = some half ∧
      halfOrder half = order value ∧ (signed = false → half ≤ 0x7bff) := by
  cases signed with
  | false =>
    refine ⟨fun value => value * 31 / 64, fun a b hab => Int.ediv_le_ediv (by decide) (by omega),
      fun value hvalue => ?_⟩
    have hrange : 0 ≤ value ∧ value ≤ 0xffff := hvalue
    have hlow : 0 ≤ value * 31 / 64 := by omega
    have hhigh : value * 31 / 64 ≤ 0x7bff := by omega
    have hwhole : value * 31 / 64 % 2 ^ 16 = value * 31 / 64 := by
      exact Int.emod_eq_of_lt hlow (by omega)
    refine ⟨(value * 31 / 64).toNat, ?_, ?_, fun _ => by omega⟩
    · unfold finish
      rw [if_neg (by decide), fitI32_eq (by omega)]
      show some (value * 31 / 64 % 2 ^ 16).toNat = _
      rw [hwhole]
    · unfold halfOrder
      rw [if_pos (by omega)]
      exact Int.toNat_of_nonneg hlow
  | true =>
    refine ⟨fun value => if value < 0 then -(-value * 31 / 32) else value * 31 / 32,
      fun a b hab => ?_, fun value hvalue => ?_⟩
    · show (if a < 0 then -(-a * 31 / 32) else a * 31 / 32) ≤
        if b < 0 then -(-b * 31 / 32) else b * 31 / 32
      split <;> split <;> omega
    · have hrange : -0x8000 ≤ value ∧ value ≤ 0x7fff := hvalue
      by_cases hneg : value < 0
      · have hlt : (-value * 31 / 32).toNat < 2 ^ 15 := by omega
        have hor : 0x8000 ||| (-value * 31 / 32).toNat % 2 ^ 16 =
            2 ^ 15 * 1 + (-value * 31 / 32).toNat := by
          rw [Nat.mod_eq_of_lt (by omega), Nat.two_pow_add_eq_or_of_lt hlt 1]
        refine ⟨0x8000 ||| (-value * 31 / 32).toNat % 2 ^ 16, ?_, ?_, fun hsigned => nomatch hsigned⟩
        · unfold finish
          rw [if_pos rfl, if_pos hneg, fitI32_eq (by omega)]
          rfl
        · show halfOrder _ = if value < 0 then _ else _
          rw [hor, if_pos hneg]
          unfold halfOrder
          rw [if_neg (by omega)]
          omega
      · have hlow : 0 ≤ value * 31 / 32 := by omega
        have hhigh : value * 31 / 32 < 0x8000 := by omega
        refine ⟨(value * 31 / 32).toNat, ?_, ?_, fun hsigned => nomatch hsigned⟩
        · unfold finish
          rw [if_pos rfl, if_neg hneg, fitI32_eq (by omega)]
          show some ((value * 31 / 32).toNat % 2 ^ 16) = _
          rw [Nat.mod_eq_of_lt (by omega)]
        · show halfOrder _ = if value < 0 then _ else _
          rw [if_neg hneg]
          unfold halfOrder
          rw [if_pos (by omega)]
          exact Int.toNat_of_nonneg hlow

section Decode

variable {mode : Bc6Mode} {readings : Bc6Readings} (hshaped : mode.Shaped readings.value)
  (hranged : Bc6Ranged mode readings)
include hshaped hranged

omit hranged in
theorem numberOf_fits (signed : Bool) {value : Nat} (h : value < 2 ^ mode.precision) :
    ∃ number, numberOf mode signed value = some number ∧
      if signed then -2 ^ (mode.precision - 1) ≤ number ∧ number < 2 ^ (mode.precision - 1)
      else 0 ≤ number ∧ number < 2 ^ mode.precision := by
  have hprecision := hshaped.precision
  cases signed with
  | true => exact signExtend_bounds (by omega) (by omega)
  | false => exact ⟨value, rfl, by omega, by exact_mod_cast h⟩

theorem componentOf_fits (endpoint : Fin 4) (channel : Fin 3) (base : Nat) :
    ∃ value < 2 ^ mode.precision, componentOf mode base
      (readings.fields ⟨3 * endpoint.val + channel.val, by omega⟩) channel = some value := by
  have hfield := hranged.fields ⟨3 * endpoint.val + channel.val, by omega⟩
  unfold Bc6Mode.fieldBits at hfield
  unfold componentOf
  cases htransformed : mode.transformed with
  | true =>
    obtain ⟨hlow, hhigh⟩ := hshaped.deltas channel
    obtain ⟨delta, hdelta, _⟩ := @signExtend_bounds
      (readings.fields ⟨3 * endpoint.val + channel.val, by omega⟩) _ hlow hhigh
    rw [if_pos rfl, hdelta]
    refine ⟨(((base : Int) + delta) % 2 ^ 32).toNat &&& (2 ^ mode.precision - 1), ?_, rfl⟩
    rw [Nat.and_two_pow_sub_one_eq_mod]
    exact Nat.mod_lt _ (Nat.two_pow_pos _)
  | false =>
    simp only [htransformed, Bool.not_false, or_true, if_true] at hfield
    exact ⟨_, hfield, if_neg (by decide)⟩

theorem endpointOf_fits (signed : Bool) (endpoint : Fin 4) (channel : Fin 3) :
    ∃ number, endpointOf mode readings.fields signed endpoint channel = some number ∧
      if signed then -2 ^ (mode.precision - 1) ≤ number ∧ number < 2 ^ (mode.precision - 1)
      else 0 ≤ number ∧ number < 2 ^ mode.precision := by
  have hbase := hranged.fields ⟨channel.val, by omega⟩
  unfold Bc6Mode.fieldBits at hbase
  rw [if_pos (Or.inl channel.isLt)] at hbase
  unfold endpointOf
  by_cases hfirst : endpoint = 0
  · rw [if_pos hfirst]
    exact numberOf_fits hshaped signed hbase
  · rw [if_neg hfirst]
    obtain ⟨value, hlt, hvalue⟩ := componentOf_fits hshaped hranged endpoint channel
      (readings.fields ⟨channel.val, by omega⟩)
    rw [hvalue]
    exact numberOf_fits hshaped signed hlt

theorem component_fits (signed : Bool) (endpoint : Fin 4) (channel : Fin 3) :
    ∃ component, ((endpointOf mode readings.fields signed endpoint channel).bind fun value =>
      unquantize value mode.precision signed) = some component ∧ Working signed component := by
  obtain ⟨number, hnumber, hbounds⟩ := endpointOf_fits hshaped hranged signed endpoint channel
  rw [hnumber]
  cases signed with
  | true => exact unquantize_signed hshaped.precision hbounds
  | false => exact unquantize_unsigned hshaped.precision hbounds

theorem bc6Endpoints_fits (signed : Bool) :
    ∃ endpoints, bc6Endpoints mode readings signed = some endpoints ∧
      ∀ endpoint < 4, ∃ components, endpoints[endpoint]? = some components ∧
        ∀ channel < 3, ∃ component, components[channel]? = some component ∧
          Working signed component := by
  have hrows : ∀ endpoint : Fin 4, ∃ components, ((List.finRange 3).mapM fun channel =>
      (endpointOf mode readings.fields signed endpoint channel).bind fun value =>
        unquantize value mode.precision signed) = some components ∧
      ∀ channel < 3, ∃ component, components[channel]? = some component ∧
        Working signed component := by
    intro endpoint
    obtain ⟨components, hcomponents, _, hall⟩ := mapM_answers (List.finRange 3) fun channel _ =>
      component_fits hshaped hranged signed endpoint channel
    refine ⟨components, hcomponents, fun channel hchannel => ?_⟩
    obtain ⟨component, hat, _, hworking⟩ :=
      hall channel (by rw [List.length_finRange]; exact hchannel)
    exact ⟨component, hat, hworking⟩
  obtain ⟨endpoints, hendpoints, _, hall⟩ := mapM_answers (List.finRange 4) fun endpoint _ =>
    hrows endpoint
  refine ⟨endpoints, hendpoints, fun endpoint hendpoint => ?_⟩
  obtain ⟨components, hat, _, hcomponents⟩ :=
    hall endpoint (by rw [List.length_finRange]; exact hendpoint)
  exact ⟨components, hat, hcomponents⟩

def Bc6Between (mode : Bc6Mode) (readings : Bc6Readings) (signed : Bool)
    (endpoints : List (List Int)) (texel : Nat) (value : List Nat) : Prop :=
  ∃ subset a b, subsetOf mode.subsets readings.partition texel = some subset ∧
    endpoints[2 * subset]? = some a ∧ endpoints[2 * subset + 1]? = some b ∧
    ∀ channel < 3, ∃ first second half firstHalf secondHalf, a[channel]? = some first ∧
      b[channel]? = some second ∧ value[channel]? = some half ∧
      finish first signed = some firstHalf ∧ finish second signed = some secondHalf ∧
      Between (halfOrder firstHalf) (halfOrder secondHalf) (halfOrder half) ∧
      (signed = false → half ≤ 0x7bff)

omit hshaped hranged in
theorem mixed_between {a b : Int} {w : Nat} {signed : Bool} (hw : w < 65) (ha : Working signed a)
    (hb : Working signed b) : ∃ value, mixed a b w = some value ∧ Between a b value ∧
      Working signed value := by
  have hmean := between_mean hw (rfl : (a * (64 - w) + b * w + 32) / 64 = _)
  have hbounds : -0x8000 ≤ min a b ∧ max a b ≤ 0xffff := by
    unfold Working at ha hb
    cases signed with
    | true =>
      rw [if_pos rfl] at ha hb
      omega
    | false =>
      rw [if_neg (by decide)] at ha hb
      omega
  have hvalue := hmean
  unfold Between at hvalue
  refine ⟨(a * (64 - w) + b * w + 32) / 64, ?_, hmean, ?_⟩
  · unfold mixed
    rw [fitI32_eq (by omega)]
    rfl
  · unfold Working at ha hb ⊢
    cases signed with
    | true =>
      rw [if_pos rfl] at ha hb ⊢
      omega
    | false =>
      rw [if_neg (by decide)] at ha hb ⊢
      omega

theorem bc6Texel_between (signed : Bool) {endpoints : List (List Int)}
    (hendpoints : ∀ endpoint < 4, ∃ components, endpoints[endpoint]? = some components ∧
      ∀ channel < 3, ∃ component, components[channel]? = some component ∧
        Working signed component) {texel : Nat} (htexel : texel < 16) :
    ∃ value, bc6Texel mode readings signed endpoints texel = some value ∧
      Bc6Between mode readings signed endpoints texel value := by
  have hsubsets := hshaped.subsets
  obtain ⟨hlow, hhigh⟩ := indexBits_cases mode
  obtain ⟨subset, hsubset, hof⟩ :=
    subsetOf_table mode.subsets (by omega) _ hranged.partition _ htexel hsubsets.1
  obtain ⟨hlength, hindices⟩ := hranged.indices
  have hindexAt : readings.indices[texel]? = some readings.indices[texel] :=
    List.getElem?_eq_getElem _
  obtain ⟨w, hw, hweight⟩ := weights_table mode.indexBits (by omega) _
    (hindices _ (List.getElem_mem (show texel < readings.indices.length by omega))) hlow
  obtain ⟨a, ha, hfirst⟩ := hendpoints (2 * subset) (by omega)
  obtain ⟨b, hb, hsecond⟩ := hendpoints (2 * subset + 1) (by omega)
  obtain ⟨order, hmono, hfinish⟩ := finish_order signed
  obtain ⟨value, hvalue, _, hchannels⟩ := @mapM_answers Nat Nat
    (fun channel => do
      let first ← a[channel]?
      let second ← b[channel]?
      let value ← mixed first second w
      finish value signed)
    (fun channel half => ∃ first second firstHalf secondHalf, a[channel]? = some first ∧
      b[channel]? = some second ∧ finish first signed = some firstHalf ∧
      finish second signed = some secondHalf ∧
      Between (halfOrder firstHalf) (halfOrder secondHalf) (halfOrder half) ∧
      (signed = false → half ≤ 0x7bff)) (List.range 3) (by
    intro channel hchannel
    have hthree := List.mem_range.mp hchannel
    obtain ⟨first, hfirstAt, hfirstWorking⟩ := hfirst channel hthree
    obtain ⟨second, hsecondAt, hsecondWorking⟩ := hsecond channel hthree
    obtain ⟨value, hmixed, hbetween, hworking⟩ := mixed_between hw hfirstWorking hsecondWorking
    obtain ⟨half, hhalf, horder, hfinite⟩ := hfinish value hworking
    obtain ⟨firstHalf, hfirstHalf, hfirstOrder, _⟩ := hfinish first hfirstWorking
    obtain ⟨secondHalf, hsecondHalf, hsecondOrder, _⟩ := hfinish second hsecondWorking
    refine ⟨half, ?_, first, second, firstHalf, secondHalf, hfirstAt, hsecondAt, hfirstHalf,
      hsecondHalf, ?_, hfinite⟩
    · simp only [hfirstAt, hsecondAt, Option.bind_eq_bind, Option.bind_some, hmixed]
      exact hhalf
    · rw [horder, hfirstOrder, hsecondOrder]
      unfold Between at hbetween ⊢
      rw [← hmono.map_min, ← hmono.map_max]
      exact ⟨hmono hbetween.1, hmono hbetween.2⟩)
  refine ⟨value, ?_, subset, a, b, hof, ha, hb, fun channel hchannel => ?_⟩
  · unfold bc6Texel
    simp only [hof, hindexAt, hweight, ha, hb, Option.bind_eq_bind, Option.bind_some]
    exact hvalue
  · obtain ⟨half, hat, _, first, second, firstHalf, secondHalf, hfirstAt, hsecondAt, hfirstHalf,
      hsecondHalf, hbetween, hfinite⟩ := hchannels channel (by rw [List.length_range]; exact hchannel)
    rw [List.getElem_range] at hfirstAt hsecondAt
    exact ⟨first, second, half, firstHalf, secondHalf, hfirstAt, hsecondAt, hat, hfirstHalf,
      hsecondHalf, hbetween, hfinite⟩

end Decode

theorem bc6h_decodes (block : Block) : ∃ read s, readBc6h block.bits = some (read, s) ∧
    ∀ readings, read = some readings → ∃ mode, bc6Mode readings.value = some mode ∧
      s.next = 128 ∧
      s.spans.flatMap (fun span => List.range' span.1 span.2) = List.range 128 ∧
      ∀ signed, ∃ endpoints texels, bc6Endpoints mode readings signed = some endpoints ∧
        bc6h block signed = some texels ∧ texels.length = 16 ∧
        ∀ texel < 16, ∃ value, texels[texel]? = some value ∧
          Bc6Between mode readings signed endpoints texel value := by
  obtain ⟨read, s, hread, hall⟩ := bc6h_read block
  refine ⟨read, s, hread, fun readings hreadings => ?_⟩
  obtain ⟨mode, hmode, hshaped, hranged, hnext, hcover⟩ := hall readings hreadings
  refine ⟨mode, hmode, hnext, hcover, fun signed => ?_⟩
  obtain ⟨endpoints, hendpoints, hfits⟩ := bc6Endpoints_fits hshaped hranged signed
  obtain ⟨texels, htexels, hcount, hvalues⟩ := mapM_answers (List.range 16) fun texel htexel =>
    bc6Texel_between hshaped hranged signed hfits (List.mem_range.mp htexel)
  refine ⟨endpoints, texels, hendpoints, ?_, hcount, fun texel htexel => ?_⟩
  · unfold bc6h
    rw [hread, hreadings]
    simp only [Option.bind_eq_bind, Option.bind_some, hmode, hendpoints]
    exact htexels
  · obtain ⟨value, hvalue, _, hbetween⟩ := hvalues texel (by rw [List.length_range]; exact htexel)
    rw [List.getElem_range] at hbetween
    exact ⟨value, hvalue, hbetween⟩

/-! ## Both formats -/

/-- Every block that names a mode is read whole, each bit once and in order, and decodes without an
index past a table or an overflow to texels between their subsets' endpoints, a rotation exchanging
the endpoints' channels as the texels'; and what is read of a block tells the block. -/
theorem blocks_decode :
    (∀ block number, bc7Number block = some number →
      ∃ mode readings s colours texels, BC7_MODES[number]? = some mode ∧
        bc7Readings block = some (readings, s) ∧ s.next = 128 ∧
        s.spans.flatMap (fun span => List.range' span.1 span.2) = List.range 128 ∧
        bc7Colours mode readings = some colours ∧ bc7 block = some texels ∧ texels.length = 16 ∧
        ∀ texel < 16, ∃ value, texels[texel]? = some value ∧
          Bc7Between mode readings colours texel value) ∧
    (∀ block other readings s s', bc7Readings block = some (readings, s) →
      bc7Readings other = some (readings, s') → block = other) ∧
    (∀ block : Block, ∃ read s, readBc6h block.bits = some (read, s) ∧
      ∀ readings, read = some readings → ∃ mode, bc6Mode readings.value = some mode ∧
        s.next = 128 ∧
        s.spans.flatMap (fun span => List.range' span.1 span.2) = List.range 128 ∧
        ∀ signed, ∃ endpoints texels, bc6Endpoints mode readings signed = some endpoints ∧
          bc6h block signed = some texels ∧ texels.length = 16 ∧
          ∀ texel < 16, ∃ value, texels[texel]? = some value ∧
            Bc6Between mode readings signed endpoints texel value) ∧
    (∀ (block other : Block) readings s s', readBc6h block.bits = some (some readings, s) →
      readBc6h other.bits = some (some readings, s') → block = other) :=
  ⟨fun _ _ h => bc7_decodes h, fun _ _ _ _ _ h h' => bc7Readings_inj h h', bc6h_decodes,
    fun _ _ _ _ _ h h' => bc6h_inj h h'⟩

/-- A block of mode 5 whose alpha is full, its colours none, and which exchanges alpha and red. -/
def rotatedBlock : Block := ⟨littleEndian 16 (0x60 + 0xffff <<< 50), by decide⟩

theorem blocks_decode_rotated :
    ∃ mode readings s colours texels, BC7_MODES[5]? = some mode ∧
      bc7Readings rotatedBlock = some (readings, s) ∧ s.next = 128 ∧
      s.spans.flatMap (fun span => List.range' span.1 span.2) = List.range 128 ∧
      bc7Colours mode readings = some colours ∧ bc7 rotatedBlock = some texels ∧
      texels.length = 16 ∧ ∀ texel < 16, ∃ value, texels[texel]? = some value ∧
        Bc7Between mode readings colours texel value :=
  blocks_decode.1 rotatedBlock 5 (by decide)

/-- Its texels' red is between no endpoints' red. -/
theorem rotation_leaves_endpoints :
    ((bc7Readings rotatedBlock).bind fun read => BC7_MODES[5]?.bind fun mode =>
        (bc7Colours mode read.1).map fun colours => colours.map fun colour => colour 0) =
      some [0, 0] ∧
    ((bc7 rotatedBlock).map fun texels => texels.map fun texel => texel 0) =
      some (List.replicate 16 255) ∧ ¬Between 0 0 255 := by
  refine ⟨by decide +kernel, by decide +kernel, ?_⟩
  unfold Between
  decide

end Orbistoun.Gpu.Bc
