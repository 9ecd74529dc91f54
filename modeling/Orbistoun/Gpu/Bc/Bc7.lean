import Orbistoun.Gpu.Bc.Blocks

/-! # BC7 blocks

A block's lowest set bit names its mode, and the mode what the rest of its bits are.
-/

namespace Orbistoun.Gpu.Bc

open Lib.BitReader Lib.Codes

structure Bc7Mode where
  subsets : Nat
  partitionBits : Nat
  rotationBits : Nat
  selectionBit : Bool
  colourBits : Nat
  alphaBits : Nat
  /-- A P-bit for each endpoint. -/
  endpointP : Bool
  /-- A P-bit shared by each subset's two endpoints. -/
  sharedP : Bool
  indexBits : Nat
  secondIndexBits : Nat
  deriving DecidableEq

def BC7_MODES : List Bc7Mode :=
  [⟨3, 4, 0, false, 4, 0, true, false, 3, 0⟩,
    ⟨2, 6, 0, false, 6, 0, false, true, 3, 0⟩,
    ⟨3, 6, 0, false, 5, 0, false, false, 2, 0⟩,
    ⟨2, 6, 0, false, 7, 0, true, false, 2, 0⟩,
    ⟨1, 0, 2, true, 5, 6, false, false, 2, 3⟩,
    ⟨1, 0, 2, false, 7, 8, false, false, 2, 2⟩,
    ⟨1, 0, 0, false, 7, 7, true, false, 4, 0⟩,
    ⟨2, 6, 0, false, 5, 5, true, false, 2, 0⟩]

/-- The mode a block names: its first byte's lowest set bit. -/
def bc7Number (block : Block) : Option Nat :=
  (List.range 8).find? fun bit => (block.bytes.headD 0).toNat >>> bit &&& 1 == 1

/-! ## Reading -/

/-- What a block of a mode reads. -/
structure Bc7Readings where
  number : Nat
  partition : Nat
  rotation : Nat
  selection : Bool
  /-- Red, green and blue, each for every endpoint. -/
  colours : List (List Nat)
  alphas : List Nat
  pBits : List Nat
  primary : List Nat
  secondary : List Nat
  deriving DecidableEq

def Bc7Mode.endpoints (mode : Bc7Mode) : Nat := mode.subsets * 2

def readSelection (mode : Bc7Mode) : Reader Bool :=
  if mode.selectionBit then do
    let bit ← take 1
    pure (bit == 1)
  else pure false

def readPBits (mode : Bc7Mode) : Reader (List Nat) :=
  if mode.endpointP then (List.range mode.endpoints).mapM fun _ => take 1
  else if mode.sharedP then (List.range mode.subsets).mapM fun _ => take 1
  else pure []

def readSecondary (mode : Bc7Mode) (primary : List Nat) : Reader (List Nat) :=
  if 0 < mode.secondIndexBits then readIndices mode.secondIndexBits 1 0 else pure primary

def readFields (number : Nat) (mode : Bc7Mode) : Reader Bc7Readings := do
  let partition ← take mode.partitionBits
  let rotation ← take mode.rotationBits
  let selection ← readSelection mode
  let colours ← (List.range 3).mapM fun _ =>
    (List.range mode.endpoints).mapM fun _ => take mode.colourBits
  let alphas ← (List.range mode.endpoints).mapM fun _ => take mode.alphaBits
  let pBits ← readPBits mode
  let primary ← readIndices mode.indexBits mode.subsets partition
  let secondary ← readSecondary mode primary
  pure { number, partition, rotation, selection, colours, alphas, pBits, primary, secondary }

def readBc7 (number : Nat) (mode : Bc7Mode) : Reader Bc7Readings := do
  let _ ← take (number + 1)
  readFields number mode

/-! ## Decoding -/

/-- An eight-bit channel from a value of some bits, the top ones repeated into the low. -/
def widen (value width : Nat) : Option Nat := do
  let up ← minus 8 width
  let shifted ← fit32 (value <<< up)
  pure ((shifted ||| shifted >>> width) % 256)

/-- An endpoint's P-bit, zero in a mode of none. -/
def pBitOf (mode : Bc7Mode) (readings : Bc7Readings) (endpoint : Nat) : Nat :=
  if mode.endpointP then readings.pBits.getD endpoint 0
  else if mode.sharedP then readings.pBits.getD (endpoint / 2) 0
  else 0

def channelOf (mode : Bc7Mode) (readings : Bc7Readings) (endpoint channel : Nat) : Option Nat :=
  let bits := if channel = 3 then mode.alphaBits else mode.colourBits
  let value := if channel = 3 then readings.alphas.getD endpoint 0
    else (readings.colours.getD channel []).getD endpoint 0
  let extra := if mode.endpointP || mode.sharedP then 1 else 0
  if bits = 0 then some 255
  else widen (value <<< extra ||| pBitOf mode readings endpoint) (bits + extra)

def endpointColour (mode : Bc7Mode) (readings : Bc7Readings) (endpoint : Nat) :
    Option (Fin 4 → Nat) := do
  let red ← channelOf mode readings endpoint 0
  let green ← channelOf mode readings endpoint 1
  let blue ← channelOf mode readings endpoint 2
  let alpha ← channelOf mode readings endpoint 3
  pure ![red, green, blue, alpha]

def interpolate (a b index bits : Nat) : Option Nat := do
  let w ← (weights bits)[index]?
  let rest ← minus 64 w
  let sum ← fit32 (a * rest + b * w + 32)
  pure (sum >>> 6 % 256)

section

local instance neZero_four : NeZero 4 := ⟨by decide⟩

/-- A rotation exchanges alpha with red, green or blue. -/
def rotated (rotation : Nat) (colour : Fin 4 → Nat) : Option (Fin 4 → Nat) :=
  if rotation = 0 then some colour
  else if h : rotation - 1 < 4 then some (colour ∘ Equiv.swap 3 ⟨rotation - 1, h⟩)
  else none

def colourIndices (mode : Bc7Mode) (readings : Bc7Readings) : List Nat × Nat :=
  if mode.secondIndexBits = 0 then (readings.primary, mode.indexBits)
  else if readings.selection then (readings.secondary, mode.secondIndexBits)
  else (readings.primary, mode.indexBits)

def alphaIndices (mode : Bc7Mode) (readings : Bc7Readings) : List Nat × Nat :=
  if mode.secondIndexBits = 0 then (readings.primary, mode.indexBits)
  else if readings.selection then (readings.primary, mode.indexBits)
  else (readings.secondary, mode.secondIndexBits)

def bc7Texel (mode : Bc7Mode) (readings : Bc7Readings) (colours : List (Fin 4 → Nat))
    (texel : Nat) : Option (Fin 4 → Nat) := do
  let subset ← subsetOf mode.subsets readings.partition texel
  let a ← colours[2 * subset]?
  let b ← colours[2 * subset + 1]?
  let colourIndex ← (colourIndices mode readings).1[texel]?
  let alphaIndex ← (alphaIndices mode readings).1[texel]?
  let red ← interpolate (a 0) (b 0) colourIndex (colourIndices mode readings).2
  let green ← interpolate (a 1) (b 1) colourIndex (colourIndices mode readings).2
  let blue ← interpolate (a 2) (b 2) colourIndex (colourIndices mode readings).2
  let alpha ← interpolate (a 3) (b 3) alphaIndex (alphaIndices mode readings).2
  rotated readings.rotation ![red, green, blue, alpha]

end

def bc7Colours (mode : Bc7Mode) (readings : Bc7Readings) : Option (List (Fin 4 → Nat)) :=
  (List.range mode.endpoints).mapM (endpointColour mode readings)

def bc7Decode (mode : Bc7Mode) (readings : Bc7Readings) : Option (List (Fin 4 → Nat)) := do
  let colours ← bc7Colours mode readings
  (List.range 16).mapM (bc7Texel mode readings colours)

/-- A block's sixteen texels, transparent black for one that names no mode; nothing where the code
would panic. -/
def bc7 (block : Block) : Option (List (Fin 4 → Nat)) :=
  match bc7Number block with
  | none => some (List.replicate 16 fun _ => 0)
  | some number => do
      let mode ← BC7_MODES[number]?
      let (readings, _) ← readBc7 number mode block.bits
      bc7Decode mode readings

/-! ## What a block reads -/

/-- A block's readings are within the widths of its mode. -/
structure Bc7Ranged (mode : Bc7Mode) (readings : Bc7Readings) : Prop where
  partition : readings.partition < 64
  rotation : readings.rotation < 4
  colours : readings.colours.length = 3 ∧ ∀ channel ∈ readings.colours,
    channel.length = mode.endpoints ∧ ∀ value ∈ channel, value < 2 ^ mode.colourBits
  alphas : readings.alphas.length = mode.endpoints ∧
    ∀ value ∈ readings.alphas, value < 2 ^ mode.alphaBits
  pBits : ∀ bit ∈ readings.pBits, bit < 2
  primary : readings.primary.length = 16 ∧ ∀ index ∈ readings.primary, index < 2 ^ mode.indexBits
  secondary : readings.secondary.length = 16 ∧
    ∀ index ∈ readings.secondary, index < 2 ^ (if 0 < mode.secondIndexBits then
      mode.secondIndexBits else mode.indexBits)

/-- A mode whose fields are of the widths the tables and the words have room for. -/
structure Bc7Mode.Wide (mode : Bc7Mode) : Prop where
  subsets : 1 ≤ mode.subsets ∧ mode.subsets < 4
  partitionBits : mode.partitionBits ≤ 6
  rotationBits : mode.rotationBits ≤ 2
  colourBits : 4 ≤ mode.colourBits ∧
    mode.colourBits + (if mode.endpointP || mode.sharedP then 1 else 0) ≤ 8
  alphaBits : mode.alphaBits + (if mode.endpointP || mode.sharedP then 1 else 0) ≤ 8
  indexBits : 2 ≤ mode.indexBits ∧ mode.indexBits ≤ 4
  secondIndexBits : mode.secondIndexBits = 0 ∨ 2 ≤ mode.secondIndexBits ∧ mode.secondIndexBits ≤ 4

def Bc7Mode.width (mode : Bc7Mode) : Nat :=
  mode.partitionBits + (mode.rotationBits + ((if mode.selectionBit then 1 else 0) +
    (3 * (mode.endpoints * mode.colourBits) + (mode.endpoints * mode.alphaBits +
      ((if mode.endpointP then mode.endpoints else if mode.sharedP then mode.subsets else 0) +
        ((16 * mode.indexBits - mode.subsets) +
          ((if 0 < mode.secondIndexBits then 16 * mode.secondIndexBits - 1 else 0) + 0)))))))

theorem bc7Modes_wide : ∀ number < 8, ∃ mode, BC7_MODES[number]? = some mode ∧ mode.Wide ∧
    number + 1 + mode.width = 128 := by
  intro number hnumber
  interval_cases number
  all_goals exact ⟨_, rfl, ⟨by decide, by decide, by decide, by decide, by decide, by decide,
    by decide⟩, by decide⟩

theorem reads_selection (mode : Bc7Mode) :
    Reads 128 (readSelection mode) (if mode.selectionBit then 1 else 0) fun _ => True := by
  unfold readSelection
  cases mode.selectionBit with
  | true => exact (reads_take (by decide)).map fun _ _ => trivial
  | false => exact Reads.pure trivial

theorem reads_pBits (mode : Bc7Mode) :
    Reads 128 (readPBits mode)
      (if mode.endpointP then mode.endpoints else if mode.sharedP then mode.subsets else 0)
      fun bits => ∀ bit ∈ bits, bit < 2 := by
  have hone : ∀ items, Reads 128 ((List.range items).mapM fun _ => take 1) items
      (fun bits => ∀ bit ∈ bits, bit < 2) := by
    intro items
    have hall := (@reads_take 1 (by decide)).times items
    rw [Nat.mul_one] at hall
    exact hall.weaken fun bits hbits => hbits.2
  unfold readPBits
  split
  · exact hone _
  · split
    · exact hone _
    · exact Reads.pure fun bit hbit => absurd hbit List.not_mem_nil

theorem reads_secondary {mode : Bc7Mode} (hmode : mode.Wide) {primary : List Nat}
    (hprimary : primary.length = 16 ∧ ∀ index ∈ primary, index < 2 ^ mode.indexBits) :
    Reads 128 (readSecondary mode primary)
      (if 0 < mode.secondIndexBits then 16 * mode.secondIndexBits - 1 else 0)
      (fun secondary => secondary.length = 16 ∧
        ∀ index ∈ secondary, index < 2 ^ (if 0 < mode.secondIndexBits then
          mode.secondIndexBits else mode.indexBits)) := by
  have hsecond := hmode.secondIndexBits
  unfold readSecondary
  split
  · exact reads_readIndices (by omega) (by omega) (by decide) (by decide) (by decide)
  · exact Reads.pure hprimary

theorem reads_fields {mode : Bc7Mode} (hmode : mode.Wide) (number : Nat) :
    Reads 128 (readFields number mode) mode.width (Bc7Ranged mode) := by
  have hpartitionBits := hmode.partitionBits
  have hrotationBits := hmode.rotationBits
  have hcolourBits := hmode.colourBits
  have halphaBits := hmode.alphaBits
  have hindexBits := hmode.indexBits
  unfold readFields Bc7Mode.width
  apply (reads_take (by omega)).bind
  intro partition hpartition
  have hpartition' : partition < 64 :=
    Nat.lt_of_lt_of_le hpartition (Nat.pow_le_pow_right (by decide) hpartitionBits)
  apply (reads_take (by omega)).bind
  intro rotation hrotation
  have hrotation' : rotation < 4 :=
    Nat.lt_of_lt_of_le hrotation (Nat.pow_le_pow_right (by decide) hrotationBits)
  apply (reads_selection mode).bind
  intro selection _
  apply (((@reads_take mode.colourBits (by omega)).times mode.endpoints).times 3).bind
  intro colours hcolours
  apply ((@reads_take mode.alphaBits (by omega)).times mode.endpoints).bind
  intro alphas halphas
  apply (reads_pBits mode).bind
  intro pBits hpBits
  apply (reads_readIndices (by omega) (by omega) hmode.subsets.1 hmode.subsets.2 hpartition').bind
  intro primary hprimary
  apply (reads_secondary hmode hprimary).bind
  intro secondary hsecondary
  exact Reads.pure ⟨hpartition', hrotation', hcolours, halphas, hpBits, hprimary, hsecondary⟩

theorem determined_selection (mode : Bc7Mode) : Determined (readSelection mode) := by
  unfold readSelection
  cases mode.selectionBit with
  | true =>
    apply (determined_take 1).map _ (fun selected => some selected.toNat)
    intro s bit s' hrun
    have hlt := take_lt hrun
    interval_cases bit <;> rfl
  | false => exact Determined.pure false

theorem determined_pBits (mode : Bc7Mode) : Determined (readPBits mode) := by
  unfold readPBits
  split
  · exact determined_takes _ 1
  · split
    · exact determined_takes _ 1
    · exact Determined.pure []

theorem determined_secondary (mode : Bc7Mode) (primary : List Nat) :
    Determined (readSecondary mode primary) := by
  unfold readSecondary
  split
  · exact determined_readIndices _ _ _
  · exact Determined.pure primary

theorem determined_fields (number : Nat) (mode : Bc7Mode) :
    Determined (readFields number mode) := by
  unfold readFields
  apply (determined_take _).bindKept _ Bc7Readings.partition
  · intro partition
    iterate 7 (apply Yields.bind; intro _)
    exact Yields.pure rfl
  · intro partition
    apply (determined_take _).bindKept _ Bc7Readings.rotation
    · intro rotation
      iterate 6 (apply Yields.bind; intro _)
      exact Yields.pure rfl
    · intro rotation
      apply (determined_selection mode).bindKept _ Bc7Readings.selection
      · intro selection
        iterate 5 (apply Yields.bind; intro _)
        exact Yields.pure rfl
      · intro selection
        apply (Determined.mapM _ fun _ _ => determined_takes _ _).bindKept _ Bc7Readings.colours
        · intro colours
          iterate 4 (apply Yields.bind; intro _)
          exact Yields.pure rfl
        · intro colours
          apply (determined_takes _ _).bindKept _ Bc7Readings.alphas
          · intro alphas
            iterate 3 (apply Yields.bind; intro _)
            exact Yields.pure rfl
          · intro alphas
            apply (determined_pBits mode).bindKept _ Bc7Readings.pBits
            · intro pBits
              iterate 2 (apply Yields.bind; intro _)
              exact Yields.pure rfl
            · intro pBits
              apply (determined_readIndices _ _ _).bindKept _ Bc7Readings.primary
              · intro primary
                iterate 1 (apply Yields.bind; intro _)
                exact Yields.pure rfl
              · intro primary
                apply (determined_secondary mode primary).map _
                  (fun readings => some readings.secondary)
                intro s secondary s' _
                rfl

def bc7Readings (block : Block) : Option (Bc7Readings × Cursor) := do
  let number ← bc7Number block
  let mode ← BC7_MODES[number]?
  readBc7 number mode block.bits

theorem bc7Number_spec {block : Block} {number : Nat} (h : bc7Number block = some number) :
    number < 8 ∧ block.word.testBit number = true ∧
      ∀ bit < number, block.word.testBit bit = false := by
  have htest : ∀ bit, ((block.bytes.headD 0).toNat >>> bit &&& 1 == 1) =
      (block.bytes.headD 0).toNat.testBit bit := by
    intro bit
    rw [Nat.testBit_eq_decide_div_mod_eq, Nat.and_one_is_mod, Nat.shiftRight_eq_div_pow]
    rfl
  obtain ⟨hset, hmem, hclear⟩ := List.find?_range_eq_some.mp h
  have hnumber := List.mem_range.mp hmem
  rw [htest, block.testBit_first hnumber] at hset
  refine ⟨hnumber, hset, fun bit hbit => ?_⟩
  have hbitClear := hclear bit hbit
  rw [htest, block.testBit_first (Nat.lt_trans hbit hnumber)] at hbitClear
  exact (Bool.not_eq_true' _).mp hbitClear

/-- A block that names a mode is read whole, each bit once, and each value within its width. -/
theorem bc7_read {block : Block} {number : Nat} (h : bc7Number block = some number) :
    ∃ mode readings s, BC7_MODES[number]? = some mode ∧ mode.Wide ∧
      readBc7 number mode block.bits = some (readings, s) ∧ Bc7Ranged mode readings ∧
      s.next = 128 ∧ s.spans.flatMap (fun span => List.range' span.1 span.2) = List.range 128 := by
  obtain ⟨hnumber, _⟩ := bc7Number_spec h
  obtain ⟨mode, hmode, hwide, hwidth⟩ := bc7Modes_wide number hnumber
  have hreads : Reads 128 (readBc7 number mode) (number + 1 + mode.width) (Bc7Ranged mode) :=
    (reads_take (by omega)).bind fun _ _ => reads_fields hwide number
  rw [hwidth] at hreads
  obtain ⟨readings, s, hrun, hranged, _, hnext, spans, hspans, hcover⟩ :=
    hreads block.bits (Nat.le_refl 128)
  refine ⟨mode, readings, s, hmode, hwide, hrun, hranged, hnext, ?_⟩
  rw [hspans]
  exact hcover.trans List.range_eq_range'.symm

theorem yields_number (number : Nat) (mode : Bc7Mode) :
    Yields (readFields number mode) (fun readings => readings.number = number) := by
  unfold readFields
  iterate 8 (apply Yields.bind; intro _)
  exact Yields.pure rfl

theorem bc7Readings_inj {block other : Block} {readings : Bc7Readings} {s s' : Cursor}
    (h : bc7Readings block = some (readings, s)) (h' : bc7Readings other = some (readings, s')) :
    block = other := by
  unfold bc7Readings at h h'
  obtain ⟨number, hnumber, h⟩ := Option.bind_eq_some_iff.mp h
  obtain ⟨number', hnumber', h'⟩ := Option.bind_eq_some_iff.mp h'
  obtain ⟨mode, readings', s₁, hmode, _, hrun, _, hnext, _⟩ := bc7_read hnumber
  rw [hmode] at h
  have hread : readBc7 number mode block.bits = some (readings, s) := h
  rw [hrun] at hread
  cases hread
  obtain ⟨mode', hmode', h'⟩ := Option.bind_eq_some_iff.mp h'
  obtain ⟨value, s₂, htake, hfields⟩ := bind_eq_some.mp hrun
  obtain ⟨value', s₃, htake', hfields'⟩ := bind_eq_some.mp h'
  obtain rfl : number = number' :=
    (yields_number _ _ _ _ _ hfields).symm.trans (yields_number _ _ _ _ _ hfields')
  rw [hmode] at hmode'
  cases hmode'
  have htaken : ∀ {b : Block} {v t}, take (number + 1) b.bits = some (v, t) →
      ∃ spans, t = ⟨b.word, number + 1, spans⟩ := by
    intro b v t ht
    unfold take at ht
    rw [if_neg (Nat.succ_ne_zero number)] at ht
    split at ht
    · cases ht
    · cases ht
      exact ⟨_, congrArg (fun next => (⟨b.word, next, _⟩ : Cursor)) (Nat.zero_add _)⟩
  obtain ⟨spans, rfl⟩ := htaken htake
  obtain ⟨spans', rfl⟩ := htaken htake'
  apply Block.word_inj
  apply (determined_fields number mode).word_eq block.word_lt other.word_lt hfields hfields'
    (Nat.le_of_eq hnext.symm)
  intro bit hbit
  obtain ⟨_, hset, hclear⟩ := bc7Number_spec hnumber
  obtain ⟨_, hset', hclear'⟩ := bc7Number_spec hnumber'
  rcases Nat.lt_or_eq_of_le (Nat.le_of_lt_succ hbit) with hlt | rfl
  · rw [hclear bit hlt, hclear' bit hlt]
  · rw [hset, hset']

/-! ## What a block decodes to -/

/-- A texel's value is channel by channel between its subset's two endpoints, their channels
exchanged as the texel's are. -/
def Bc7Between (mode : Bc7Mode) (readings : Bc7Readings) (colours : List (Fin 4 → Nat))
    (texel : Nat) (value : Fin 4 → Nat) : Prop :=
  ∃ subset a b a' b', subsetOf mode.subsets readings.partition texel = some subset ∧
    colours[2 * subset]? = some a ∧ colours[2 * subset + 1]? = some b ∧
    rotated readings.rotation a = some a' ∧ rotated readings.rotation b = some b' ∧
    ∀ channel, Between (a' channel) (b' channel) (value channel)

theorem widen_fits {value width : Nat} (hwidth : width ≤ 8) (hvalue : value < 2 ^ width) :
    ∃ channel < 256, widen value width = some channel := by
  have hpow : 2 ^ width * 2 ^ (8 - width) = 2 ^ 8 := by
    rw [← Nat.pow_add, Nat.add_sub_cancel' hwidth]
  have hshifted : value <<< (8 - width) < 2 ^ 8 := by
    rw [Nat.shiftLeft_eq, ← hpow]
    exact Nat.mul_lt_mul_of_pos_right hvalue (Nat.two_pow_pos _)
  refine ⟨(value <<< (8 - width) ||| (value <<< (8 - width)) >>> width) % 256,
    Nat.mod_lt _ (by decide), ?_⟩
  unfold widen
  rw [minus_eq hwidth]
  show (fit32 (value <<< (8 - width))).bind _ = _
  rw [fit32_eq (Nat.lt_trans hshifted (by decide))]
  rfl

theorem getD_lt {values : List Nat} {bound : Nat} (h : ∀ value ∈ values, value < bound)
    (hbound : 0 < bound) (i : Nat) : values.getD i 0 < bound := by
  rw [List.getD_eq_getElem?_getD]
  cases hget : values[i]? with
  | none => exact hbound
  | some value => exact h value (List.mem_of_getElem? hget)

section Decode

variable {mode : Bc7Mode} {readings : Bc7Readings} (hmode : mode.Wide)
  (hranged : Bc7Ranged mode readings)
include hmode hranged

theorem channelOf_fits (endpoint channel : Nat) :
    ∃ value < 256, channelOf mode readings endpoint channel = some value := by
  have hcolourBits := hmode.colourBits
  have halphaBits := hmode.alphaBits
  unfold channelOf
  set bits := if channel = 3 then mode.alphaBits else mode.colourBits with hbits
  set value := if channel = 3 then readings.alphas.getD endpoint 0
    else (readings.colours.getD channel []).getD endpoint 0 with hvalue
  set extra := if mode.endpointP || mode.sharedP then 1 else 0 with hextra
  have hvalueLt : value < 2 ^ bits := by
    rw [hvalue, hbits]
    split
    · exact getD_lt hranged.alphas.2 (Nat.two_pow_pos _) _
    · apply getD_lt _ (Nat.two_pow_pos _)
      rw [List.getD_eq_getElem?_getD]
      cases hget : readings.colours[channel]? with
      | none => exact fun value hmem => absurd hmem List.not_mem_nil
      | some values => exact (hranged.colours.2 values (List.mem_of_getElem? hget)).2
  have hbit : pBitOf mode readings endpoint < 2 ^ extra := by
    unfold pBitOf
    rw [hextra]
    cases hendpoint : mode.endpointP with
    | true => exact getD_lt hranged.pBits (by decide) _
    | false =>
      cases hshared : mode.sharedP with
      | true => exact getD_lt hranged.pBits (by decide) _
      | false => exact Nat.one_pos
  have hor : value <<< extra ||| pBitOf mode readings endpoint < 2 ^ (bits + extra) := by
    apply Nat.or_lt_two_pow
    · rw [Nat.shiftLeft_eq, Nat.pow_add]
      exact Nat.mul_lt_mul_of_pos_right hvalueLt (Nat.two_pow_pos _)
    · exact Nat.lt_of_lt_of_le hbit (Nat.pow_le_pow_right (by decide) (Nat.le_add_left _ _))
  have hwidth : bits + extra ≤ 8 := by
    rw [hbits]
    split
    · exact halphaBits
    · exact hcolourBits.2
  by_cases hzero : bits = 0
  · exact ⟨255, by decide, if_pos hzero⟩
  · rw [if_neg hzero]
    exact widen_fits hwidth hor

theorem endpointColour_fits (endpoint : Nat) :
    ∃ colour, endpointColour mode readings endpoint = some colour ∧ ∀ channel, colour channel < 256 := by
  obtain ⟨red, hred, hr⟩ := channelOf_fits hmode hranged endpoint 0
  obtain ⟨green, hgreen, hg⟩ := channelOf_fits hmode hranged endpoint 1
  obtain ⟨blue, hblue, hb⟩ := channelOf_fits hmode hranged endpoint 2
  obtain ⟨alpha, halpha, ha⟩ := channelOf_fits hmode hranged endpoint 3
  refine ⟨![red, green, blue, alpha], ?_, fun channel => ?_⟩
  · unfold endpointColour
    rw [hr, hg, hb, ha]
    rfl
  · fin_cases channel
    · exact hred
    · exact hgreen
    · exact hblue
    · exact halpha

omit hmode hranged

theorem interpolate_between {a b index bits : Nat} (ha : a < 256) (hb : b < 256)
    (hindex : index < 2 ^ bits) (hbits : 2 ≤ bits ∧ bits ≤ 4) :
    ∃ value, interpolate a b index bits = some value ∧ Between a b value := by
  obtain ⟨w, hw, hweight⟩ := weights_table bits (by omega) index hindex hbits.1
  have hsum : a * (64 - w) + b * w ≤ 255 * (64 - w) + 255 * w :=
    Nat.add_le_add (Nat.mul_le_mul_right _ (by omega)) (Nat.mul_le_mul_right _ (by omega))
  have hmean := @between_mean a b (((a * (64 - w) + b * w + 32) / 64 : Nat) : Int) w hw (by
    rw [Nat.cast_ofNat.symm, Int.natCast_ediv]
    push_cast [Nat.cast_sub (show w ≤ 64 by omega)]
    ring_nf)
  refine ⟨(a * (64 - w) + b * w + 32) / 64, ?_, ?_⟩
  · unfold interpolate
    rw [hweight]
    show (minus 64 w).bind _ = _
    rw [minus_eq (by omega)]
    show (fit32 _).bind _ = _
    rw [fit32_eq (by omega)]
    show some ((a * (64 - w) + b * w + 32) >>> 6 % 256) = _
    rw [Nat.shiftRight_eq_div_pow, Nat.mod_eq_of_lt (by omega)]
  · unfold Between at hmean ⊢
    exact_mod_cast hmean

theorem rotated_spec {rotation : Nat} (h : rotation < 4) :
    ∃ channels : Fin 4 → Fin 4, ∀ colour, rotated rotation colour = some (colour ∘ channels) := by
  unfold rotated
  by_cases hzero : rotation = 0
  · exact ⟨id, fun colour => if_pos hzero⟩
  · refine ⟨Equiv.swap 3 ⟨rotation - 1, by omega⟩, fun colour => ?_⟩
    rw [if_neg hzero, dif_pos (show rotation - 1 < 4 by omega)]

include hmode hranged

theorem bc7Colours_fits : ∃ colours, bc7Colours mode readings = some colours ∧
    colours.length = mode.endpoints ∧ ∀ colour ∈ colours, ∀ channel, colour channel < 256 := by
  obtain ⟨colours, hcolours, hlength, hall⟩ := mapM_answers (List.range mode.endpoints)
    fun endpoint _ => endpointColour_fits hmode hranged endpoint
  refine ⟨colours, hcolours, hlength.trans List.length_range, fun colour hmem => ?_⟩
  obtain ⟨i, hi⟩ := List.mem_iff_getElem?.mp hmem
  have hlt : i < (List.range mode.endpoints).length := by
    rw [← hlength]
    exact (List.getElem?_eq_some_iff.mp hi).1
  obtain ⟨other, hother, _, hchannels⟩ := hall i hlt
  rw [hi] at hother
  cases hother
  exact hchannels

theorem indices_ranged :
    ((colourIndices mode readings).1.length = 16 ∧
      (∀ index ∈ (colourIndices mode readings).1, index < 2 ^ (colourIndices mode readings).2) ∧
      2 ≤ (colourIndices mode readings).2 ∧ (colourIndices mode readings).2 ≤ 4) ∧
    (alphaIndices mode readings).1.length = 16 ∧
      (∀ index ∈ (alphaIndices mode readings).1, index < 2 ^ (alphaIndices mode readings).2) ∧
      2 ≤ (alphaIndices mode readings).2 ∧ (alphaIndices mode readings).2 ≤ 4 := by
  obtain ⟨hlow, hhigh⟩ := hmode.indexBits
  obtain ⟨hprimary, hprimaryLt⟩ := hranged.primary
  obtain ⟨hsecondary, hsecondaryLt⟩ := hranged.secondary
  unfold colourIndices alphaIndices
  rcases hmode.secondIndexBits with hzero | hsecond
  · rw [if_pos hzero, if_pos hzero]
    exact ⟨⟨hprimary, hprimaryLt, hlow, hhigh⟩, hprimary, hprimaryLt, hlow, hhigh⟩
  · have hpos : 0 < mode.secondIndexBits := by omega
    rw [if_pos hpos] at hsecondaryLt
    simp only [Nat.ne_of_gt hpos, if_false]
    cases readings.selection with
    | true =>
      exact ⟨⟨hsecondary, hsecondaryLt, hsecond⟩, hprimary, hprimaryLt, hlow, hhigh⟩
    | false =>
      exact ⟨⟨hprimary, hprimaryLt, hlow, hhigh⟩, hsecondary, hsecondaryLt, hsecond⟩

theorem bc7Texel_between {colours : List (Fin 4 → Nat)} (hlength : colours.length = mode.endpoints)
    (hcolours : ∀ colour ∈ colours, ∀ channel, colour channel < 256) {texel : Nat}
    (htexel : texel < 16) :
    ∃ value, bc7Texel mode readings colours texel = some value ∧
      Bc7Between mode readings colours texel value := by
  obtain ⟨subset, hsubset, hof⟩ :=
    subsetOf_table _ hmode.subsets.2 _ hranged.partition _ htexel hmode.subsets.1
  obtain ⟨⟨hcolour, hcolourLt, hcolourBits⟩, halpha, halphaLt, halphaBits⟩ :=
    indices_ranged hmode hranged
  obtain ⟨channels, hrotated⟩ := rotated_spec hranged.rotation
  have hends : 2 * subset + 1 < colours.length := by
    rw [hlength]
    unfold Bc7Mode.endpoints
    omega
  have hfirst : colours[2 * subset]? = some colours[2 * subset] := List.getElem?_eq_getElem _
  have hsecond : colours[2 * subset + 1]? = some colours[2 * subset + 1] :=
    List.getElem?_eq_getElem _
  have hcolourAt : (colourIndices mode readings).1[texel]? =
      some (colourIndices mode readings).1[texel] := List.getElem?_eq_getElem _
  have halphaAt : (alphaIndices mode readings).1[texel]? =
      some (alphaIndices mode readings).1[texel] := List.getElem?_eq_getElem _
  have ha := hcolours _ (List.getElem_mem (show 2 * subset < colours.length by omega))
  have hb := hcolours _ (List.getElem_mem hends)
  have hcolourIndex := hcolourLt _ (List.getElem_mem (show texel < _ by omega))
  have halphaIndex := halphaLt _ (List.getElem_mem (show texel < _ by omega))
  obtain ⟨red, hred, hredBetween⟩ := interpolate_between (ha 0) (hb 0) hcolourIndex hcolourBits
  obtain ⟨green, hgreen, hgreenBetween⟩ :=
    interpolate_between (ha 1) (hb 1) hcolourIndex hcolourBits
  obtain ⟨blue, hblue, hblueBetween⟩ := interpolate_between (ha 2) (hb 2) hcolourIndex hcolourBits
  obtain ⟨alpha, halphaValue, halphaBetween⟩ :=
    interpolate_between (ha 3) (hb 3) halphaIndex halphaBits
  refine ⟨![red, green, blue, alpha] ∘ channels, ?_, subset, _, _, _, _, hof, hfirst, hsecond,
    hrotated _, hrotated _, fun channel => ?_⟩
  · unfold bc7Texel
    rw [hof]
    simp only [Option.bind_eq_bind, Option.bind_some, hfirst, hsecond, hcolourAt, halphaAt, hred,
      hgreen, hblue, halphaValue]
    exact hrotated _
  · simp only [Function.comp_apply]
    generalize channels channel = place
    fin_cases place
    · exact hredBetween
    · exact hgreenBetween
    · exact hblueBetween
    · exact halphaBetween

end Decode

theorem bc7_decodes {block : Block} {number : Nat} (h : bc7Number block = some number) :
    ∃ mode readings s colours texels, BC7_MODES[number]? = some mode ∧
      bc7Readings block = some (readings, s) ∧ s.next = 128 ∧
      s.spans.flatMap (fun span => List.range' span.1 span.2) = List.range 128 ∧
      bc7Colours mode readings = some colours ∧ bc7 block = some texels ∧ texels.length = 16 ∧
      ∀ texel < 16, ∃ value, texels[texel]? = some value ∧
        Bc7Between mode readings colours texel value := by
  obtain ⟨mode, readings, s, hmode, hwide, hread, hranged, hnext, hcover⟩ := bc7_read h
  obtain ⟨colours, hcolours, hlength, hlt⟩ := bc7Colours_fits hwide hranged
  obtain ⟨texels, htexels, hcount, hall⟩ := mapM_answers (List.range 16) fun texel htexel =>
    bc7Texel_between hwide hranged hlength hlt (List.mem_range.mp htexel)
  refine ⟨mode, readings, s, colours, texels, hmode, ?_, hnext, hcover, hcolours, ?_, hcount,
    fun texel htexel => ?_⟩
  · unfold bc7Readings
    rw [h]
    simp only [Option.bind_eq_bind, Option.bind_some, hmode]
    exact hread
  · unfold bc7 bc7Decode
    rw [h]
    simp only [Option.bind_eq_bind, Option.bind_some, hmode, hread, hcolours]
    exact htexels
  · obtain ⟨value, hvalue, _, hbetween⟩ := hall texel (by rw [List.length_range]; exact htexel)
    rw [List.getElem_range] at hbetween
    exact ⟨value, hvalue, hbetween⟩

end Orbistoun.Gpu.Bc
