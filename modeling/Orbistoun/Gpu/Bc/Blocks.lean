import Orbistoun.Lib.BitReader
import Orbistoun.Lib.Codes

/-! # Blocks of BC6H and BC7

A sixteen-byte block is read bit by bit, and its texels are divided among subsets by a table of
partitions. Where the code would panic, by an index past a table's end or an overflow, so does the
model, as `none`.
-/

namespace Orbistoun.Gpu.Bc

open Lib.BitReader Lib.Codes

structure Block where
  bytes : List UInt8
  sixteen : bytes.length = 16

def Block.word (block : Block) : Nat := ofLittleEndian block.bytes

def Block.bits (block : Block) : Cursor := ⟨block.word, 0, []⟩

theorem Block.word_lt (block : Block) : block.word < 2 ^ 128 := by
  have hlt := ofLittleEndian_lt block.bytes
  rw [block.sixteen] at hlt
  exact hlt

theorem Block.word_inj {block other : Block} (h : block.word = other.word) : block = other := by
  have hbytes := ofLittleEndian_inj (block.sixteen.trans other.sixteen.symm) h
  cases block
  cases other
  congr

theorem Block.testBit_first (block : Block) {i : Nat} (h : i < 8) :
    (block.bytes.headD 0).toNat.testBit i = block.word.testBit i := by
  have hhead : block.word % 2 ^ 8 = (block.bytes.headD 0).toNat := by
    unfold Block.word
    cases hbytes : block.bytes with
    | nil => rfl
    | cons b bytes =>
      have hb := b.toNat_lt
      show (b.toNat + 256 * ofLittleEndian bytes) % 256 = b.toNat
      omega
  rw [← hhead, Nat.testBit_mod_two_pow, decide_eq_true h, Bool.true_and]

/-- The next bits of a block, the first read the least significant. -/
def take (count : Nat) : Reader Nat := fun s =>
  if count = 0 then some (0, s)
  -- `32 - count` or `bits >> at` would overflow
  else if 32 < count ∨ 128 ≤ s.next then none
  else some ((s.word >>> s.next) % 2 ^ 32 &&& (0xffffffff >>> (32 - count)),
    { s with next := s.next + count, spans := s.spans ++ [(s.next, count)] })

/-- A thirty-two bit difference and a thirty-two bit result, where they do not overflow. -/
def minus (a b : Nat) : Option Nat := if b ≤ a then some (a - b) else none

def fit32 (value : Nat) : Option Nat := if value < 2 ^ 32 then some value else none

/-! ## Partitions -/

/-- Two-subset partitions, a bit a texel giving its subset, texel 0 the least significant. -/
def PARTITIONS_2 : List Nat :=
  [0xCCCC, 0x8888, 0xEEEE, 0xECC8, 0xC880, 0xFEEC, 0xFEC8, 0xEC80, 0xC800, 0xFFEC, 0xFE80, 0xE800,
   0xFFE8, 0xFF00, 0xFFF0, 0xF000, 0xF710, 0x008E, 0x7100, 0x08CE, 0x008C, 0x7310, 0x3100, 0x8CCE,
   0x088C, 0x3110, 0x6666, 0x366C, 0x17E8, 0x0FF0, 0x718E, 0x399C, 0xAAAA, 0xF0F0, 0x5A5A, 0x33CC,
   0x3C3C, 0x55AA, 0x9696, 0xA55A, 0x73CE, 0x13C8, 0x324C, 0x3BDC, 0x6996, 0xC33C, 0x9966, 0x0660,
   0x0272, 0x04E4, 0x4E40, 0x2720, 0xC936, 0x936C, 0x39C6, 0x639C, 0x9336, 0x9CC6, 0x817E, 0xE718,
   0xCCF0, 0x0FCC, 0x7744, 0xEE22]

/-- Three-subset partitions, each texel's subset. -/
def PARTITIONS_3 : List (List Nat) :=
  [[0, 0, 1, 1, 0, 0, 1, 1, 0, 2, 2, 1, 2, 2, 2, 2],
   [0, 0, 0, 1, 0, 0, 1, 1, 2, 2, 1, 1, 2, 2, 2, 1],
   [0, 0, 0, 0, 2, 0, 0, 1, 2, 2, 1, 1, 2, 2, 1, 1],
   [0, 2, 2, 2, 0, 0, 2, 2, 0, 0, 1, 1, 0, 1, 1, 1],
   [0, 0, 0, 0, 0, 0, 0, 0, 1, 1, 2, 2, 1, 1, 2, 2],
   [0, 0, 1, 1, 0, 0, 1, 1, 0, 0, 2, 2, 0, 0, 2, 2],
   [0, 0, 2, 2, 0, 0, 2, 2, 1, 1, 1, 1, 1, 1, 1, 1],
   [0, 0, 1, 1, 0, 0, 1, 1, 2, 2, 1, 1, 2, 2, 1, 1],
   [0, 0, 0, 0, 0, 0, 0, 0, 1, 1, 1, 1, 2, 2, 2, 2],
   [0, 0, 0, 0, 1, 1, 1, 1, 1, 1, 1, 1, 2, 2, 2, 2],
   [0, 0, 0, 0, 1, 1, 1, 1, 2, 2, 2, 2, 2, 2, 2, 2],
   [0, 0, 1, 2, 0, 0, 1, 2, 0, 0, 1, 2, 0, 0, 1, 2],
   [0, 1, 1, 2, 0, 1, 1, 2, 0, 1, 1, 2, 0, 1, 1, 2],
   [0, 1, 2, 2, 0, 1, 2, 2, 0, 1, 2, 2, 0, 1, 2, 2],
   [0, 0, 1, 1, 0, 1, 1, 2, 1, 1, 2, 2, 1, 2, 2, 2],
   [0, 0, 1, 1, 2, 0, 0, 1, 2, 2, 0, 0, 2, 2, 2, 0],
   [0, 0, 0, 1, 0, 0, 1, 1, 0, 1, 1, 2, 1, 1, 2, 2],
   [0, 1, 1, 1, 0, 0, 1, 1, 2, 0, 0, 1, 2, 2, 0, 0],
   [0, 0, 0, 0, 1, 1, 2, 2, 1, 1, 2, 2, 1, 1, 2, 2],
   [0, 0, 2, 2, 0, 0, 2, 2, 0, 0, 2, 2, 1, 1, 1, 1],
   [0, 1, 1, 1, 0, 1, 1, 1, 0, 2, 2, 2, 0, 2, 2, 2],
   [0, 0, 0, 1, 0, 0, 0, 1, 2, 2, 2, 1, 2, 2, 2, 1],
   [0, 0, 0, 0, 0, 0, 1, 1, 0, 1, 2, 2, 0, 1, 2, 2],
   [0, 0, 0, 0, 1, 1, 0, 0, 2, 2, 1, 0, 2, 2, 1, 0],
   [0, 1, 2, 2, 0, 1, 2, 2, 0, 0, 1, 1, 0, 0, 0, 0],
   [0, 0, 1, 2, 0, 0, 1, 2, 1, 1, 2, 2, 2, 2, 2, 2],
   [0, 1, 1, 0, 1, 2, 2, 1, 1, 2, 2, 1, 0, 1, 1, 0],
   [0, 0, 0, 0, 0, 1, 1, 0, 1, 2, 2, 1, 1, 2, 2, 1],
   [0, 0, 2, 2, 1, 1, 0, 2, 1, 1, 0, 2, 0, 0, 2, 2],
   [0, 1, 1, 0, 0, 1, 1, 0, 2, 0, 0, 2, 2, 2, 2, 2],
   [0, 0, 1, 1, 0, 1, 2, 2, 0, 1, 2, 2, 0, 0, 1, 1],
   [0, 0, 0, 0, 2, 0, 0, 0, 2, 2, 1, 1, 2, 2, 2, 1],
   [0, 0, 0, 0, 0, 0, 0, 2, 1, 1, 2, 2, 1, 2, 2, 2],
   [0, 2, 2, 2, 0, 0, 2, 2, 0, 0, 1, 2, 0, 0, 1, 1],
   [0, 0, 1, 1, 0, 0, 1, 2, 0, 0, 2, 2, 0, 2, 2, 2],
   [0, 1, 2, 0, 0, 1, 2, 0, 0, 1, 2, 0, 0, 1, 2, 0],
   [0, 0, 0, 0, 1, 1, 1, 1, 2, 2, 2, 2, 0, 0, 0, 0],
   [0, 1, 2, 0, 1, 2, 0, 1, 2, 0, 1, 2, 0, 1, 2, 0],
   [0, 1, 2, 0, 2, 0, 1, 2, 1, 2, 0, 1, 0, 1, 2, 0],
   [0, 0, 1, 1, 2, 2, 0, 0, 1, 1, 2, 2, 0, 0, 1, 1],
   [0, 0, 1, 1, 1, 1, 2, 2, 2, 2, 0, 0, 0, 0, 1, 1],
   [0, 1, 0, 1, 0, 1, 0, 1, 2, 2, 2, 2, 2, 2, 2, 2],
   [0, 0, 0, 0, 0, 0, 0, 0, 2, 1, 2, 1, 2, 1, 2, 1],
   [0, 0, 2, 2, 1, 1, 2, 2, 0, 0, 2, 2, 1, 1, 2, 2],
   [0, 0, 2, 2, 0, 0, 1, 1, 0, 0, 2, 2, 0, 0, 1, 1],
   [0, 2, 2, 0, 1, 2, 2, 1, 0, 2, 2, 0, 1, 2, 2, 1],
   [0, 1, 0, 1, 2, 2, 2, 2, 2, 2, 2, 2, 0, 1, 0, 1],
   [0, 0, 0, 0, 2, 1, 2, 1, 2, 1, 2, 1, 2, 1, 2, 1],
   [0, 1, 0, 1, 0, 1, 0, 1, 0, 1, 0, 1, 2, 2, 2, 2],
   [0, 2, 2, 2, 0, 1, 1, 1, 0, 2, 2, 2, 0, 1, 1, 1],
   [0, 0, 0, 2, 1, 1, 1, 2, 0, 0, 0, 2, 1, 1, 1, 2],
   [0, 0, 0, 0, 2, 1, 1, 2, 2, 1, 1, 2, 2, 1, 1, 2],
   [0, 2, 2, 2, 0, 1, 1, 1, 0, 1, 1, 1, 0, 2, 2, 2],
   [0, 0, 0, 2, 1, 1, 1, 2, 1, 1, 1, 2, 0, 0, 0, 2],
   [0, 1, 1, 0, 0, 1, 1, 0, 0, 1, 1, 0, 2, 2, 2, 2],
   [0, 0, 0, 0, 0, 0, 0, 0, 2, 1, 1, 2, 2, 1, 1, 2],
   [0, 1, 1, 0, 0, 1, 1, 0, 2, 2, 2, 2, 2, 2, 2, 2],
   [0, 0, 2, 2, 0, 0, 1, 1, 0, 0, 1, 1, 0, 0, 2, 2],
   [0, 0, 2, 2, 1, 1, 2, 2, 1, 1, 2, 2, 0, 0, 2, 2],
   [0, 0, 0, 0, 0, 0, 0, 0, 0, 0, 0, 0, 2, 1, 1, 2],
   [0, 0, 0, 2, 0, 0, 0, 1, 0, 0, 0, 2, 0, 0, 0, 1],
   [0, 2, 2, 2, 1, 2, 2, 2, 0, 2, 2, 2, 1, 2, 2, 2],
   [0, 1, 0, 1, 2, 2, 2, 2, 2, 2, 2, 2, 2, 2, 2, 2],
   [0, 1, 1, 1, 2, 0, 1, 1, 2, 2, 0, 1, 2, 2, 2, 0]]

/-- The second subset's anchor texel in each two-subset partition. -/
def ANCHORS_2_OF_2 : List Nat :=
  [15, 15, 15, 15, 15, 15, 15, 15, 15, 15, 15, 15, 15, 15, 15, 15, 15, 2, 8, 2, 2, 8, 8, 15, 2, 8,
   2, 2, 8, 8, 2, 2, 15, 15, 6, 8, 2, 8, 15, 15, 2, 8, 2, 2, 2, 15, 15, 6, 6, 2, 6, 8, 15, 15, 2, 2,
   15, 15, 15, 15, 15, 2, 2, 15]

/-- The second subset's anchor texel in each three-subset partition. -/
def ANCHORS_2_OF_3 : List Nat :=
  [3, 3, 15, 15, 8, 3, 15, 15, 8, 8, 6, 6, 6, 5, 3, 3, 3, 3, 8, 15, 3, 3, 6, 10, 5, 8, 8, 6, 8, 5,
   15, 15, 8, 15, 3, 5, 6, 10, 8, 15, 15, 3, 15, 5, 15, 15, 15, 15, 3, 15, 5, 5, 5, 8, 5, 10, 5, 10,
   8, 13, 15, 12, 3, 3]

/-- The third subset's anchor texel in each three-subset partition. -/
def ANCHORS_3_OF_3 : List Nat :=
  [15, 8, 8, 3, 15, 15, 3, 8, 15, 15, 15, 15, 15, 15, 15, 8, 15, 8, 15, 3, 15, 8, 15, 8, 3, 15, 6,
   10, 15, 15, 10, 8, 15, 3, 15, 10, 10, 8, 9, 10, 6, 15, 8, 15, 3, 6, 6, 8, 15, 3, 15, 15, 15, 15,
   15, 15, 15, 15, 15, 15, 3, 15, 15, 8]

/-- The interpolation weights out of 64 for two-, three- and four-bit indices. -/
def WEIGHTS_2 : List Nat := [0, 21, 43, 64]
def WEIGHTS_3 : List Nat := [0, 9, 18, 27, 37, 46, 55, 64]
def WEIGHTS_4 : List Nat := [0, 4, 9, 13, 17, 21, 26, 30, 34, 38, 43, 47, 51, 55, 60, 64]

def weights (bits : Nat) : List Nat :=
  if bits = 2 then WEIGHTS_2 else if bits = 3 then WEIGHTS_3 else WEIGHTS_4

def subsetOf (subsets partition texel : Nat) : Option Nat :=
  if subsets = 2 then PARTITIONS_2[partition]?.map fun mask => mask >>> texel &&& 1
  else if subsets = 3 then PARTITIONS_3[partition]?.bind fun row => row[texel]?
  else some 0

/-- Whether a texel is an anchor under a partition, its index a bit short, the top one implied
zero. -/
def isAnchor (subsets partition texel : Nat) : Option Bool :=
  if texel = 0 then some true
  else if subsets = 2 then ANCHORS_2_OF_2[partition]?.map (· == texel)
  else if subsets = 3 then
    ANCHORS_2_OF_3[partition]?.bind fun second =>
      if second = texel then some true else ANCHORS_3_OF_3[partition]?.map (· == texel)
  else some false

def readIndices (bits subsets partition : Nat) : Reader (List Nat) :=
  (List.range 16).mapM fun texel => do
    let short ← isAnchor subsets partition texel
    let count ← minus bits short.toNat
    take count

/-! ## What the tables hold -/

theorem minus_eq {a b : Nat} (h : b ≤ a) : minus a b = some (a - b) := if_pos h

theorem fit32_eq {value : Nat} (h : value < 2 ^ 32) : fit32 value = some value := if_pos h

theorem low_mask : ∀ count < 33, 0xffffffff >>> (32 - count) = 2 ^ count - 1 := by decide

theorem take_eq {count : Nat} (h : count ≤ 32) : take count = readBits 128 count := by
  funext s
  unfold take readBits
  by_cases hzero : count = 0
  · rw [if_pos hzero, if_pos hzero]
  · rw [if_neg hzero, if_neg hzero]
    by_cases hend : 128 ≤ s.next
    · rw [if_pos (Or.inr hend), if_pos hend]
    · rw [if_neg (by omega), if_neg hend, low_mask count (by omega),
        Nat.and_two_pow_sub_one_eq_mod, Nat.mod_mod_of_dvd _ (Nat.pow_dvd_pow 2 h),
        Nat.shiftRight_eq_div_pow]

theorem reads_take {count : Nat} (h : count ≤ 32) : Reads 128 (take count) count (· < 2 ^ count) := by
  rw [take_eq h]
  exact Reads.readBits count

theorem determined_take (count : Nat) : Determined (take count) := by
  by_cases h : count ≤ 32
  · rw [take_eq h]
    exact Determined.readBits 128 count
  · have hnone : ∀ s, take count s = none := by
      intro s
      unfold take
      rw [if_neg (by omega), if_pos (Or.inl (by omega))]
    exact {
      keeps := fun hrun => nomatch (hnone _).symm.trans hrun
      same := fun hs => nomatch (hnone _).symm.trans hs }

theorem subsetOf_table :
    ∀ subsets < 4, ∀ partition < 64, ∀ texel < 16, 1 ≤ subsets →
      ∃ subset < subsets, subsetOf subsets partition texel = some subset := by
  decide +kernel

theorem isAnchor_table :
    ∀ subsets < 4, ∀ partition < 64, 1 ≤ subsets →
      (∀ texel < 16, (isAnchor subsets partition texel).isSome) ∧
        ((List.range 16).map fun texel =>
          ((isAnchor subsets partition texel).getD false).toNat).sum = subsets := by
  decide +kernel

theorem reads_readIndices {bits subsets partition : Nat} (hbits : 1 ≤ bits) (hbits' : bits ≤ 32)
    (hsubsets : 1 ≤ subsets) (hsubsets' : subsets < 4) (hpartition : partition < 64) :
    Reads 128 (readIndices bits subsets partition) (16 * bits - subsets)
      (fun indices => indices.length = 16 ∧ ∀ index ∈ indices, index < 2 ^ bits) := by
  obtain ⟨hsome, hsum⟩ := isAnchor_table subsets hsubsets' partition hpartition hsubsets
  let short := fun texel => ((isAnchor subsets partition texel).getD false).toNat
  have hshort : ∀ texel, short texel ≤ 1 := fun texel => Bool.toNat_le _
  have hone : ∀ texel ∈ List.range 16, Reads 128 (do
      let short ← isAnchor subsets partition texel
      let count ← minus bits short.toNat
      take count) (bits - short texel) (fun index => index < 2 ^ bits) := by
    intro texel htexel
    obtain ⟨anchor, hanchor⟩ := Option.isSome_iff_exists.mp (hsome texel (List.mem_range.mp htexel))
    have hvalue : short texel = anchor.toNat := by
      show ((isAnchor subsets partition texel).getD false).toNat = anchor.toNat
      rw [hanchor]
      rfl
    have hle := hshort texel
    rw [← Nat.zero_add (bits - short texel)]
    apply (Reads.lift hanchor rfl : Reads 128 _ 0 (· = anchor)).bind
    rintro _ rfl
    rw [← Nat.zero_add (bits - short texel)]
    apply (Reads.lift (minus_eq (by omega)) rfl : Reads 128 _ 0 (· = bits - _)).bind
    rintro _ rfl
    rw [hvalue]
    apply (reads_take (by omega)).weaken
    intro index hindex
    exact Nat.lt_of_lt_of_le hindex (Nat.pow_le_pow_right (by decide) (Nat.sub_le _ _))
  have hall := Reads.mapM (List.range 16) hone
  have hcount : ((List.range 16).map fun texel => bits - short texel).sum = 16 * bits - subsets := by
    have hsplit : ∀ texels : List Nat, (texels.map fun texel => bits - short texel).sum +
        (texels.map short).sum = texels.length * bits := by
      intro texels
      induction texels with
      | nil => simp
      | cons texel texels ih =>
        have hle := hshort texel
        simp only [List.map_cons, List.sum_cons, List.length_cons, Nat.succ_mul]
        omega
    have htotal := hsplit (List.range 16)
    have hshorts : ((List.range 16).map short).sum = subsets := hsum
    rw [hshorts, List.length_range] at htotal
    omega
  rw [hcount] at hall
  apply hall.weaken
  intro indices hindices
  exact forall_of_forall₂ hindices fun _ _ hlt => hlt

theorem determined_readIndices (bits subsets partition : Nat) :
    Determined (readIndices bits subsets partition) := by
  apply Determined.mapM
  intro texel _
  apply Determined.liftBind
  intro short _
  apply Determined.liftBind
  intro count _
  exact determined_take count

theorem determined_takes (items count : Nat) :
    Determined ((List.range items).mapM fun _ => take count) :=
  Determined.mapM _ fun _ _ => determined_take count

theorem take_lt {count value : Nat} {s s' : Cursor} (h : take count s = some (value, s')) :
    value < 2 ^ count := by
  unfold take at h
  split at h
  · cases h
    exact Nat.two_pow_pos _
  · split at h
    · cases h
    · rename_i hfits
      cases h
      rw [low_mask count (by omega), Nat.and_two_pow_sub_one_eq_mod]
      exact Nat.mod_lt _ (Nat.two_pow_pos count)

theorem mapM_answers {α β : Type} {f : α → Option β} {P : α → β → Prop} (items : List α)
    (h : ∀ a ∈ items, ∃ b, f a = some b ∧ P a b) :
    ∃ answers, items.mapM f = some answers ∧ answers.length = items.length ∧
      ∀ i (hi : i < items.length), ∃ b, answers[i]? = some b ∧ f items[i] = some b ∧ P items[i] b := by
  induction items with
  | nil => exact ⟨[], rfl, rfl, fun i hi => absurd hi (Nat.not_lt_zero i)⟩
  | cons a items ih =>
    obtain ⟨b, hb, hP⟩ := h a List.mem_cons_self
    obtain ⟨answers, hanswers, hlength, hall⟩ := ih fun c hc => h c (List.mem_cons_of_mem a hc)
    refine ⟨b :: answers, ?_, congrArg (· + 1) hlength, fun i hi => ?_⟩
    · rw [List.mapM_cons, hb, hanswers]
      rfl
    · cases i with
      | zero => exact ⟨b, rfl, hb, hP⟩
      | succ i => exact hall i (Nat.lt_of_succ_lt_succ hi)

theorem weights_table :
    ∀ bits < 5, ∀ index < 2 ^ bits, 2 ≤ bits → ∃ w < 65, (weights bits)[index]? = some w := by
  decide +kernel

/-- A value no less than the lesser of two and no more than the greater. -/
def Between {α : Type} [LinearOrder α] (a b value : α) : Prop := min a b ≤ value ∧ value ≤ max a b

/-- A weighted mean, rounded, is between the two. -/
theorem between_mean {a b value : Int} {w : Nat} (hw : w < 65)
    (h : value = (a * (64 - w) + b * w + 32) / 64) : Between a b value := by
  have hw' : (w : Int) ≤ 64 := by omega
  have hrest : (0 : Int) ≤ 64 - w := by omega
  have hlow : min a b * (64 - w) + min a b * w ≤ a * (64 - w) + b * w :=
    add_le_add (mul_le_mul_of_nonneg_right (min_le_left a b) hrest)
      (mul_le_mul_of_nonneg_right (min_le_right a b) (by omega))
  have hhigh : a * (64 - w) + b * w ≤ max a b * (64 - w) + max a b * w :=
    add_le_add (mul_le_mul_of_nonneg_right (le_max_left a b) hrest)
      (mul_le_mul_of_nonneg_right (le_max_right a b) (by omega))
  have hsum : ∀ x : Int, x * (64 - w) + x * w = x * 64 := fun x => by ring
  rw [hsum] at hlow hhigh
  subst h
  apply And.intro
  · omega
  · omega

end Orbistoun.Gpu.Bc
