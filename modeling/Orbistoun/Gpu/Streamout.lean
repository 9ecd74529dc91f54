import Orbistoun.Gpu.RegisterSweep
import Orbistoun.Lib.Overflow
import Orbistoun.Lib.Trap
import Orbistoun.Translate.ComputeInputs

/-! # Streamout on the vertex stage

A streamout draw is run as compute waves of whole primitives over its vertices, as many as every
enabled buffer has room for, and each buffer's offset moves on by what is written. The offsets
and sizes are the guest's, and the words they are multiplied in hold thirty-two bits: a build
with overflow checks stops where a product passes them, and one without goes on with what is
left.
-/

namespace Orbistoun.Gpu.Streamout

open Orbistoun.Gpu.Registers Orbistoun.Lib Orbistoun.Lib.Trap
open Orbistoun.Translate (ComputeInputs PartialGroups Width)

local instance neZero_three : NeZero 3 := ⟨by decide⟩
local instance neZero_four : NeZero 4 := ⟨by decide⟩

def VGT_STRMOUT_BUFFER_CONFIG : Nat := 0xA2E6
def BUFFER_SIZE_0 : Nat := 0xA2B4
def VTX_STRIDE_0 : Nat := 0xA2B5
def PA_CL_CLIP_CNTL : Nat := 0xA204
def RASTERIZATION_KILL : Nat := 1 <<< 22
def VGT_SHADER_STAGES_EN : Nat := 0xA2D5
def PRIMGEN_EN : Nat := 1 <<< 13
def VS_W32_EN : Nat := 1 <<< 23
def OTHER_STAGES : Nat := 0x3F
def VGT_PRIMITIVE_TYPE : Nat := 0xC242
def VGT_INDX_OFFSET : Nat := 0xA102
def PGM_LO_VS : Nat := 0x2C48
def PGM_HI_VS : Nat := 0x2C49
def PGM_RSRC1_VS : Nat := 0x2C4A
def PGM_RSRC2_VS : Nat := 0x2C4B
def USER_DATA_VS_0 : Nat := 0x2C4C
def USER_DATA_VS_WORDS : Nat := 32
def VGPR_COMP_CNT : Nat := 0x3 <<< 24
def DX10_CLAMP : Nat := 1 <<< 21
def USER_SGPR_SHIFT : Nat := 1
def USER_SGPR_MASK : Nat := 0x1F
def SO_BASE0_EN : Nat := 8
def SO_EN : Nat := 1 <<< 12
def RSRC2_MODELLED : Nat := (USER_SGPR_MASK <<< USER_SGPR_SHIFT) ||| (0xF <<< SO_BASE0_EN) ||| SO_EN

def outside (word mask : Nat) : Nat := word &&& (2 ^ 32 - 1 - mask)

/-- Each buffer's offset, in bytes; none for a buffer no update has set. -/
abbrev Offsets := Fin 4 → Option Nat

/-- Everything a dispatch runs with. -/
structure DispatchState where
  program : Nat
  userData : List (Option Nat)
  inputs : ComputeInputs
  width : Width
  dx10Clamp : Option Bool
  localWords : Option Nat
  groups : Fin 3 → Nat
  vertexStreamout : Bool

/-- One streamout draw ready to run. -/
structure Plan where
  dispatches : List DispatchState
  vertices : Nat
  primitives : Nat × Nat
  rasterized : Bool
  after : Offsets

def verticesPerPrimitive (kind : Nat) : Option Nat :=
  match kind with
  | 1 => some 1
  | 2 => some 2
  | 4 => some 3
  | _ => none

def latestAt (writes : List RegisterWrite) (packetOffset register : Nat) : Option Nat :=
  (writes.reverse.find? (fun w => inForceAt w packetOffset && w.register == register)).map (·.value)

/-- What a streamout draw's registers say about how it runs. -/
structure Shape where
  rasterized : Bool
  width : Width
  lanes : Nat
  perPrimitive : Nat
  buffers : Nat

def shape (latest : Nat → Option Nat) : Except String Shape :=
  let stages := (latest VGT_SHADER_STAGES_EN).getD 0
  if stages &&& PRIMGEN_EN ≠ 0 then .error "streamout from a primitive shader is not modelled"
  else if stages &&& OTHER_STAGES ≠ 0 then
    .error "streamout after a tessellation or geometry stage is not modelled"
  else
    let (width, lanes) := if stages &&& VS_W32_EN = 0 then (Width.wave64, 64) else (Width.wave32, 32)
    if (latest VGT_INDX_OFFSET).getD 0 ≠ 0 then
      .error "a streamout draw with a base vertex index is not modelled"
    else
      match verticesPerPrimitive ((latest VGT_PRIMITIVE_TYPE).getD 0) with
      | none => .error "streamout of a strip, fan or other primitive type is not modelled"
      | some perPrimitive =>
          let buffers := (latest VGT_STRMOUT_BUFFER_CONFIG).getD 0
          if outside buffers 0xF ≠ 0 then
            .error "streamout to a stream other than the first is not modelled"
          else
            .ok
              { rasterized := (latest PA_CL_CLIP_CNTL).getD 0 &&& RASTERIZATION_KILL == 0
                width, lanes, perPrimitive, buffers }

/-- The legacy vertex program's address and its two resource words. -/
def vertexProgram (latest : Nat → Option Nat) : Except String (Nat × Nat × Nat) :=
  match latest PGM_LO_VS, latest PGM_HI_VS with
  | some low, some high =>
      let program := (low <<< 8) ||| ((high &&& 0xFF) <<< 40)
      match latest PGM_RSRC1_VS with
      | none => .error "SPI_SHADER_PGM_RSRC1_VS was never written"
      | some rsrc1 =>
          match latest PGM_RSRC2_VS with
          | none => .error "SPI_SHADER_PGM_RSRC2_VS was never written"
          | some rsrc2 =>
              if rsrc1 &&& VGPR_COMP_CNT ≠ 0 then
                .error "a streamout vertex program reading inputs past the vertex id is not modelled"
              else if outside rsrc2 RSRC2_MODELLED ≠ 0 then
                .error "the vertex program asks for scratch, a trap handler or exceptions"
              else if rsrc2 &&& SO_EN = 0 then
                .error "streamout is on but the vertex program takes no streamout words (SO_EN)"
              else .ok (program, rsrc1, rsrc2)
  | _, _ => .error "SPI_SHADER_PGM_LO/HI_VS were never written, so there is no vertex program"

/-- A word that a sum or a product comes to. -/
def word (o : Overflow) (n : Nat) : Run String Nat :=
  if o = .traps ∧ 2 ^ 32 ≤ n then fault else .ok (n % 2 ^ 32)

/-- How many vertices of whole primitives a buffer has room for. -/
def room (o : Overflow) (size offset stride perPrimitive : Nat) : Run String Nat := do
  let unit ← word o (stride * perPrimitive)
  if unit = 0 then fault else word o ((size - offset / 4) / unit * perPrimitive)

def enabled (buffers : Nat) (n : Fin 4) : Bool := (buffers >>> (n : Nat)) &&& 1 != 0

/-- One buffer: the vertices that fit it too, and its stride. -/
def bufferStep (o : Overflow) (latest : Nat → Option Nat) (offsets : Offsets)
    (perPrimitive buffers : Nat) (acc : Nat × (Fin 4 → Nat)) (n : Fin 4) :
    Run String (Nat × (Fin 4 → Nat)) :=
  if !enabled buffers n then pure acc
  else
    match latest (BUFFER_SIZE_0 + 4 * n), latest (VTX_STRIDE_0 + 4 * n), offsets n with
    | none, _, _ => refuse "a streamout buffer's size unwritten"
    | some _, none, _ => refuse "a streamout buffer's stride unwritten"
    | some _, some _, none => refuse "a streamout buffer whose offset no update set"
    | some size, some stride, some offset =>
        let strides := Function.update acc.2 n stride
        if stride = 0 then pure (acc.1, strides)
        else do
          let room ← room o size offset stride perPrimitive
          pure (min acc.1 room, strides)

/-- The offset of each buffer the program is handed, in dwords. -/
def basesFrom (offsets : Offsets) (rsrc2 : Nat) : List (Fin 4) → Run String (List Nat)
  | [] => pure []
  | n :: rest =>
      if (rsrc2 >>> (SO_BASE0_EN + n)) &&& 1 ≠ 0 then
        match offsets n with
        | none => refuse "a streamout base enabled for an unset buffer"
        | some offset => do
            let bases ← basesFrom offsets rsrc2 rest
            pure (offset / 4 :: bases)
      else basesFrom offsets rsrc2 rest

def waveState (s : Shape) (program rsrc1 : Nat) (userData : List (Option Nat)) (bases : List Nat)
    (written first : Nat) : DispatchState :=
  let perWave := s.lanes / s.perPrimitive * s.perPrimitive
  let count := min perWave (written - first)
  let words := userData ++ [some (count <<< 16), some first] ++ bases.map some
  { program
    userData := words
    inputs :=
      { workgroupIds := fun _ => false
        threadIdComponents := 1
        threads := ![s.lanes, 1, 1]
        unwrittenUserData :=
          words.zipIdx.foldl (fun mask e => if e.1 = none then mask ||| 1 <<< e.2 else mask) 0
        partialGroups := some ⟨![0, 0, 0], ![count, 1, 1]⟩
        firstThread := first
        floatMode := some ((rsrc1 >>> 12) &&& 0xff) }
    width := s.width
    dx10Clamp := some (rsrc1 &&& DX10_CLAMP != 0)
    localWords := none
    groups := ![1, 1, 1]
    vertexStreamout := true }

def waves (s : Shape) (program rsrc1 : Nat) (userData : List (Option Nat)) (bases : List Nat)
    (written : Nat) : List DispatchState :=
  let perWave := max (s.lanes / s.perPrimitive * s.perPrimitive) 1
  (List.range ((written + (perWave - 1)) / perWave)).map
    (fun i => waveState s program rsrc1 userData bases written (i * perWave))

def offsetAfter (o : Overflow) (buffers written : Nat) (strides : Fin 4 → Nat) (offsets : Offsets)
    (n : Fin 4) : Run String (Option Nat) :=
  match offsets n with
  | some offset =>
      if enabled buffers n then do
        let dwords ← word o (written * strides n)
        let bytes ← word o (dwords * 4)
        let after ← word o (offset + bytes)
        pure (some after)
      else pure (some offset)
  | none => pure none

def offsetsAfter (o : Overflow) (buffers written : Nat) (strides : Fin 4 → Nat)
    (offsets : Offsets) : Run String Offsets := do
  let first ← offsetAfter o buffers written strides offsets 0
  let second ← offsetAfter o buffers written strides offsets 1
  let third ← offsetAfter o buffers written strides offsets 2
  let fourth ← offsetAfter o buffers written strides offsets 3
  pure ![first, second, third, fourth]

/-- Plans a draw as a streamout pass. -/
def plan (o : Overflow) (writes : List RegisterWrite) (packetOffset vertices : Nat)
    (offsets : Offsets) : Run String Plan := do
  let latest := latestAt writes packetOffset
  let s ← lift (shape latest)
  let (program, rsrc1, rsrc2) ← lift (vertexProgram latest)
  let (written, strides) ← ([0, 1, 2, 3] : List (Fin 4)).foldlM
    (bufferStep o latest offsets s.perPrimitive s.buffers)
    (vertices / s.perPrimitive * s.perPrimitive, fun _ => 0)
  let userSgprs := (rsrc2 >>> USER_SGPR_SHIFT) &&& USER_SGPR_MASK
  if userSgprs > USER_DATA_VS_WORDS then
    refuse "more user SGPRs than there are vertex user-data registers"
  else do
    let userData := (List.range userSgprs).map (fun i => latest (USER_DATA_VS_0 + i))
    let bases ← basesFrom offsets rsrc2 [0, 1, 2, 3]
    let after ← offsetsAfter o s.buffers written strides offsets
    pure
      { dispatches := waves s program rsrc1 userData bases written
        vertices := written
        primitives := (written / s.perPrimitive, vertices / s.perPrimitive)
        rasterized := s.rasterized
        after }

/-! ## What a draw has room for -/

/-- What the registers and the queue hold of a buffer, in dwords but for its offset. -/
structure BufferState where
  size : Nat
  stride : Nat
  offset : Nat

def bufferState (latest : Nat → Option Nat) (offsets : Offsets) (n : Fin 4) : Option BufferState :=
  match latest (BUFFER_SIZE_0 + 4 * n), latest (VTX_STRIDE_0 + 4 * n), offsets n with
  | some size, some stride, some offset => some ⟨size, stride, offset⟩
  | _, _, _ => none

/-- The vertices of whole primitives a buffer has room for, in unbounded arithmetic. -/
def BufferState.room (b : BufferState) (perPrimitive : Nat) : Nat :=
  (b.size - b.offset / 4) / (b.stride * perPrimitive) * perPrimitive

def fittingStep (latest : Nat → Option Nat) (offsets : Offsets) (perPrimitive buffers : Nat)
    (acc : Nat × (Fin 4 → Nat)) (n : Fin 4) : Nat × (Fin 4 → Nat) :=
  match if enabled buffers n then bufferState latest offsets n else none with
  | none => acc
  | some b =>
      (if b.stride = 0 then acc.1 else min acc.1 (b.room perPrimitive),
        Function.update acc.2 n b.stride)

/-- The vertices every enabled buffer has room for, and the buffers' strides. -/
def fitting (latest : Nat → Option Nat) (offsets : Offsets) (s : Shape) (vertices : Nat) :
    Nat × (Fin 4 → Nat) :=
  ([0, 1, 2, 3] : List (Fin 4)).foldl (fittingStep latest offsets s.perPrimitive s.buffers)
    (vertices / s.perPrimitive * s.perPrimitive, fun _ => 0)

/-- The ranges of vertices run one behind another, each whole primitives that fit a wave. -/
def Tiles (perPrimitive lanes : Nat) : Nat → List (Nat × Nat) → Nat → Prop
  | start, [], stop => start = stop
  | start, (first, count) :: rest, stop =>
      first = start ∧ 0 < count ∧ perPrimitive ∣ count ∧ count ≤ lanes ∧
        Tiles perPrimitive lanes (first + count) rest stop

/-- The vertices a dispatch runs: its first, and how many. -/
def DispatchState.range (d : DispatchState) : Nat × Nat :=
  (d.inputs.firstThread, (d.inputs.partialGroups.map (fun p => p.threads 0)).getD 0)

section

variable (writes : List RegisterWrite) (packetOffset vertices : Nat) (offsets : Offsets)

/-- No product or sum passes a word, and a plan made writes whole primitives of the draw in
waves one behind another, inside each enabled buffer, whose offset moves on by exactly what is
written. -/
def WritesInside : Prop :=
  Calm (plan .traps writes packetOffset vertices offsets) ∧
    ∀ p, plan .wraps writes packetOffset vertices offsets = .ok p →
      ∃ s, shape (latestAt writes packetOffset) = .ok s ∧
        s.perPrimitive ∣ p.vertices ∧ p.vertices ≤ vertices ∧
        Tiles s.perPrimitive s.lanes 0 (p.dispatches.map DispatchState.range) p.vertices ∧
        ∀ n, if enabled s.buffers n then
            ∃ b, bufferState (latestAt writes packetOffset) offsets n = some b ∧
              p.after n = some (b.offset + p.vertices * b.stride * 4) ∧
              (b.stride ≠ 0 → p.vertices = 0 ∨
                b.offset + p.vertices * b.stride * 4 ≤ b.size * 4)
          else p.after n = offsets n

def based (rsrc2 : Nat) (n : Fin 4) : Prop := (rsrc2 >>> (SO_BASE0_EN + n)) &&& 1 ≠ 0

/-- The stride of each enabled buffer that is read holds a primitive in a word; and of a draw
that is not refused, the bytes written keep each offset in a word, and a buffer filled to its
last dword is filled from a whole one. -/
def WordsHold : Prop :=
  ∀ s program rsrc1 rsrc2, shape (latestAt writes packetOffset) = .ok s →
    vertexProgram (latestAt writes packetOffset) = .ok (program, rsrc1, rsrc2) →
    (∀ n b, enabled s.buffers n → bufferState (latestAt writes packetOffset) offsets n = some b →
      (∀ m < n, enabled s.buffers m →
        (bufferState (latestAt writes packetOffset) offsets m).isSome) →
      b.stride * s.perPrimitive < 2 ^ 32) ∧
    ((∀ n, enabled s.buffers n →
        (bufferState (latestAt writes packetOffset) offsets n).isSome) →
      (∀ n, based rsrc2 n → (offsets n).isSome) →
      ∀ n b, enabled s.buffers n →
        bufferState (latestAt writes packetOffset) offsets n = some b →
        b.offset + (fitting (latestAt writes packetOffset) offsets s vertices).1 * b.stride * 4 <
            2 ^ 32 ∧
          (b.stride ≠ 0 → (fitting (latestAt writes packetOffset) offsets s vertices).1 = 0 ∨
            4 ∣ b.offset ∨
            (fitting (latestAt writes packetOffset) offsets s vertices).1 * b.stride <
              b.size - b.offset / 4))

end

/-! ## Words -/

theorem word_of_lt {o : Overflow} {n : Nat} (h : n < 2 ^ 32) : word o n = .ok n := by
  unfold word
  rw [if_neg (fun hover => absurd hover.2 (Nat.not_le_of_lt h)), Nat.mod_eq_of_lt h]

theorem calm_word_traps {n : Nat} : Calm (word .traps n) ↔ n < 2 ^ 32 := by
  constructor
  · intro h
    apply Nat.lt_of_not_le
    intro hle
    unfold word at h
    rw [if_pos ⟨rfl, hle⟩] at h
    exact h rfl
  · intro h
    rw [word_of_lt h]
    exact calm_ok _

variable {o : Overflow} {size offset stride perPrimitive : Nat}

theorem room_eq (hunit : stride * perPrimitive < 2 ^ 32) (hstride : stride ≠ 0)
    (hper : 0 < perPrimitive) (hsize : size < 2 ^ 32) :
    room o size offset stride perPrimitive =
      .ok (BufferState.room ⟨size, stride, offset⟩ perPrimitive) := by
  have hpos : stride * perPrimitive ≠ 0 :=
    Nat.mul_ne_zero hstride (Nat.ne_of_gt hper)
  have hle : (size - offset / 4) / (stride * perPrimitive) * perPrimitive ≤ size := by
    calc (size - offset / 4) / (stride * perPrimitive) * perPrimitive
        ≤ (size - offset / 4) / (stride * perPrimitive) * (stride * perPrimitive) :=
          Nat.mul_le_mul_left _ (Nat.le_mul_of_pos_left _ (Nat.pos_of_ne_zero hstride))
      _ ≤ size - offset / 4 := Nat.div_mul_le_self _ _
      _ ≤ size := Nat.sub_le _ _
  unfold room
  rw [word_of_lt hunit, ok_bind, if_neg hpos, word_of_lt (Nat.lt_of_le_of_lt hle hsize)]
  rfl

theorem unit_of_calm (h : Calm (room .traps size offset stride perPrimitive)) :
    stride * perPrimitive < 2 ^ 32 :=
  calm_word_traps.mp ((calm_bind_iff _ _).mp h).1

/-! ## One buffer -/

section

variable {latest : Nat → Option Nat} {offsets : Offsets} {buffers : Nat}

def AllSet (latest : Nat → Option Nat) (offsets : Offsets) (buffers : Nat)
    (ns : List (Fin 4)) : Prop :=
  ∀ n ∈ ns, enabled buffers n = true → (bufferState latest offsets n).isSome

def StrideFits (latest : Nat → Option Nat) (offsets : Offsets) (perPrimitive buffers : Nat)
    (n : Fin 4) : Prop :=
  enabled buffers n = true → ∀ b, bufferState latest offsets n = some b →
    b.stride * perPrimitive < 2 ^ 32

theorem bufferState_eq_some {n : Fin 4} {b : BufferState}
    (h : bufferState latest offsets n = some b) :
    latest (BUFFER_SIZE_0 + 4 * n) = some b.size ∧ latest (VTX_STRIDE_0 + 4 * n) = some b.stride ∧
      offsets n = some b.offset := by
  unfold bufferState at h
  split at h
  · next hsize hstride hoffset =>
    cases h
    exact ⟨hsize, hstride, hoffset⟩
  · cases h

theorem bufferStep_disabled {n : Fin 4} (h : enabled buffers n = false)
    (acc : Nat × (Fin 4 → Nat)) :
    bufferStep o latest offsets perPrimitive buffers acc n = .ok acc := by
  unfold bufferStep
  rw [h]
  rfl

theorem bufferStep_unset {n : Fin 4} (h : enabled buffers n = true)
    (hunset : bufferState latest offsets n = none) (acc : Nat × (Fin 4 → Nat)) :
    ∃ why, bufferStep o latest offsets perPrimitive buffers acc n = refuse why := by
  unfold bufferStep bufferState at *
  rw [h, if_neg (by decide)]
  cases hsize : latest (BUFFER_SIZE_0 + 4 * n) with
  | none => exact ⟨_, rfl⟩
  | some size =>
      cases hstride : latest (VTX_STRIDE_0 + 4 * n) with
      | none => exact ⟨_, rfl⟩
      | some stride =>
          cases hoffset : offsets n with
          | none => exact ⟨_, rfl⟩
          | some offset =>
              rw [hsize, hstride, hoffset] at hunset
              cases hunset

theorem bufferStep_set {n : Fin 4} {b : BufferState} (h : enabled buffers n = true)
    (hset : bufferState latest offsets n = some b) (acc : Nat × (Fin 4 → Nat)) :
    bufferStep o latest offsets perPrimitive buffers acc n =
      if b.stride = 0 then pure (acc.1, Function.update acc.2 n b.stride)
      else (room o b.size b.offset b.stride perPrimitive >>= fun room =>
        pure (min acc.1 room, Function.update acc.2 n b.stride)) := by
  obtain ⟨hsize, hstride, hoffset⟩ := bufferState_eq_some hset
  unfold bufferStep
  rw [h, hsize, hstride, hoffset, if_neg (by decide)]

variable (hper : 0 < perPrimitive) (hsizes : ∀ register size, latest register = some size →
  size < 2 ^ 32)

include hper hsizes in
theorem bufferStep_eq {n : Fin 4} (hset : enabled buffers n = true →
    (bufferState latest offsets n).isSome)
    (hfits : StrideFits latest offsets perPrimitive buffers n) (acc : Nat × (Fin 4 → Nat)) :
    bufferStep o latest offsets perPrimitive buffers acc n =
      .ok (fittingStep latest offsets perPrimitive buffers acc n) := by
  unfold fittingStep
  cases hon : enabled buffers n with
  | false =>
      rw [bufferStep_disabled hon]
      rfl
  | true =>
      obtain ⟨b, hb⟩ := Option.isSome_iff_exists.mp (hset hon)
      rw [bufferStep_set hon hb, if_pos rfl, hb]
      dsimp only
      by_cases hzero : b.stride = 0
      · rw [if_pos hzero, if_pos hzero]
        rfl
      · have hsize := hsizes _ _ (bufferState_eq_some hb).1
        rw [if_neg hzero, if_neg hzero, room_eq (hfits hon b hb) hzero hper hsize]
        rfl

theorem strideFits_of_calm {n : Fin 4} {acc : Nat × (Fin 4 → Nat)}
    (h : Calm (bufferStep .traps latest offsets perPrimitive buffers acc n)) :
    StrideFits latest offsets perPrimitive buffers n := by
  intro hon b hb
  rw [bufferStep_set hon hb] at h
  split at h
  · next hzero =>
    rw [hzero, Nat.zero_mul]
    decide
  · exact unit_of_calm ((calm_bind_iff _ _).mp h).1

theorem set_of_bufferStep {n : Fin 4} {acc result : Nat × (Fin 4 → Nat)}
    (h : bufferStep o latest offsets perPrimitive buffers acc n = .ok result)
    (hon : enabled buffers n = true) : (bufferState latest offsets n).isSome := by
  cases hb : bufferState latest offsets n with
  | some b => rfl
  | none =>
      obtain ⟨why, hwhy⟩ := bufferStep_unset hon hb acc
      rw [hwhy] at h
      exact absurd h (refuse_ne_ok _ _)

/-! ## All buffers -/

theorem allSet_of_loop {ns : List (Fin 4)} {acc result : Nat × (Fin 4 → Nat)}
    (h : ns.foldlM (bufferStep o latest offsets perPrimitive buffers) acc = .ok result) :
    AllSet latest offsets buffers ns := by
  induction ns generalizing acc with
  | nil => exact fun _ hn => absurd hn List.not_mem_nil
  | cons first ns ih =>
      rw [List.foldlM_cons] at h
      cases hstep : bufferStep o latest offsets perPrimitive buffers acc first with
      | error e =>
          rw [hstep] at h
          cases h
      | ok next =>
          rw [hstep] at h
          intro n hn hon
          rcases List.mem_cons.mp hn with rfl | hn
          · exact set_of_bufferStep hstep hon
          · exact ih h n hn hon

include hper hsizes in
theorem loop_eq {ns : List (Fin 4)} (hset : AllSet latest offsets buffers ns)
    (hfits : ∀ n ∈ ns, StrideFits latest offsets perPrimitive buffers n)
    (acc : Nat × (Fin 4 → Nat)) :
    ns.foldlM (bufferStep o latest offsets perPrimitive buffers) acc =
      .ok (ns.foldl (fittingStep latest offsets perPrimitive buffers) acc) := by
  induction ns generalizing acc with
  | nil => rfl
  | cons first ns ih =>
      rw [List.foldlM_cons, List.foldl_cons, bufferStep_eq hper hsizes
        (hset first List.mem_cons_self) (hfits first List.mem_cons_self), ok_bind]
      exact ih (fun n hn => hset n (List.mem_cons_of_mem _ hn))
        (fun n hn => hfits n (List.mem_cons_of_mem _ hn)) _

include hper hsizes in
/-- The checked build stops at the buffers exactly where a stride read does not fit: one of an
enabled buffer with no unset one before it. -/
theorem calm_loop_iff {ns : List (Fin 4)} (acc : Nat × (Fin 4 → Nat)) :
    Calm (ns.foldlM (bufferStep .traps latest offsets perPrimitive buffers) acc) ↔
      ∀ before n after, ns = before ++ n :: after → AllSet latest offsets buffers before →
        StrideFits latest offsets perPrimitive buffers n := by
  induction ns generalizing acc with
  | nil =>
      constructor
      · intro _ before n after h
        exact absurd h.symm (by simp)
      · intro _
        exact calm_ok _
  | cons first ns ih =>
      rw [List.foldlM_cons, calm_bind_iff]
      constructor
      · rintro ⟨hfirst, hrest⟩ before n after heq hset
        have hfits := strideFits_of_calm hfirst
        cases before with
        | nil =>
            cases heq
            exact hfits
        | cons b before =>
            rw [List.cons_append, List.cons.injEq] at heq
            obtain ⟨rfl, rfl⟩ := heq
            have hstep := @bufferStep_eq .traps perPrimitive latest offsets buffers hper hsizes first
              (hset first List.mem_cons_self) hfits acc
            exact (ih _).mp (hrest _ hstep) before n after rfl
              (fun m hm => hset m (List.mem_cons_of_mem _ hm))
      · intro h
        have hfits := h [] first ns rfl (fun _ hn => absurd hn List.not_mem_nil)
        by_cases hset : enabled buffers first = true → (bufferState latest offsets first).isSome
        · have hstep := @bufferStep_eq .traps perPrimitive latest offsets buffers hper hsizes first
            hset hfits acc
          refine ⟨by rw [hstep]; exact calm_ok _, fun a _ => (ih a).mpr ?_⟩
          intro before n after heq hbefore
          apply h (first :: before) n after (by rw [heq]; rfl)
          intro m hm
          rcases List.mem_cons.mp hm with rfl | hm
          · exact hset
          · exact hbefore m hm
        · -- the first buffer is refused
          rw [Classical.not_imp] at hset
          obtain ⟨hon, hunset⟩ := hset
          obtain ⟨why, hwhy⟩ := @bufferStep_unset .traps perPrimitive latest offsets buffers first hon
            (Option.not_isSome_iff_eq_none.mp hunset) acc
          rw [hwhy]
          exact ⟨calm_refuse _, fun a ha => absurd ha (refuse_ne_ok _ _)⟩

/-! ## The vertices that fit -/

theorem fittingStep_le (acc : Nat × (Fin 4 → Nat)) (n : Fin 4) :
    (fittingStep latest offsets perPrimitive buffers acc n).1 ≤ acc.1 := by
  unfold fittingStep
  split
  · exact Nat.le_refl _
  · dsimp only
    split
    · exact Nat.le_refl _
    · exact Nat.min_le_left _ _

theorem foldl_fittingStep_le (ns : List (Fin 4)) (acc : Nat × (Fin 4 → Nat)) :
    (ns.foldl (fittingStep latest offsets perPrimitive buffers) acc).1 ≤ acc.1 := by
  induction ns generalizing acc with
  | nil => exact Nat.le_refl _
  | cons n ns ih => exact Nat.le_trans (ih _) (fittingStep_le acc n)

theorem foldl_fittingStep_dvd (ns : List (Fin 4)) {acc : Nat × (Fin 4 → Nat)}
    (h : perPrimitive ∣ acc.1) :
    perPrimitive ∣ (ns.foldl (fittingStep latest offsets perPrimitive buffers) acc).1 := by
  induction ns generalizing acc with
  | nil => exact h
  | cons n ns ih =>
      apply ih
      unfold fittingStep
      split
      · exact h
      · dsimp only
        split
        · exact h
        · rcases min_choice acc.1 (BufferState.room _ perPrimitive) with heq | heq
          · rw [heq]
            exact h
          · rw [heq]
            exact Nat.dvd_mul_left _ _

theorem foldl_fittingStep_room (ns : List (Fin 4)) (acc : Nat × (Fin 4 → Nat)) {n : Fin 4}
    (hn : n ∈ ns) (hon : enabled buffers n = true) {b : BufferState}
    (hb : bufferState latest offsets n = some b) (hstride : b.stride ≠ 0) :
    (ns.foldl (fittingStep latest offsets perPrimitive buffers) acc).1 ≤ b.room perPrimitive := by
  induction ns generalizing acc with
  | nil => cases hn
  | cons first ns ih =>
      rcases List.mem_cons.mp hn with rfl | hn
      · apply Nat.le_trans (foldl_fittingStep_le ns _)
        unfold fittingStep
        rw [hon, if_pos rfl, hb]
        dsimp only
        rw [if_neg hstride]
        exact Nat.min_le_right _ _
      · exact ih _ hn

theorem foldl_fittingStep_stride (ns : List (Fin 4)) (acc : Nat × (Fin 4 → Nat)) {n : Fin 4}
    (hn : n ∈ ns ∨ (∀ b, bufferState latest offsets n = some b → acc.2 n = b.stride))
    (hon : enabled buffers n = true) {b : BufferState}
    (hb : bufferState latest offsets n = some b) :
    (ns.foldl (fittingStep latest offsets perPrimitive buffers) acc).2 n = b.stride := by
  induction ns generalizing acc with
  | nil =>
      rcases hn with hn | hn
      · cases hn
      · exact hn b hb
  | cons first ns ih =>
      apply ih
      by_cases heq : first = n
      · subst heq
        refine .inr (fun b' hb' => ?_)
        unfold fittingStep
        rw [hon, if_pos rfl, hb']
        exact Function.update_self ..
      · rcases hn with hn | hn
        · rcases List.mem_cons.mp hn with rfl | hn
          · exact absurd rfl heq
          · exact .inl hn
        · refine .inr (fun b' hb' => ?_)
          unfold fittingStep
          split
          · exact hn b' hb'
          · exact (Function.update_of_ne (Ne.symm heq) ..).trans (hn b' hb')

/-- What fits a buffer ends inside it, counted in dwords. -/
theorem BufferState.room_le (b : BufferState) {written : Nat} (h : written ≤ b.room perPrimitive) :
    written * b.stride ≤ b.size - b.offset / 4 := by
  calc written * b.stride ≤ b.room perPrimitive * b.stride := Nat.mul_le_mul_right _ h
    _ = (b.size - b.offset / 4) / (b.stride * perPrimitive) * (b.stride * perPrimitive) := by
        rw [BufferState.room, Nat.mul_assoc, Nat.mul_comm perPrimitive]
    _ ≤ b.size - b.offset / 4 := Nat.div_mul_le_self _ _

/-- A span of whole dwords that fits the room behind an offset ends inside the buffer, but for
one that reaches the buffer's last dword from inside a dword. -/
theorem span_inside_iff {written stride size offset : Nat}
    (hroom : written * stride ≤ size - offset / 4) (hstride : stride ≠ 0) :
    written = 0 ∨ offset + written * stride * 4 ≤ size * 4 ↔
      written = 0 ∨ 4 ∣ offset ∨ written * stride < size - offset / 4 := by
  by_cases hzero : written = 0
  · simp [hzero]
  · have hpos : 0 < written * stride :=
      Nat.mul_pos (Nat.pos_of_ne_zero hzero) (Nat.pos_of_ne_zero hstride)
    rw [or_iff_right hzero, or_iff_right hzero]
    omega

/-! ## The bases and the offsets after -/

theorem calm_basesFrom (rsrc2 : Nat) (ns : List (Fin 4)) : Calm (basesFrom offsets rsrc2 ns) := by
  induction ns with
  | nil => exact calm_ok _
  | cons n ns ih =>
      unfold basesFrom
      split
      · split
        · exact calm_refuse _
        · exact (calm_bind_iff _ _).mpr ⟨ih, fun _ _ => calm_ok _⟩
      · exact ih

theorem gives_basesFrom {rsrc2 : Nat} {ns : List (Fin 4)}
    (h : ∀ n ∈ ns, based rsrc2 n → (offsets n).isSome) : Gives (basesFrom offsets rsrc2 ns) := by
  induction ns with
  | nil => exact ⟨_, rfl⟩
  | cons n ns ih =>
      have hrest := ih (fun m hm => h m (List.mem_cons_of_mem _ hm))
      unfold basesFrom
      split
      · next hbased =>
        obtain ⟨offset, hoffset⟩ := Option.isSome_iff_exists.mp (h n List.mem_cons_self hbased)
        rw [hoffset]
        exact hrest.bind (fun _ => gives_pure _)
      · exact hrest

theorem set_of_basesFrom {rsrc2 : Nat} {ns : List (Fin 4)} {bases : List Nat}
    (h : basesFrom offsets rsrc2 ns = .ok bases) :
    ∀ n ∈ ns, based rsrc2 n → (offsets n).isSome := by
  induction ns generalizing bases with
  | nil => exact fun _ hn => absurd hn List.not_mem_nil
  | cons n ns ih =>
      intro m hm hbased
      unfold basesFrom at h
      split at h
      · split at h
        · exact absurd h (refuse_ne_ok _ _)
        · next offset hoffset =>
          cases hrest : basesFrom offsets rsrc2 ns with
          | error e =>
              rw [hrest] at h
              cases h
          | ok rest =>
              rcases List.mem_cons.mp hm with rfl | hm
              · rw [hoffset]
                rfl
              · exact ih hrest m hm hbased
      · next hoff =>
        rcases List.mem_cons.mp hm with rfl | hm
        · exact absurd hbased hoff
        · exact ih h m hm hbased

variable {written : Nat} {strides : Fin 4 → Nat}

theorem offsetAfter_eq {n : Fin 4} (h : enabled buffers n = true → ∀ offset,
      offsets n = some offset → offset + written * strides n * 4 < 2 ^ 32) :
    offsetAfter o buffers written strides offsets n =
      .ok (if enabled buffers n then (offsets n).map (· + written * strides n * 4)
        else offsets n) := by
  unfold offsetAfter
  cases hoffset : offsets n with
  | none =>
      dsimp only
      split <;> rfl
  | some offset =>
      dsimp only
      split
      · next hon =>
        have hfits := h hon offset hoffset
        rw [word_of_lt (by omega), ok_bind, word_of_lt (by omega), ok_bind, word_of_lt hfits]
        rfl
      · rfl

theorem calm_offsetAfter_iff {n : Fin 4} :
    Calm (offsetAfter .traps buffers written strides offsets n) ↔
      (enabled buffers n = true → ∀ offset, offsets n = some offset →
        offset + written * strides n * 4 < 2 ^ 32) := by
  constructor
  · intro h hon offset hoffset
    unfold offsetAfter at h
    rw [hoffset] at h
    dsimp only at h
    rw [if_pos hon, calm_bind_iff, calm_word_traps] at h
    obtain ⟨hdwords, h⟩ := h
    have h := h _ (word_of_lt hdwords)
    rw [calm_bind_iff, calm_word_traps] at h
    obtain ⟨hbytes, h⟩ := h
    have h := h _ (word_of_lt hbytes)
    exact calm_word_traps.mp ((calm_bind_iff _ _).mp h).1
  · intro h
    rw [offsetAfter_eq h]
    exact calm_ok _

theorem calm_offsetsAfter_iff :
    Calm (offsetsAfter .traps buffers written strides offsets) ↔
      ∀ n, enabled buffers n = true → ∀ offset, offsets n = some offset →
        offset + written * strides n * 4 < 2 ^ 32 := by
  constructor
  · intro h
    unfold offsetsAfter at h
    rw [calm_bind_iff] at h
    have hzero := calm_offsetAfter_iff.mp h.1
    have h := h.2 _ (offsetAfter_eq hzero)
    rw [calm_bind_iff] at h
    have hone := calm_offsetAfter_iff.mp h.1
    have h := h.2 _ (offsetAfter_eq hone)
    rw [calm_bind_iff] at h
    have htwo := calm_offsetAfter_iff.mp h.1
    have h := h.2 _ (offsetAfter_eq htwo)
    rw [calm_bind_iff] at h
    have hthree := calm_offsetAfter_iff.mp h.1
    intro n
    fin_cases n
    · exact hzero
    · exact hone
    · exact htwo
    · exact hthree
  · intro h
    unfold offsetsAfter
    rw [offsetAfter_eq (h 0), ok_bind, offsetAfter_eq (h 1), ok_bind, offsetAfter_eq (h 2), ok_bind,
      offsetAfter_eq (h 3), ok_bind]
    exact calm_pure _

theorem offsetsAfter_eq (h : ∀ n, enabled buffers n = true → ∀ offset,
      offsets n = some offset → offset + written * strides n * 4 < 2 ^ 32) :
    offsetsAfter o buffers written strides offsets =
      .ok (fun n => if enabled buffers n then (offsets n).map (· + written * strides n * 4)
        else offsets n) := by
  unfold offsetsAfter
  rw [offsetAfter_eq (h 0), ok_bind, offsetAfter_eq (h 1), ok_bind, offsetAfter_eq (h 2), ok_bind,
    offsetAfter_eq (h 3), ok_bind]
  show Except.ok _ = Except.ok _
  congr 1
  funext n
  fin_cases n <;> rfl

end

/-! ## The waves -/

theorem range_waveState (s : Shape) (program rsrc1 : Nat) (userData : List (Option Nat))
    (bases : List Nat) (written first : Nat) :
    (waveState s program rsrc1 userData bases written first).range =
      (first, min (s.lanes / s.perPrimitive * s.perPrimitive) (written - first)) := rfl

/-- Steps of whole primitives cover a number of whole primitives. -/
theorem tiles_steps {per lanes step : Nat} (hstep : 0 < step) (hlanes : step ≤ lanes)
    (hdvd : per ∣ step) {written : Nat} (hwritten : per ∣ written) (n start : Nat)
    (hstart : start ≤ written) (hper : per ∣ start) (hcover : written ≤ start + n * step)
    (hshort : ∀ m, n = m + 1 → start + m * step < written) :
    Tiles per lanes start
      ((List.range n).map (fun i => (start + i * step, min step (written - (start + i * step)))))
      written := by
  induction n generalizing start with
  | zero =>
      show start = written
      omega
  | succ n ih =>
      have hlast := hshort n rfl
      have hmore : start < written := by
        have := Nat.zero_le (n * step)
        omega
      rw [List.range_succ_eq_map, List.map_cons, List.map_map, Nat.zero_mul, Nat.add_zero]
      refine ⟨rfl, by omega, ?_, by omega, ?_⟩
      · rcases min_choice step (written - start) with heq | heq
        · rw [heq]
          exact hdvd
        · rw [heq]
          exact Nat.dvd_sub hwritten hper
      · cases n with
        | zero =>
            -- the last step ends at the end
            show start + min step (written - start) = written
            omega
        | succ m =>
            have hwhole : min step (written - start) = step := by
              rw [Nat.add_one_mul] at hlast
              have := Nat.zero_le (m * step)
              omega
            have hnext : ((fun i => (start + i * step, min step (written - (start + i * step)))) ∘
                Nat.succ) =
                fun i => (start + step + i * step, min step (written - (start + step + i * step))) := by
              funext i
              have hmove : start + Nat.succ i * step = start + step + i * step := by
                rw [Nat.succ_mul]
                omega
              show (start + Nat.succ i * step, _) = _
              rw [hmove]
            rw [hwhole, hnext]
            apply ih
            · rw [Nat.add_one_mul] at hlast
              omega
            · exact Nat.dvd_add hper hdvd
            · rw [Nat.add_one_mul] at hcover
              omega
            · intro k hk
              cases hk
              rw [Nat.add_one_mul] at hlast
              omega

theorem verticesPerPrimitive_bounds {kind per : Nat} (h : verticesPerPrimitive kind = some per) :
    1 ≤ per ∧ per ≤ 3 := by
  unfold verticesPerPrimitive at h
  split at h <;> cases h <;> decide

theorem shape_bounds {latest : Nat → Option Nat} {s : Shape} (h : shape latest = .ok s) :
    1 ≤ s.perPrimitive ∧ s.perPrimitive ≤ 3 ∧ 32 ≤ s.lanes := by
  unfold shape at h
  dsimp only at h
  split at h
  · cases h
  split at h
  · cases h
  split at h
  · cases h
  split at h
  · cases h
  next hper =>
    split at h
    · cases h
    cases h
    obtain ⟨hone, hthree⟩ := verticesPerPrimitive_bounds hper
    refine ⟨hone, hthree, ?_⟩
    dsimp only
    split <;> decide

/-- The waves of a draw run its vertices in order, each whole primitives that fit a wave. -/
theorem waves_tile {latest : Nat → Option Nat} {s : Shape} (h : shape latest = .ok s)
    (program rsrc1 : Nat) (userData : List (Option Nat)) (bases : List Nat) {written : Nat}
    (hwritten : s.perPrimitive ∣ written) :
    Tiles s.perPrimitive s.lanes 0
      ((waves s program rsrc1 userData bases written).map DispatchState.range) written := by
  obtain ⟨hone, hthree, hlanes⟩ := shape_bounds h
  have hfull : 0 < s.lanes / s.perPrimitive * s.perPrimitive :=
    Nat.mul_pos (Nat.div_pos (by omega) hone) hone
  unfold waves
  dsimp only
  rw [Nat.max_eq_left hfull, List.map_map]
  generalize hstep : s.lanes / s.perPrimitive * s.perPrimitive = step at hfull ⊢
  have hranges : (DispatchState.range ∘
      fun i => waveState s program rsrc1 userData bases written (i * step)) =
      fun i => (0 + i * step, min step (written - (0 + i * step))) := by
    funext i
    rw [Function.comp_apply, range_waveState, hstep, Nat.zero_add]
  rw [hranges]
  have hcount := Nat.div_add_mod' (written + (step - 1)) step
  have hrest := Nat.mod_lt (written + (step - 1)) hfull
  apply tiles_steps hfull (by rw [← hstep]; exact Nat.div_mul_le_self _ _)
    (by rw [← hstep]; exact Nat.dvd_mul_left _ _) hwritten
  · exact Nat.zero_le _
  · exact Nat.dvd_zero _
  · omega
  · intro m hm
    rw [hm, Nat.add_one_mul] at hcount
    omega

/-! ## The plan -/

theorem latestAt_mem {writes : List RegisterWrite} {packetOffset register value : Nat}
    (h : latestAt writes packetOffset register = some value) : ∃ w ∈ writes, w.value = value := by
  obtain ⟨w, hfound, hvalue⟩ := Option.map_eq_some_iff.mp h
  exact ⟨w, List.mem_reverse.mp (List.mem_of_find?_eq_some hfound), hvalue⟩

theorem mem_buffers (n : Fin 4) : n ∈ ([0, 1, 2, 3] : List (Fin 4)) := by
  fin_cases n <;> decide

section

variable {writes : List RegisterWrite} {packetOffset vertices : Nat} {offsets : Offsets}
variable {s : Shape} {program rsrc1 rsrc2 : Nat}

def planned (o : Overflow) (writes : List RegisterWrite) (packetOffset vertices : Nat)
    (offsets : Offsets) (s : Shape) (program rsrc1 rsrc2 : Nat)
    (fit : Nat × (Fin 4 → Nat)) : Run String Plan := do
  let bases ← basesFrom offsets rsrc2 [0, 1, 2, 3]
  let after ← offsetsAfter o s.buffers fit.1 fit.2 offsets
  pure
    { dispatches := waves s program rsrc1
        ((List.range ((rsrc2 >>> USER_SGPR_SHIFT) &&& USER_SGPR_MASK)).map
          (fun i => latestAt writes packetOffset (USER_DATA_VS_0 + i))) bases fit.1
      vertices := fit.1
      primitives := (fit.1 / s.perPrimitive, vertices / s.perPrimitive)
      rasterized := s.rasterized
      after }

theorem plan_eq (hshape : shape (latestAt writes packetOffset) = .ok s)
    (hprogram : vertexProgram (latestAt writes packetOffset) = .ok (program, rsrc1, rsrc2)) :
    plan o writes packetOffset vertices offsets =
      (([0, 1, 2, 3] : List (Fin 4)).foldlM
        (bufferStep o (latestAt writes packetOffset) offsets s.perPrimitive s.buffers)
        (vertices / s.perPrimitive * s.perPrimitive, fun _ => 0) >>=
        planned o writes packetOffset vertices offsets s program rsrc1 rsrc2) := by
  have hfew : ¬ (rsrc2 >>> USER_SGPR_SHIFT) &&& USER_SGPR_MASK > USER_DATA_VS_WORDS := by
    have hle : (rsrc2 >>> USER_SGPR_SHIFT) &&& USER_SGPR_MASK ≤ USER_SGPR_MASK := Nat.and_le_right
    have hmask : USER_SGPR_MASK ≤ USER_DATA_VS_WORDS := by decide
    omega
  unfold plan
  dsimp only
  rw [hshape, lift_ok, ok_bind, hprogram, lift_ok, ok_bind]
  dsimp only
  congr 1
  funext fit
  rw [if_neg hfew]
  rfl

theorem split_below {before after : List (Fin 4)} {n : Fin 4}
    (h : ([0, 1, 2, 3] : List (Fin 4)) = before ++ n :: after) (m : Fin 4) :
    m ∈ before ↔ m < n := by
  have hsorted : ([0, 1, 2, 3] : List (Fin 4)).Pairwise (· < ·) := by decide
  have hm := mem_buffers m
  rw [h] at hsorted hm
  obtain ⟨-, hafter, hbefore⟩ := List.pairwise_append.mp hsorted
  constructor
  · exact fun hmem => hbefore m hmem n List.mem_cons_self
  · intro hlt
    rcases List.mem_append.mp hm with hmem | hmem
    · exact hmem
    · rcases List.mem_cons.mp hmem with rfl | hmem
      · exact absurd hlt (lt_irrefl m)
      · exact absurd hlt (not_lt_of_gt ((List.pairwise_cons.mp hafter).1 m hmem))

/-- The checked build reads the buffers without stopping where each stride read fits. -/
theorem calm_buffers_iff (hwords : ∀ w ∈ writes, w.value < 2 ^ 32)
    (hshape : shape (latestAt writes packetOffset) = .ok s) (acc : Nat × (Fin 4 → Nat)) :
    Calm (([0, 1, 2, 3] : List (Fin 4)).foldlM
        (bufferStep .traps (latestAt writes packetOffset) offsets s.perPrimitive s.buffers) acc) ↔
      ∀ n b, enabled s.buffers n → bufferState (latestAt writes packetOffset) offsets n = some b →
        (∀ m < n, enabled s.buffers m →
          (bufferState (latestAt writes packetOffset) offsets m).isSome) →
        b.stride * s.perPrimitive < 2 ^ 32 := by
  have hsizes (register size : Nat) (h : latestAt writes packetOffset register = some size) :
      size < 2 ^ 32 := by
    obtain ⟨w, hw, rfl⟩ := latestAt_mem h
    exact hwords w hw
  rw [calm_loop_iff (shape_bounds hshape).1 hsizes]
  constructor
  · intro h n b hon hb hbelow
    obtain ⟨before, after, heq⟩ := List.append_of_mem (mem_buffers n)
    exact h before n after heq (fun m hm => hbelow m ((split_below heq m).mp hm)) hon b hb
  · intro h before n after heq hset hon b hb
    exact h n b hon hb (fun m hm => hset m ((split_below heq m).mpr hm))

theorem buffers_eq (hwords : ∀ w ∈ writes, w.value < 2 ^ 32)
    (hshape : shape (latestAt writes packetOffset) = .ok s)
    (hset : ∀ n, enabled s.buffers n →
      (bufferState (latestAt writes packetOffset) offsets n).isSome)
    (hfits : ∀ n b, enabled s.buffers n →
      bufferState (latestAt writes packetOffset) offsets n = some b →
      b.stride * s.perPrimitive < 2 ^ 32) :
    ([0, 1, 2, 3] : List (Fin 4)).foldlM
        (bufferStep o (latestAt writes packetOffset) offsets s.perPrimitive s.buffers)
        (vertices / s.perPrimitive * s.perPrimitive, fun _ => 0) =
      .ok (fitting (latestAt writes packetOffset) offsets s vertices) := by
  have hsizes (register size : Nat) (h : latestAt writes packetOffset register = some size) :
      size < 2 ^ 32 := by
    obtain ⟨w, hw, rfl⟩ := latestAt_mem h
    exact hwords w hw
  exact loop_eq (shape_bounds hshape).1 hsizes (fun n _ => hset n)
    (fun n _ hon b hb => hfits n b hon hb) _

theorem fitting_stride {n : Fin 4} {b : BufferState} (hon : enabled s.buffers n = true)
    (hb : bufferState (latestAt writes packetOffset) offsets n = some b) :
    (fitting (latestAt writes packetOffset) offsets s vertices).2 n = b.stride :=
  foldl_fittingStep_stride _ _ (.inl (mem_buffers n)) hon hb

theorem fitting_room {n : Fin 4} {b : BufferState} (hon : enabled s.buffers n = true)
    (hb : bufferState (latestAt writes packetOffset) offsets n = some b) (hstride : b.stride ≠ 0) :
    (fitting (latestAt writes packetOffset) offsets s vertices).1 * b.stride ≤
      b.size - b.offset / 4 :=
  b.room_le (foldl_fittingStep_room _ _ (mem_buffers n) hon hb hstride)

/-- A planned draw writes inside its buffers exactly where the words its products and sums
come to hold them. -/
theorem writesInside_iff (hwords : ∀ w ∈ writes, w.value < 2 ^ 32) (packetOffset vertices : Nat)
    (offsets : Offsets) :
    WritesInside writes packetOffset vertices offsets ↔
      WordsHold writes packetOffset vertices offsets := by
  cases hshape : shape (latestAt writes packetOffset) with
  | error why =>
      have hplan (o : Overflow) : plan o writes packetOffset vertices offsets = refuse why := by
        unfold plan
        dsimp only
        rw [hshape]
        rfl
      unfold WritesInside WordsHold
      rw [hplan, hplan, hshape]
      constructor
      · intro _ s _ _ _ h
        cases h
      · intro _
        exact ⟨calm_refuse _, fun p hp => absurd hp (refuse_ne_ok _ _)⟩
  | ok s =>
  cases hprogram : vertexProgram (latestAt writes packetOffset) with
  | error why =>
      have hplan (o : Overflow) : plan o writes packetOffset vertices offsets = refuse why := by
        unfold plan
        dsimp only
        rw [hshape, lift_ok, ok_bind, hprogram]
        rfl
      unfold WritesInside WordsHold
      rw [hplan, hplan, hprogram]
      constructor
      · intro _ s _ _ _ _ h
        cases h
      · intro _
        exact ⟨calm_refuse _, fun p hp => absurd hp (refuse_ne_ok _ _)⟩
  | ok found =>
  obtain ⟨program, rsrc1, rsrc2⟩ := found
  unfold WritesInside WordsHold
  rw [plan_eq hshape hprogram, plan_eq hshape hprogram, calm_bind_iff,
    calm_buffers_iff hwords hshape, hshape, hprogram]
  constructor
  · rintro ⟨⟨hstrides, hcalm⟩, hplan⟩ s' _ _ _ hs hp
    cases hs
    cases hp
    refine ⟨hstrides, fun hset hbases n b hon hb => ?_⟩
    have hfits (n : Fin 4) (b : BufferState) (hon : enabled s.buffers n = true)
        (hb : bufferState (latestAt writes packetOffset) offsets n = some b) :
        b.stride * s.perPrimitive < 2 ^ 32 := hstrides n b hon hb (fun m _ => hset m)
    have hcalm := hcalm _ (buffers_eq hwords hshape hset hfits)
    obtain ⟨bases, hbases⟩ := @gives_basesFrom offsets rsrc2 [0, 1, 2, 3] (fun n _ => hbases n)
    rw [planned, hbases, ok_bind, calm_bind_iff, calm_offsetsAfter_iff] at hcalm
    have hoffset := (bufferState_eq_some hb).2.2
    have hafter := hcalm.1 n hon b.offset hoffset
    rw [fitting_stride hon hb] at hafter
    refine ⟨hafter, fun hstride => ?_⟩
    apply (span_inside_iff (fitting_room hon hb hstride) hstride).mp
    rw [buffers_eq hwords hshape hset hfits, ok_bind, planned, hbases, ok_bind,
      offsetsAfter_eq hcalm.1, ok_bind] at hplan
    obtain ⟨s', hs', -, -, -, hinside⟩ := hplan _ rfl
    cases hs'
    have hinside := hinside n
    rw [if_pos hon] at hinside
    obtain ⟨b', hb', -, hspan⟩ := hinside
    rw [hb] at hb'
    cases hb'
    exact hspan hstride
  · intro h
    obtain ⟨hstrides, hrest⟩ := h s program rsrc1 rsrc2 rfl rfl
    have hfits (hset : ∀ n, enabled s.buffers n →
        (bufferState (latestAt writes packetOffset) offsets n).isSome) (n : Fin 4) (b : BufferState)
        (hon : enabled s.buffers n = true)
        (hb : bufferState (latestAt writes packetOffset) offsets n = some b) :
        b.stride * s.perPrimitive < 2 ^ 32 := hstrides n b hon hb (fun m _ => hset m)
    have hafter (hset : ∀ n, enabled s.buffers n →
        (bufferState (latestAt writes packetOffset) offsets n).isSome)
        {bases : List Nat} (hbases : basesFrom offsets rsrc2 [0, 1, 2, 3] = .ok bases) (n : Fin 4)
        (hon : enabled s.buffers n = true) (offset : Nat) (hoffset : offsets n = some offset) :
        offset + (fitting (latestAt writes packetOffset) offsets s vertices).1 *
          (fitting (latestAt writes packetOffset) offsets s vertices).2 n * 4 < 2 ^ 32 := by
      obtain ⟨b, hb⟩ := Option.isSome_iff_exists.mp (hset n hon)
      have hfit := (hrest hset (fun n => set_of_basesFrom hbases n (mem_buffers n)) n b hon hb).1
      rw [fitting_stride hon hb]
      rw [(bufferState_eq_some hb).2.2] at hoffset
      cases hoffset
      exact hfit
    refine ⟨⟨hstrides, fun fit hfit => ?_⟩, fun p hp => ?_⟩
    · have hset := fun n hon => allSet_of_loop hfit n (mem_buffers n) hon
      rw [buffers_eq hwords hshape hset (hfits hset)] at hfit
      cases hfit
      refine (calm_bind_iff _ _).mpr ⟨calm_basesFrom _ _, fun bases hbases => ?_⟩
      refine (calm_bind_iff _ _).mpr ⟨?_, fun _ _ => calm_ok _⟩
      exact calm_offsetsAfter_iff.mpr (hafter hset hbases)
    · cases hloop : ([0, 1, 2, 3] : List (Fin 4)).foldlM
          (bufferStep .wraps (latestAt writes packetOffset) offsets s.perPrimitive s.buffers)
          (vertices / s.perPrimitive * s.perPrimitive, fun _ => 0) with
      | error e =>
          rw [hloop] at hp
          cases hp
      | ok fit =>
      have hset := fun n hon => allSet_of_loop hloop n (mem_buffers n) hon
      rw [buffers_eq hwords hshape hset (hfits hset)] at hloop
      cases hloop
      rw [buffers_eq hwords hshape hset (hfits hset), ok_bind, planned] at hp
      cases hbases : basesFrom offsets rsrc2 [0, 1, 2, 3] with
      | error e =>
          rw [hbases] at hp
          cases hp
      | ok bases =>
      rw [hbases, ok_bind, offsetsAfter_eq (hafter hset hbases), ok_bind] at hp
      cases hp
      have hdvd : s.perPrimitive ∣ (fitting (latestAt writes packetOffset) offsets s vertices).1 :=
        foldl_fittingStep_dvd _ (Nat.dvd_mul_left _ _)
      have hle : (fitting (latestAt writes packetOffset) offsets s vertices).1 ≤ vertices :=
        Nat.le_trans (foldl_fittingStep_le _ _) (Nat.div_mul_le_self _ _)
      refine ⟨s, rfl, hdvd, hle, waves_tile hshape _ _ _ _ hdvd, fun n => ?_⟩
      dsimp only
      cases hon : enabled s.buffers n with
      | false => rw [if_neg (by decide), if_neg (by decide)]
      | true =>
          obtain ⟨b, hb⟩ := Option.isSome_iff_exists.mp (hset n hon)
          rw [if_pos rfl, if_pos rfl, (bufferState_eq_some hb).2.2, fitting_stride hon hb]
          refine ⟨b, hb, rfl, fun hstride => ?_⟩
          apply (span_inside_iff (fitting_room hon hb hstride) hstride).mpr
          exact (hrest hset (fun n => set_of_basesFrom hbases n (mem_buffers n)) n b hon hb).2 hstride

end

/-- A draw of points or of triangles, one buffer of a hundred dwords enabled. -/
def oneBuffer (stride primitive : Nat) : List RegisterWrite :=
  [⟨0, VGT_STRMOUT_BUFFER_CONFIG, 1⟩, ⟨0, BUFFER_SIZE_0, 100⟩, ⟨0, VTX_STRIDE_0, stride⟩,
    ⟨0, PA_CL_CLIP_CNTL, 0x01400000⟩, ⟨0, VGT_SHADER_STAGES_EN, 0x00810000⟩,
    ⟨0, VGT_PRIMITIVE_TYPE, primitive⟩, ⟨0, PGM_LO_VS, 0x04028004⟩, ⟨0, PGM_HI_VS, 0⟩,
    ⟨0, PGM_RSRC1_VS, 0x002C0000⟩, ⟨0, PGM_RSRC2_VS, 0x1100⟩]

/-- Three vertices of the stride come to two in a word, so the buffer of a hundred dwords is
taken to have room for fifty triangles, where it has none for one. -/
theorem writesInside_differs :
    ¬ WritesInside (oneBuffer 0x55555556 4) 0x40 300 ![some 0, none, none, none] ∧
      (plan .wraps (oneBuffer 0x55555556 4) 0x40 300 ![some 0, none, none, none]).toOption.map
        (·.vertices) = some 150 := by
  refine ⟨fun h => h.1 ?_, by decide +kernel⟩
  rfl

theorem writesInside_iff_small :
    WritesInside (oneBuffer 1 1) 0x40 1 ![some 0, none, none, none] ↔
      WordsHold (oneBuffer 1 1) 0x40 1 ![some 0, none, none, none] :=
  writesInside_iff (by decide) 0x40 1 ![some 0, none, none, none]

end Orbistoun.Gpu.Streamout
