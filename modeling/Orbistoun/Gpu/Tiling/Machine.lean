import Orbistoun.Gpu.Tiling.RoundTrip
import Orbistoun.Lib.Usize

/-!
# Surfaces past a machine word

Sizes and offsets as a build computes them.  A surface whose bytes a machine word counts is placed,
tiled and detiled exactly; the offset of an element past the word is another element's.
-/

namespace Orbistoun.Gpu.Tiling.Machine

open Lib Lib.Rows Lib.Usize
open Lib.Trap (Run fault ok_bind refuse)
open Lib.U64 (bound)

/-- Bytes a surface spans: every block it touches, whole. -/
def surfaceBytes (o : Overflow) (e : Equation) (pitch height : Nat) : Run Unit Nat := do
  let blocks ← mul o (e.blocksAcross pitch) (divCeil height e.block.2)
  mul o blocks e.blockBytes

def offset (o : Overflow) (e : Equation) (x y pitch pipeBankXor : Nat) : Run Unit Nat :=
  if pipeBankXor != 0 && !takesXor e.mode then refuse ()
  else do
    let (column, row) := (x / e.block.1, y / e.block.2)
    let within := flipped e.x (x % e.block.1) ^^^ flipped e.y (y % e.block.2) ^^^
      flipped e.xAbove column ^^^ flipped e.yAbove row ^^^ e.xorTerm pipeBankXor
    let above ← mul o row (e.blocksAcross pitch)
    let block ← add o above column
    let start ← mul o block e.blockBytes
    add o start within

def tableOf (o : Overflow) (width height blockBytes : Nat) (offset : Nat → Nat → Run Unit Nat) :
    Run Unit OffsetTable := do
  let mask := blockBytes - 1
  let origin ← offset 0 0
  let columns ← (List.range width).mapM fun x => do
    let at' ← offset x 0
    let start ← sub o (OffsetTable.cleared at' mask) (OffsetTable.cleared origin mask)
    return (start, (at' ^^^ origin) &&& mask)
  let rows ← (List.range height).mapM fun y => do
    let at' ← offset 0 y
    return (OffsetTable.cleared at' mask, at' &&& mask)
  return { columns, rows, mask }

/-- The byte offset of an element by the table; an index past the table ends the run. -/
def at' (o : Overflow) (table : OffsetTable) (x y : Nat) : Run Unit Nat :=
  match table.rows[y]?, table.columns[x]? with
  | some (row, rowTerm), some (column, columnTerm) => do
      let start ← add o row column
      add o start ((rowTerm ^^^ columnTerm) &&& table.mask)
  | _, _ => fault

def unwrapOrDefault : Run Unit Nat → Run Unit Nat
  | .error (.refused _) => .ok 0
  | run => run

def offsetTable (o : Overflow) (e : Equation) (width height pitch pipeBankXor : Nat) :
    Run Unit OffsetTable := do
  let _ ← offset o e 0 0 pitch pipeBankXor
  tableOf o width height e.blockBytes fun x y => unwrapOrDefault (offset o e x y pitch pipeBankXor)

/-- Where an element starts in the row-major image. -/
def linearStart (o : Overflow) (size width x y : Nat) : Run Unit Nat := do
  let above ← mul o y width
  let index ← add o above x
  mul o index size

def between (l : List Byte) (start stop : Nat) : Option (List Byte) :=
  if start ≤ stop ∧ stop ≤ l.length then some ((l.drop start).take (stop - start)) else none

def readElement (o : Overflow) (table : OffsetTable) (tiled : List Byte) (size width image : Nat)
    (p : Nat × Nat) : Run Unit (List Byte) := do
  let start ← at' o table p.1 p.2
  let into ← linearStart o size width p.1 p.2
  let stop ← add o into size
  if stop < into ∨ image < stop then fault
  else do
    let last ← add o start size
    orRefuse (between tiled start last)

/-- A surface's elements read into row-major order.  No buffer is longer than `isize::MAX`. -/
def detile (o : Overflow) (e : Equation) (tiled : List Byte) (width height pitch pipeBankXor : Nat) :
    Run Unit (List Byte) := do
  let elements ← mul o width height
  let image ← mul o elements e.bytes
  if 2 ^ 63 ≤ image then fault
  else do
    let table ← offsetTable o e width height pitch pipeBankXor
    -- the image is filled from its start, an element after another
    let elements ← (pairs width height).mapM (readElement o table tiled e.bytes width image)
    return elements.flatten

/-- Elements written in turn: the bytes as far as they were written, and whether all were. -/
def tileElements (o : Overflow) (table : OffsetTable) (size width : Nat) (linear : List Byte) :
    List (Nat × Nat) → List Byte → Run Unit (List Byte × Option Unit)
  | [], tiled => .ok (tiled, some ())
  | p :: rest, tiled => do
      let into ← at' o table p.1 p.2
      let start ← linearStart o size width p.1 p.2
      let stop ← add o into size
      if into ≤ stop ∧ stop ≤ tiled.length then do
        let last ← add o start size
        match between linear start last with
        | none => .ok (tiled, none)
        | some element =>
            tileElements o table size width linear rest
              (tiled.take into ++ element ++ tiled.drop stop)
      else .ok (tiled, none)

/-- Row-major elements written into a surface at their places. -/
def tile (o : Overflow) (e : Equation) (linear tiled : List Byte)
    (width height pitch pipeBankXor : Nat) : Run Unit (List Byte × Option Unit) :=
  match offsetTable o e width height pitch pipeBankXor with
  | .error (.refused _) => .ok (tiled, none)
  | .error .panicked => fault
  | .ok table => tileElements o table e.bytes width linear (pairs width height) tiled

/-! ## Results that fit -/

section Fits

variable {e : Equation} (o : Overflow) {x y width height pitch pipeBankXor : Nat}

theorem surfaceBytes_ok (hpos : 0 < e.blockBytes) (hfits : e.surfaceBytes pitch height < bound) :
    surfaceBytes o e pitch height = .ok (e.surfaceBytes pitch height) := by
  have hblocks : e.blocksAcross pitch * divCeil height e.block.2 < bound :=
    Nat.lt_of_le_of_lt (Nat.le_mul_of_pos_right _ hpos) hfits
  unfold surfaceBytes
  rw [mul_ok hblocks]
  exact mul_ok hfits

/-- An offset that a word holds is the exact one. -/
theorem offset_ok {place : Nat} (hpos : 0 < e.blockBytes)
    (hat : e.offset x y pitch pipeBankXor = some place) (hfits : place < bound) :
    offset o e x y pitch pipeBankXor = .ok place := by
  unfold Equation.offset at hat
  unfold offset
  split at hat
  · cases hat
  · next hadmit =>
    have hplace := Option.some.inj hat
    have hstart : (y / e.block.2 * e.blocksAcross pitch + x / e.block.1) * e.blockBytes ≤ place :=
      calc _ ≤ _ := Nat.le_add_right _ _
        _ = place := hplace
    have hblock : y / e.block.2 * e.blocksAcross pitch + x / e.block.1 ≤
        (y / e.block.2 * e.blocksAcross pitch + x / e.block.1) * e.blockBytes :=
      Nat.le_mul_of_pos_right _ hpos
    have habove : y / e.block.2 * e.blocksAcross pitch ≤
        y / e.block.2 * e.blocksAcross pitch + x / e.block.1 := Nat.le_add_right _ _
    rw [if_neg hadmit]
    dsimp only
    rw [mul_ok (by omega), ok_bind, add_ok (by omega), ok_bind, mul_ok (by omega), ok_bind]
    exact (add_ok (hplace ▸ hfits)).trans (congrArg Except.ok hplace)

theorem at'_ok {table : OffsetTable} {place : Nat} (hat : table.at' x y = some place)
    (hfits : place < bound) : at' o table x y = .ok place := by
  unfold OffsetTable.at' at hat
  obtain ⟨⟨row, rowTerm⟩, hrow, hat⟩ := Option.bind_eq_some_iff.mp hat
  obtain ⟨⟨column, columnTerm⟩, hcolumn, hat⟩ := Option.bind_eq_some_iff.mp hat
  simp only [Option.pure_def, Option.some.injEq] at hat
  unfold at'
  rw [hrow, hcolumn]
  dsimp only
  rw [add_ok (by omega), ok_bind, add_ok (by omega), hat]

theorem tableOf_ok {blockBytes : Nat} {run : Nat → Nat → Run Unit Nat} {place : Nat → Nat → Nat}
    (horigin : run 0 0 = .ok (place 0 0)) (hcolumns : ∀ x < width, run x 0 = .ok (place x 0))
    (hrows : ∀ y < height, run 0 y = .ok (place 0 y))
    (hfits : ∀ x < width, place x 0 < bound)
    (hstarts : ∀ x < width, OffsetTable.cleared (place 0 0) (blockBytes - 1) ≤
      OffsetTable.cleared (place x 0) (blockBytes - 1)) :
    tableOf o width height blockBytes run = .ok (OffsetTable.of width height blockBytes place) := by
  have hall := mapM_ok (List.range width)
    (fun x => show Run Unit (Nat × Nat) from do
      let at' ← run x 0
      let start ← sub o (OffsetTable.cleared at' (blockBytes - 1))
        (OffsetTable.cleared (place 0 0) (blockBytes - 1))
      return (start, (at' ^^^ place 0 0) &&& (blockBytes - 1)))
    (fun x => (OffsetTable.cleared (place x 0) (blockBytes - 1) -
      OffsetTable.cleared (place 0 0) (blockBytes - 1),
        (place x 0 ^^^ place 0 0) &&& (blockBytes - 1)))
    (fun x hx => by
      have hlt := List.mem_range.mp hx
      have hcleared : OffsetTable.cleared (place x 0) (blockBytes - 1) < bound :=
        Nat.lt_of_le_of_lt (Nat.sub_le _ _) (hfits x hlt)
      rw [hcolumns x hlt, ok_bind, sub_ok (hstarts x hlt) hcleared]
      rfl)
  have hdown := mapM_ok (List.range height)
    (fun y => show Run Unit (Nat × Nat) from do
      let at' ← run 0 y
      return (OffsetTable.cleared at' (blockBytes - 1), at' &&& (blockBytes - 1)))
    (fun y => (OffsetTable.cleared (place 0 y) (blockBytes - 1), place 0 y &&& (blockBytes - 1)))
    (fun y hy => by
      rw [hrows y (List.mem_range.mp hy)]
      rfl)
  unfold tableOf
  dsimp only
  rw [horigin, ok_bind, hall, ok_bind, hdown]
  rfl

theorem blockBytes_le : ∀ e ∈ equations, e.blockBytes ≤ 2 ^ 16 := by decide +kernel

/-- The places of a surface's first row are those of blocks that 32 bits number. -/
theorem column_place_lt (h : e.Sound) (hblock : e.blockBytes ≤ 2 ^ 16) (hx : x < 2 ^ 32) :
    (h.blocks pitch pipeBankXor).place x 0 < bound := by
  have hwithin := (h.blocks pitch pipeBankXor).within_lt x 0
  have hstart : (h.blocks pitch pipeBankXor).block x 0 = x / e.block.1 := by
    simp [Lib.Flips.Blocks.block, Equation.Sound.blocks]
  rw [← h.blockBytes_eq] at hwithin
  have hcolumn := Nat.div_le_self x e.block.1
  calc (h.blocks pitch pipeBankXor).place x 0
      < (x / e.block.1 + 1) * e.blockBytes := by
        rw [Lib.Flips.Blocks.place, hstart, ← h.blockBytes_eq, Nat.add_one_mul]
        exact Nat.add_lt_add_left hwithin _
    _ ≤ 2 ^ 32 * 2 ^ 16 := Nat.mul_le_mul (by omega) hblock
    _ ≤ bound := by decide

theorem row_place_lt (h : e.Sound) (hblock : e.blockBytes ≤ 2 ^ 16) (hy : y < height)
    (hfits : e.surfaceBytes pitch height < bound) :
    (h.blocks pitch pipeBankXor).place 0 y < bound := by
  have hwithin := (h.blocks pitch pipeBankXor).within_lt 0 y
  have hstart : (h.blocks pitch pipeBankXor).block 0 y = y / e.block.2 * e.blocksAcross pitch := by
    simp [Lib.Flips.Blocks.block, Equation.Sound.blocks]
  rw [← h.blockBytes_eq] at hwithin
  rw [Lib.Flips.Blocks.place, hstart, ← h.blockBytes_eq]
  rcases Nat.eq_zero_or_pos (e.blocksAcross pitch) with hnone | hacross
  · rw [hnone, Nat.mul_zero, Nat.zero_mul, Nat.zero_add]
    have hsmall : 2 ^ 16 < bound := by decide
    omega
  · have hrow : y / e.block.2 + 1 ≤ divCeil height e.block.2 := Equation.lt_divCeil h.height_pos hy
    calc y / e.block.2 * e.blocksAcross pitch * e.blockBytes + _
        < (y / e.block.2 * e.blocksAcross pitch + 1) * e.blockBytes := by
          rw [Nat.add_one_mul]
          exact Nat.add_lt_add_left hwithin _
      _ ≤ (y / e.block.2 + 1) * e.blocksAcross pitch * e.blockBytes := by
          apply Nat.mul_le_mul_right
          rw [Nat.add_one_mul]
          omega
      _ ≤ divCeil height e.block.2 * e.blocksAcross pitch * e.blockBytes :=
          Nat.mul_le_mul_right _ (Nat.mul_le_mul_right _ hrow)
      _ = e.surfaceBytes pitch height := by
          rw [Equation.surfaceBytes, Nat.mul_comm (e.blocksAcross pitch)]
      _ < bound := hfits

theorem blockBytes_pos (h : e.Sound) : 0 < e.blockBytes := by
  rw [h.blockBytes_eq]
  exact Nat.two_pow_pos _

theorem bytes_pos (h : e.Sound) : 0 < e.bytes := by
  rw [h.bytes_eq]
  exact Nat.two_pow_pos _

theorem offset_place (h : e.Sound) (hxor : e.Admits pipeBankXor)
    (hfits : (h.blocks pitch pipeBankXor).place x y < bound) :
    offset o e x y pitch pipeBankXor = .ok ((h.blocks pitch pipeBankXor).place x y) :=
  offset_ok o (blockBytes_pos h) (h.offset_eq pitch pipeBankXor hxor x y) hfits

theorem offsetTable_ok (h : e.Sound) (hblock : e.blockBytes ≤ 2 ^ 16) (hxor : e.Admits pipeBankXor)
    (hwidth : width ≤ 2 ^ 32) (hfits : e.surfaceBytes pitch height < bound) :
    ∃ table, e.offsetTable width height pitch pipeBankXor = some table ∧
      offsetTable o e width height pitch pipeBankXor = .ok table := by
  have hcolumn {x : Nat} (hx : x < 2 ^ 32) : offset o e x 0 pitch pipeBankXor =
      .ok ((h.blocks pitch pipeBankXor).place x 0) :=
    offset_place o h hxor (column_place_lt h hblock hx)
  have hrow {y : Nat} (hy : y < height) : offset o e 0 y pitch pipeBankXor =
      .ok ((h.blocks pitch pipeBankXor).place 0 y) :=
    offset_place o h hxor (row_place_lt h hblock hy hfits)
  refine ⟨OffsetTable.of width height e.blockBytes (h.blocks pitch pipeBankXor).place, ?_, ?_⟩
  · unfold Equation.offsetTable
    simp only [h.offset_eq pitch pipeBankXor hxor, Option.getD_some]
    rfl
  · unfold offsetTable
    rw [hcolumn (by decide), ok_bind]
    apply tableOf_ok
    · rw [hcolumn (by decide)]
      rfl
    · intro x hx
      rw [hcolumn (by omega)]
      rfl
    · intro y hy
      rw [hrow hy]
      rfl
    · intro x hx
      exact column_place_lt h hblock (by omega)
    · intro x _
      have hmask : e.blockBytes - 1 = 2 ^ e.blockBytes.log2 - 1 :=
        congrArg (· - 1) h.blockBytes_eq
      rw [hmask, OffsetTable.cleared_place, OffsetTable.cleared_place]
      apply Nat.mul_le_mul_right
      simp [Lib.Flips.Blocks.block, Equation.Sound.blocks]

theorem between_eq_slice (l : List Byte) (start len : Nat) :
    between l start (start + len) = slice l start len := by
  unfold between slice
  rw [Nat.add_sub_cancel_left]
  exact if_congr ⟨fun h => h.2, fun h => ⟨Nat.le_add_right _ _, h⟩⟩ rfl rfl

theorem linearStart_ok {size : Nat} (hpos : 0 < size) (hfits : (y * width + x) * size < bound) :
    linearStart o size width x y = .ok ((y * width + x) * size) := by
  have hindex : y * width + x ≤ (y * width + x) * size := Nat.le_mul_of_pos_right _ hpos
  unfold linearStart
  rw [mul_ok (by omega), ok_bind, add_ok (by omega), ok_bind, mul_ok hfits]

/-- An element's place in a row-major image ends inside the image. -/
theorem linear_end_le {size : Nat} (hx : x < width) (hy : y < height) :
    (y * width + x) * size + size ≤ width * height * size := by
  rw [← Nat.add_one_mul]
  apply Nat.mul_le_mul_right
  calc y * width + x + 1 ≤ (y + 1) * width := by rw [Nat.add_one_mul]; omega
    _ ≤ height * width := Nat.mul_le_mul_right width hy
    _ = width * height := Nat.mul_comm _ _

/-- A row-major image is no longer than a surface of its elements. -/
theorem image_le (h : e.Sound) (hpitch : width ≤ pitch) :
    width * height * e.bytes ≤ e.surfaceBytes pitch height := by
  have hacross : width ≤ e.blocksAcross pitch * e.block.1 :=
    hpitch.trans (Equation.le_divCeil_mul pitch h.width_pos)
  have hdown : height ≤ divCeil height e.block.2 * e.block.2 :=
    Equation.le_divCeil_mul height h.height_pos
  calc width * height * e.bytes
      ≤ e.blocksAcross pitch * e.block.1 * (divCeil height e.block.2 * e.block.2) * e.bytes :=
        Nat.mul_le_mul_right _ (Nat.mul_le_mul hacross hdown)
    _ = e.surfaceBytes pitch height := by
        rw [Equation.surfaceBytes, ← h.bytes_in_block]
        ring

section Elements

variable {table : OffsetTable} {size : Nat} {linear tiled : List Byte}

theorem tileElements_ok (hpos : 0 < size) (ps : List (Nat × Nat)) (tiled : List Byte)
    (hplaces : ∀ p ∈ ps, ∃ place, table.at' p.1 p.2 = some place ∧ place + size < bound)
    (himage : ∀ p ∈ ps, (p.2 * width + p.1) * size + size < bound) :
    tileElements o table size width linear ps tiled =
      .ok (Equation.tileElements table size width linear ps tiled) := by
  induction ps generalizing tiled with
  | nil => rfl
  | cons p ps ih =>
      obtain ⟨x, y⟩ := p
      obtain ⟨place, hat, hplace⟩ := hplaces (x, y) List.mem_cons_self
      have hstart : (y * width + x) * size + size < bound := himage (x, y) List.mem_cons_self
      have hrest (tiled : List Byte) := ih tiled
        (fun q hq => hplaces q (List.mem_cons_of_mem _ hq))
        (fun q hq => himage q (List.mem_cons_of_mem _ hq))
      have hat' : table.at' x y = some place := hat
      rw [tileElements, Equation.tileElements, hat']
      dsimp only
      rw [at'_ok o hat' (by omega), ok_bind, linearStart_ok o hpos (by omega), ok_bind,
        add_ok hplace, ok_bind, add_ok hstart]
      by_cases hfits : place + size ≤ tiled.length
      · rw [if_pos ⟨Nat.le_add_right _ _, hfits⟩, ok_bind, between_eq_slice]
        cases hslice : slice linear ((y * width + x) * size) size with
        | none => rfl
        | some element =>
            have hlength := slice_length hslice
            have hstore : store tiled place element =
                some (tiled.take place ++ element ++ tiled.drop (place + size)) := by
              rw [store, hlength, if_pos hfits]
            simp only [Option.bind_eq_bind, Option.bind_some, hstore]
            exact hrest _
      · rw [if_neg (fun hboth => hfits hboth.2)]
        cases hslice : slice linear ((y * width + x) * size) size with
        | none => rfl
        | some element =>
            have hlength := slice_length hslice
            have hstore : store tiled place element = none := by
              rw [store, hlength, if_neg hfits]
            simp only [Option.bind_eq_bind, Option.bind_some, hstore]

theorem readElement_ok (hpos : 0 < size) {place image : Nat} (hat : table.at' x y = some place)
    (hplace : place + size < bound) (hinside : (y * width + x) * size + size ≤ image)
    (himage : image < bound) :
    readElement o table tiled size width image (x, y) = orRefuse (slice tiled place size) := by
  unfold readElement
  dsimp only
  rw [at'_ok o hat (by omega), ok_bind, linearStart_ok o hpos (by omega), ok_bind,
    add_ok (by omega), ok_bind, if_neg (by omega), add_ok hplace, ok_bind, between_eq_slice]

end Elements

section Surface

variable (h : e.Sound) (hblock : e.blockBytes ≤ 2 ^ 16) (hxor : e.Admits pipeBankXor)
  (hpitch : width ≤ pitch) (hword : pitch < 2 ^ 32)
  (hfits : e.surfaceBytes pitch height < bound)

include h hblock hxor hpitch hword hfits

/-- The table of a surface whose bytes a word counts, and what it gives for each element. -/
theorem table_places :
    ∃ table, e.offsetTable width height pitch pipeBankXor = some table ∧
      offsetTable o e width height pitch pipeBankXor = .ok table ∧
      ∀ x < width, ∀ y < height, ∃ place, table.at' x y = some place ∧
        place + e.bytes ≤ e.surfaceBytes pitch height := by
  obtain ⟨table, htable, hrun⟩ := offsetTable_ok o h hblock hxor
    (by omega : width ≤ 2 ^ 32) hfits
  obtain ⟨place, hplace, -, hinside, -⟩ := Equation.place_spec h hxor pitch
  refine ⟨table, htable, hrun, fun x hx y hy => ⟨place x y, ?_, hinside x y height (by omega) hy⟩⟩
  rw [Equation.offsetTable_at' h htable hx hy]
  exact hplace x y

/-- A surface whose bytes a word counts is tiled exactly. -/
theorem tile_ok (linear tiled : List Byte) :
    tile o e linear tiled width height pitch pipeBankXor =
      .ok (e.tile linear tiled width height pitch pipeBankXor) := by
  obtain ⟨table, htable, hrun, hplaces⟩ := table_places o h hblock hxor hpitch hword hfits
  have himage : width * height * e.bytes ≤ e.surfaceBytes pitch height := image_le h hpitch
  unfold tile Equation.tile
  rw [hrun, htable]
  apply tileElements_ok o (bytes_pos h)
  · intro p hp
    obtain ⟨hx, hy⟩ := mem_pairs.mp hp
    obtain ⟨place, hat, hplace⟩ := hplaces p.1 hx p.2 hy
    exact ⟨place, hat, by omega⟩
  · intro p hp
    obtain ⟨hx, hy⟩ := mem_pairs.mp hp
    have hend : (p.2 * width + p.1) * e.bytes + e.bytes ≤ width * height * e.bytes :=
      linear_end_le hx hy
    omega

/-- One whose image is a buffer is detiled exactly. -/
theorem detile_ok (tiled : List Byte) (himage : width * height * e.bytes < 2 ^ 63) :
    detile o e tiled width height pitch pipeBankXor =
      orRefuse (e.detile tiled width height pitch pipeBankXor) := by
  obtain ⟨table, htable, hrun, hplaces⟩ := table_places o h hblock hxor hpitch hword hfits
  have hlimit : 2 ^ 63 < bound := by decide
  have helements : width * height ≤ width * height * e.bytes :=
    Nat.le_mul_of_pos_right _ (bytes_pos h)
  have hread := mapM_orRefuse (pairs width height)
    (readElement o table tiled e.bytes width (width * height * e.bytes))
    (fun p => do
      let place ← table.at' p.1 p.2
      slice tiled place e.bytes)
    (fun p hp => by
      obtain ⟨hx, hy⟩ := mem_pairs.mp hp
      obtain ⟨place, hat, hplace⟩ := hplaces p.1 hx p.2 hy
      rw [hat]
      exact readElement_ok o (bytes_pos h) hat (by omega) (linear_end_le hx hy) (by omega))
  unfold detile Equation.detile
  rw [mul_ok (by omega), ok_bind, mul_ok (by omega), ok_bind, if_neg (by omega), hrun, ok_bind,
    hread, htable]
  have hflatten (elements : Option (List (List Byte))) :
      (orRefuse elements >>= fun elements => pure elements.flatten) =
        orRefuse (elements.bind fun elements => some elements.flatten) := by
    cases elements <;> rfl
  exact hflatten _

end Surface

/-- Every equation of the table places the elements of a surface whose bytes are fewer than 2^64
apart inside them, at whole elements; what it tiles it detiles as it was; and it changes no other
byte.  A slice is no longer than `isize::MAX`. -/
theorem equation_round_trip (he : e ∈ equations) (hxor : e.Admits pipeBankXor)
    (hpitch : width ≤ pitch) (hword : pitch < 2 ^ 32)
    (hfits : e.surfaceBytes pitch height < 2 ^ 64) :
    surfaceBytes o e pitch height = .ok (e.surfaceBytes pitch height) ∧
    ∃ place : Nat → Nat → Nat,
      (∀ x y, x < width → y < height → offset o e x y pitch pipeBankXor = .ok (place x y) ∧
        place x y % e.bytes = 0 ∧ place x y + e.bytes ≤ e.surfaceBytes pitch height) ∧
      (∀ x y x' y', x < width → y < height → x' < width → y' < height → (x, y) ≠ (x', y') →
        place x y + e.bytes ≤ place x' y' ∨ place x' y' + e.bytes ≤ place x y) ∧
      (∀ linear tiled : List Byte, linear.length = width * height * e.bytes →
        e.surfaceBytes pitch height ≤ tiled.length → tiled.length < 2 ^ 63 →
          ∃ written, tile o e linear tiled width height pitch pipeBankXor =
              .ok (written, some ()) ∧
            detile o e written width height pitch pipeBankXor = .ok linear) ∧
      ∀ linear tiled : List Byte, ∃ written answer,
        tile o e linear tiled width height pitch pipeBankXor = .ok (written, answer) ∧
          written.length = tiled.length ∧
          ∀ i, (∀ x y, x < width → y < height → ¬ (place x y ≤ i ∧ i < place x y + e.bytes)) →
            written.getD i 0 = tiled.getD i 0 := by
  have h := Equation.equations_sound e he
  have hblock := blockBytes_le e he
  obtain ⟨place, hplace, hapart, hround, hframe⟩ :=
    Equation.places_round_trip h width height pitch pipeBankXor hpitch hxor
  refine ⟨surfaceBytes_ok o (blockBytes_pos h) hfits, place, ?_, hapart, ?_, ?_⟩
  · intro x y hx hy
    obtain ⟨hoffset, haligned, hinside⟩ := hplace x y hx hy
    have hpos := bytes_pos h
    exact ⟨offset_ok o (blockBytes_pos h) hoffset (Nat.lt_of_lt_of_le (by omega) hfits.le),
      haligned, hinside⟩
  · intro linear tiled hlen hlong hshort
    obtain ⟨written, hwritten, hdetiled⟩ := hround linear tiled hlen hlong
    have himage : width * height * e.bytes ≤ e.surfaceBytes pitch height := image_le h hpitch
    refine ⟨written, ?_, ?_⟩
    · rw [tile_ok o h hblock hxor hpitch hword hfits, hwritten]
    · rw [detile_ok o h hblock hxor hpitch hword hfits written (by omega), hdetiled]
      rfl
  · intro linear tiled
    refine ⟨_, _, tile_ok o h hblock hxor hpitch hword hfits linear tiled, ?_, ?_⟩
    · apply (hframe linear tiled (e.surfaceBytes pitch height) _).1
      intro x y hx hy hinside
      have hend := (hplace x y hx hy).2.2
      omega
    · intro i hnone
      exact (hframe linear tiled i hnone).2

end Fits

/-- The smallest blocks at the largest elements. -/
def smallBlocks : Equation where
  mode := .tiled256BS
  bytes := 16
  block := (4, 4)
  blockBytes := 256
  x := [0x40, 0x80]
  y := [0x10, 0x20]
  xAbove := noneAbove
  yAbove := noneAbove

/-- Three by two elements in a surface of pitch five. -/
theorem equation_round_trip_small :
    ∃ written, tile .wraps smallBlocks (List.replicate 96 7#8) (List.replicate 512 0#8) 3 2 5 0 =
        .ok (written, some ()) ∧
      detile .wraps smallBlocks written 3 2 5 0 = .ok (List.replicate 96 7#8) := by
  obtain ⟨-, place, -, -, htile, -⟩ := equation_round_trip .wraps
    (by decide : smallBlocks ∈ equations) (Or.inl rfl : smallBlocks.Admits 0)
    (by decide : 3 ≤ 5) (by decide) (by decide : smallBlocks.surfaceBytes 5 2 < 2 ^ 64)
  exact htile _ _ List.length_replicate (by rw [List.length_replicate]; decide)
    (by rw [List.length_replicate]; decide)

/-- Down a column of the widest surface an element's block starts past the word: a build that
checks stops there, and in one that does not it is placed over the first. -/
theorem places_differ : smallBlocks ∈ equations ∧
    ∀ o : Overflow, ¬ ∃ place : Nat → Nat → Nat,
      (∀ x y, x < 1 → y < 2 ^ 28 + 1 → offset o smallBlocks x y (2 ^ 32 - 1) 0 = .ok (place x y)) ∧
      (∀ x y x' y', x < 1 → y < 2 ^ 28 + 1 → x' < 1 → y' < 2 ^ 28 + 1 → (x, y) ≠ (x', y') →
        place x y + 16 ≤ place x' y' ∨ place x' y' + 16 ≤ place x y) := by
  refine ⟨by decide, ?_⟩
  rintro o ⟨place, hplace, hapart⟩
  have hfirst := hplace 0 0 (by decide) (by decide)
  have hpast := hplace 0 (2 ^ 28) (by decide) (by decide)
  cases o with
  | traps =>
      have hstops : offset .traps smallBlocks 0 (2 ^ 28) (2 ^ 32 - 1) 0 = fault := by
        decide +kernel
      rw [hstops] at hpast
      cases hpast
  | wraps =>
      have horigin : offset .wraps smallBlocks 0 0 (2 ^ 32 - 1) 0 = .ok 0 := by decide +kernel
      have hover : offset .wraps smallBlocks 0 (2 ^ 28) (2 ^ 32 - 1) 0 = .ok 0 := by
        decide +kernel
      rw [horigin] at hfirst
      rw [hover] at hpast
      have heq : place 0 (2 ^ 28) = place 0 0 :=
        (Except.ok.inj hpast).symm.trans (Except.ok.inj hfirst)
      have hne := hapart 0 0 0 (2 ^ 28) (by decide) (by decide) (by decide) (by decide) (by decide)
      omega

end Orbistoun.Gpu.Tiling.Machine
