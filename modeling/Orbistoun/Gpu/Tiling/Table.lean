import Orbistoun.Gpu.Tiling.Surface
import Orbistoun.Gpu.Tiling.Agreement

/-!
# Offset tables

What a column and what a row adds to a texel's offset, read from the offsets of the first row and the
first column.  Of a placement by blocks the table gives every offset, so detiling through it is
detiling a texel at a time; tiling is too, but for the images whose texels 32 bits do not number and
those of no width.
-/

namespace Orbistoun.Gpu.Tiling

open Lib.Flips Lib.Rows

/-- A surface's texel offsets split into what a column and what a row add. -/
structure OffsetTable where
  /-- Each column's block start, and its in-block term with the first texel's taken out. -/
  columns : List (Nat × Nat)
  /-- Each row's block start, and its in-block term. -/
  rows : List (Nat × Nat)
  /-- The in-block bits. -/
  mask : Nat

namespace OffsetTable

/-- `v` with the bits of `mask` cleared. -/
def cleared (v mask : Nat) : Nat := v - (v &&& mask)

def of (width height blockBytes : Nat) (offset : Nat → Nat → Nat) : OffsetTable :=
  let mask := blockBytes - 1
  let origin := offset 0 0
  { columns := (List.range width).map fun x =>
      let at' := offset x 0
      (cleared at' mask - cleared origin mask, (at' ^^^ origin) &&& mask)
    rows := (List.range height).map fun y =>
      let at' := offset 0 y
      (cleared at' mask, at' &&& mask)
    mask }

/-- The byte offset of texel `(x, y)`; `none` past the table. -/
def at' (table : OffsetTable) (x y : Nat) : Option Nat := do
  let (row, rowTerm) ← table.rows[y]?
  let (column, columnTerm) ← table.columns[x]?
  return row + column + ((rowTerm ^^^ columnTerm) &&& table.mask)

theorem place_and_mask {k : Nat} (b : Blocks k) (x y : Nat) :
    b.place x y &&& (2 ^ k - 1) = b.within x y := by
  rw [Nat.and_two_pow_sub_one_eq_mod, b.place_mod]

theorem cleared_place {k : Nat} (b : Blocks k) (x y : Nat) :
    cleared (b.place x y) (2 ^ k - 1) = b.block x y * 2 ^ k := by
  rw [cleared, place_and_mask, Blocks.place, Nat.add_sub_cancel_right]

theorem at'_of {k : Nat} (b : Blocks k) {width height x y : Nat} (hx : x < width) (hy : y < height) :
    (of width height (2 ^ k) b.place).at' x y = some (b.place x y) := by
  have hmask (x y : Nat) : b.place x y &&& (2 ^ k - 1) = b.within x y := place_and_mask b x y
  have hclear (x y : Nat) : cleared (b.place x y) (2 ^ k - 1) = b.block x y * 2 ^ k :=
    cleared_place b x y
  have hcolumn : b.block x 0 * 2 ^ k - b.block 0 0 * 2 ^ k = b.columnStart x * 2 ^ k := by
    rw [← Nat.sub_mul, Blocks.block, Blocks.block, b.columnStart_zero, Nat.add_zero,
      Nat.add_sub_cancel_left]
  have hterm : (b.within 0 y ^^^ (b.within x 0 ^^^ b.within 0 0)) = b.within x y := by
    have hregroup (f g c d : Nat) : (g ^^^ d) ^^^ ((c ^^^ f) ^^^ (c ^^^ d)) = (g ^^^ f) ^^^
        ((c ^^^ c) ^^^ (d ^^^ d)) := by
      ac_rfl
    rw [Blocks.within, Blocks.within, Blocks.within, hregroup, Nat.xor_self, Nat.xor_self,
      Nat.xor_zero, Nat.xor_zero]
    rfl
  have hxor : (b.place x 0 ^^^ b.place 0 0) &&& (2 ^ k - 1) = b.within x 0 ^^^ b.within 0 0 := by
    rw [Nat.and_xor_distrib_right, hmask, hmask]
  have hinside : b.within x y &&& (2 ^ k - 1) = b.within x y := by
    rw [Nat.and_two_pow_sub_one_eq_mod, Nat.mod_eq_of_lt (b.within_lt x y)]
  simp only [at', of, List.getElem?_map, List.getElem?_range hx, List.getElem?_range hy,
    Option.map_some, Option.bind_eq_bind, Option.bind_some, hclear, hmask, hcolumn, hxor, hterm,
    hinside, Option.pure_def]
  rw [← Nat.add_mul, Blocks.place]
  have hzero : b.block 0 y = b.rowStart y := by rw [Blocks.block, b.columnStart_zero, Nat.add_zero]
  rw [hzero, Blocks.block]

end OffsetTable

namespace Equation

variable (e : Equation)

/-- An equation's offsets over a surface as a table; `none` where the XOR is refused. -/
def offsetTable (width height pitch pipeBankXor : Nat) : Option OffsetTable := do
  let _ ← e.offset 0 0 pitch pipeBankXor
  return OffsetTable.of width height e.blockBytes fun x y =>
    (e.offset x y pitch pipeBankXor).getD 0

end Equation

namespace SurfaceLayout

variable (layout : SurfaceLayout)

/-- The table of a surface of this layout; `none` where it places no texel. -/
def offsetTable (width height pipeBankXor : Nat) : Option OffsetTable := do
  let _ ← layout.texelByteOffset 0 0 width pipeBankXor
  return OffsetTable.of width height (1 <<< layout.blockLog2) fun x y =>
    (layout.texelByteOffset x y width pipeBankXor).getD 0

def wordsATexel : Nat :=
  match layout.texelLog2 with
  | 0 | 1 | 2 => 1
  | 3 => 2
  | _ => 4

/-- How many rows a detile hands each thread at least. -/
def rowsAThreadLeast : Nat := 64

def detileLine (table : OffsetTable) (tiled : List Word) (width : Nat) (map : Word → Word)
    (y : Nat) : Option (List Word) :=
  match layout.texelLog2 with
  | 0 | 1 =>
      (List.range width).mapM fun x => do
        let at' ← table.at' x y
        (readNarrow tiled at' (texelMask layout.texelLog2)).map map
  | _ =>
      ((List.range width).mapM fun x => do
        let at' ← table.at' x y
        (slice tiled (at' / 4) layout.wordsATexel).map (List.map map)).map List.flatten

def detileRows (table : OffsetTable) (tiled : List Word) (width : Nat) (map : Word → Word)
    (first rows : Nat) : Option (List Word) :=
  ((List.range rows).mapM fun dy => layout.detileLine table tiled width map (first + dy)).map
    List.flatten

/-- A whole surface detiled through its table, its rows shared among the threads of a host that
runs `parallelism` at once; `none` for a layout that has no table. -/
def detileByTable (parallelism : Nat) (tiled : List Word) (width height pipeBankXor : Nat)
    (map : Word → Word) : Option (Option (List Word)) :=
  (layout.offsetTable width height pipeBankXor).map fun table =>
    if width * layout.wordsATexel = 0 then some []
    else
      let threads := max (min parallelism (height / rowsAThreadLeast)) 1
      if threads = 1 then layout.detileRows table tiled width map 0 height
      else
        let rowsEach := divCeil height threads
        ((List.range (divCeil height rowsEach)).mapM fun part =>
          layout.detileRows table tiled width map (part * rowsEach)
            (min rowsEach (height - part * rowsEach))).map List.flatten

def tileLine (table : OffsetTable) (map : Word → Word) (line : List Word) (y : Nat)
    (tiled : List Word) : Option (List Word) :=
  match layout.texelLog2 with
  | 0 | 1 =>
      line.zipIdx.foldlM (fun tiled (texel, x) => do
        let at' ← table.at' x y
        writeNarrow tiled at' (texelMask layout.texelLog2) (map texel)) tiled
  | _ =>
      (chunksExact layout.wordsATexel line).zipIdx.foldlM (fun tiled (texel, x) => do
        let at' ← table.at' x y
        store tiled (at' / 4) (texel.map map)) tiled

/-- A linear image tiled through the surface's table; `none` for a layout that has none. -/
def tileByTable (linear : List Word) (width height pipeBankXor : Nat) (tiled : List Word)
    (map : Word → Word) : Option (Option (Except DetileError (List Word))) :=
  (layout.offsetTable width height pipeBankXor).map fun table =>
    let per := layout.wordsATexel
    let neededWords := layout.words width height
    let words := width * height * per
    if tiled.length < neededWords ∨ linear.length ≠ words then
      some (.error (sizeError neededWords words linear tiled))
    else if width * per = 0 then some (.ok tiled)
    else
      ((chunksExact (width * per) linear).zipIdx.foldlM (fun tiled (line, y) =>
        layout.tileLine table map line y tiled) tiled).map .ok

end SurfaceLayout

end Orbistoun.Gpu.Tiling
