import Orbistoun.Gpu.Tiling.Offsets
import Orbistoun.Lib.Rows

/-!
# Detiling and tiling a surface

A whole surface read out of its tiled words into a linear image and written back, a texel at a time.
Sizes and offsets are exact: an offset no machine word holds is past the end of every slice.  `none`
is a panic: an index past the end, or pieces of no length.
-/

namespace Orbistoun.Gpu.Tiling

open Lib.Rows

abbrev Word := BitVec 32

/-- Why a surface could not be detiled or tiled. -/
inductive DetileError where
  | tiledDataTooShort (neededWords gotWords : Nat)
  deriving DecidableEq, Repr

def slice {α : Type} (l : List α) (start len : Nat) : Option (List α) :=
  if start + len ≤ l.length then some ((l.drop start).take len) else none

def store {α : Type} (l : List α) (start : Nat) (values : List α) : Option (List α) :=
  if start + values.length ≤ l.length then
    some (l.take start ++ values ++ l.drop (start + values.length))
  else none

def texelMask (texelLog2 : Nat) : Word := if texelLog2 = 0 then 0xFF#32 else 0xFFFF#32

def readNarrow (tiled : List Word) (at' : Nat) (mask : Word) : Option Word :=
  (tiled[at' / 4]?).map fun (word : Word) => word.ushiftRight ((at' % 4) * 8) &&& mask

def writeNarrow (tiled : List Word) (at' : Nat) (mask texel : Word) : Option (List Word) :=
  let shift := (at' % 4) * 8
  (tiled[at' / 4]?).map fun word =>
    tiled.set (at' / 4) ((word &&& ~~~(mask <<< shift)) ||| ((texel &&& mask) <<< shift))

def linearRowPitch (width : Nat) : Nat := divCeil width 64 * 64

def BLOCK_WORDS : Nat := BLOCK_BYTES / 4

def xorWords (pipeBankXor : Nat) : Nat := pipeBankXor <<< 6

/-- A column's and a row's word within a four-byte `64KB_R_X` block. -/
def swizzleColumn (x : Nat) : Nat := tiledByteOffset64kbRxBpp4 x 0 / 4
def swizzleRow (y : Nat) : Nat := tiledByteOffset64kbRxBpp4 0 y / 4

/-- Where in its row of blocks a texel of column `x` lies, `dy` rows down the blocks. -/
def wordInBlocks (x dy pipeBankXor : Nat) : Nat :=
  x / singleBlockExtent * BLOCK_WORDS +
    (swizzleColumn (x % singleBlockExtent) ^^^ (swizzleRow dy ^^^ xorWords pipeBankXor))

/-- A four-byte `64KB_R_X` surface detiled, a row of blocks at a time. -/
def detileSurface64kbRxBpp4Mapped (tiled : List Word) (width height pipeBankXor : Nat)
    (map : Word → Word) : Option (List Word) :=
  let blockRowWords := divCeil width singleBlockExtent * BLOCK_WORDS
  if width * singleBlockExtent = 0 then none
  else
    ((List.range (divCeil height singleBlockExtent)).mapM fun by' => do
      let blocks ← slice tiled (by' * blockRowWords) blockRowWords
      (pairs width (min singleBlockExtent (height - by' * singleBlockExtent))).mapM fun (x, dy) =>
        (blocks[wordInBlocks x dy pipeBankXor]?).map map).map List.flatten

/-- Its inverse; a word past the end of the tiled words is not written. -/
def tileMapped (linear : List Word) (width pipeBankXor : Nat) (tiled : List Word)
    (map : Word → Word) : Option (List Word) :=
  let blockRowWords := divCeil width singleBlockExtent * BLOCK_WORDS
  if width * singleBlockExtent = 0 then none
  else
    some ((chunks (width * singleBlockExtent) linear).zipIdx.foldl (fun tiled (rows, by') =>
      (chunks width rows).zipIdx.foldl (fun tiled (line, dy) =>
        line.zipIdx.foldl (fun tiled (texel, x) =>
          let word := wordInBlocks x dy pipeBankXor
          if word < min blockRowWords (tiled.length - by' * blockRowWords) then
            tiled.set (by' * blockRowWords + word) (map texel)
          else tiled) tiled) tiled) tiled)

namespace SurfaceLayout

variable (layout : SurfaceLayout)

/-- A linear layout's row pitch in texels: 256 bytes' worth. -/
def linearPitch (width : Nat) : Nat :=
  divCeil width (256 >>> layout.texelLog2) * (256 >>> layout.texelLog2)

def blockTexels : Nat × Nat :=
  match layout with
  | .rx64Kb => (128, 128)
  | .dx4Kb => (32, 32)
  | .s4Kb => (32, 32)
  | .s64Kb | .zx64Kb => (128, 128)
  | .rx64KbBpp1 => (256, 256)
  | .s4KbBpp2 => (64, 32)
  | .s4KbBpp1 => (64, 64)
  | .rx64KbBpp16 => (64, 64)
  | .dx64KbBpp16 => (64, 64)
  | .s64KbBpp16 => (64, 64)
  | .s4KbBpp16 => (16, 16)
  | .s256BBpp8 => (8, 4)
  | .s256B => (8, 8)
  | .s256BBpp16 => (4, 4)
  | .rx64KbBpp2 | .zx64KbBpp2 => (256, 128)
  | .rx64KbBpp8 => (128, 64)
  | .s64KbBpp8 => (128, 64)
  | .s4KbBpp8 => (32, 16)
  | .dx4KbBpp16 => (16, 16)
  | .linear | .linearBpp1 => (1, 1)

def blockBytes : Nat :=
  match layout with
  | .dx4Kb | .dx4KbBpp16 => DX_BLOCK_BYTES
  | .s4Kb | .s4KbBpp2 | .s4KbBpp1 | .s4KbBpp16 | .s4KbBpp8 => S4_BLOCK_BYTES
  | .s256B | .s256BBpp8 | .s256BBpp16 => S256_BLOCK_BYTES
  | _ => BLOCK_BYTES

/-- Words a whole surface occupies: every block it touches, whole; of a linear one, every row but
the last at its pitch. -/
def words (width height : Nat) : Nat :=
  match layout with
  | .linear => linearRowPitch width * (max height 1 - 1) + width
  | .linearBpp1 => divCeil (layout.linearPitch width * (max height 1 - 1) + width) 4
  | layout =>
      divCeil width layout.blockTexels.1 * divCeil height layout.blockTexels.2 *
        layout.blockBytes / 4

def detileByTexel (tiled : List Word) (width height pipeBankXor : Nat) (map : Word → Word) :
    Option (List Word) :=
  match layout with
  | .rx64Kb => detileSurface64kbRxBpp4Mapped tiled width height pipeBankXor map
  | .dx4Kb | .s4Kb | .s64Kb | .s256B | .zx64Kb =>
      (pairs width height).mapM fun (x, y) =>
        (tiled[layout.fourByteOffset x y width / 4]?).map map
  | .linear =>
      ((List.range height).mapM fun row => slice tiled (row * linearRowPitch width) width).map
        fun rows => rows.flatten.map map
  | .linearBpp1 =>
      let bytes := tiled.flatMap fun word =>
        (List.range 4).map fun i => word.ushiftRight (i * 8) &&& 0xFF#32
      ((List.range height).mapM fun row => slice bytes (row * layout.linearPitch width) width).map
        fun rows => rows.flatten.map map
  | .rx64KbBpp2 | .zx64KbBpp2 | .s4KbBpp2 =>
      (pairs width height).mapM fun (x, y) =>
        (readNarrow tiled (layout.twoByteOffset x y width) 0xFFFF#32).map map
  | .rx64KbBpp1 =>
      (pairs width height).mapM fun (x, y) =>
        (readNarrow tiled (tiledByteOffset64kbRxBpp1Xor x y width pipeBankXor) 0xFF#32).map map
  | .s4KbBpp1 =>
      (pairs width height).mapM fun (x, y) =>
        (readNarrow tiled (tiledByteOffset4kbSBpp1 x y width) 0xFF#32).map map
  | .s4KbBpp8 | .s64KbBpp8 | .rx64KbBpp8 | .s256BBpp8 =>
      ((pairs width height).mapM fun (x, y) => do
        let at' := layout.eightByteOffset x y width / 4
        let first ← tiled[at']?
        let second ← tiled[at' + 1]?
        return [map first, map second]).map List.flatten
  | .dx64KbBpp16 | .dx4KbBpp16 | .s64KbBpp16 | .s4KbBpp16 | .s256BBpp16 | .rx64KbBpp16 =>
      ((pairs width height).mapM fun (x, y) =>
        (slice tiled (layout.sixteenByteOffset x y width pipeBankXor / 4) 4).map
          (List.map map)).map List.flatten

/-- The error of a tile whose words are too few, or whose image is not the surface's. -/
def sizeError (needed words : Nat) (linear tiled : List Word) : DetileError :=
  .tiledDataTooShort (max needed words) (min tiled.length linear.length)

def coordinates (index width : Nat) : Nat × Nat := (index % 2 ^ 32 % width, index % 2 ^ 32 / width)

def tileNarrow (offset : Nat → Nat → Nat) (mask : Word) (linear : List Word) (width : Nat)
    (tiled : List Word) (map : Word → Word) : Option (List Word) :=
  linear.zipIdx.foldlM (fun tiled (texel, index) =>
    let (x, y) := coordinates index width
    writeNarrow tiled (offset x y) mask (map texel)) tiled

def tileWide (offset : Nat → Nat → Nat) (per : Nat) (linear : List Word) (width : Nat)
    (tiled : List Word) (map : Word → Word) : Option (List Word) :=
  (chunksExact per linear).zipIdx.foldlM (fun tiled (texel, index) =>
    let (x, y) := coordinates index width
    store tiled (offset x y / 4) (texel.map map)) tiled

/-- A linear image tiled into a whole surface a texel at a time. -/
def tileByTexel (linear : List Word) (width height pipeBankXor : Nat) (tiled : List Word)
    (map : Word → Word) : Option (Except DetileError (List Word)) :=
  let neededWords := layout.words width height
  let sized (per : Nat) (tile : Option (List Word)) : Option (Except DetileError (List Word)) :=
    let words := width * height * per
    if tiled.length < neededWords ∨ linear.length ≠ words then
      some (.error (sizeError neededWords words linear tiled))
    else tile.map .ok
  match layout with
  | .rx64Kb => sized 1 (tileMapped linear width pipeBankXor tiled map)
  | .dx4Kb | .s4Kb | .s64Kb | .s256B | .zx64Kb =>
      sized 1 (if width = 0 then none
        else (chunks width linear).zipIdx.foldlM (fun tiled (row, y) =>
          row.zipIdx.foldlM (fun tiled (texel, x) =>
            store tiled (layout.fourByteOffset x y width / 4) [map texel]) tiled) tiled)
  | .linear =>
      sized 1 (if width = 0 then none
        else (chunks width linear).zipIdx.foldlM (fun tiled (row, y) =>
          store tiled (y * linearRowPitch width) (row.map map)) tiled)
  | .linearBpp1 =>
      sized 1 (linear.zipIdx.foldlM (fun tiled (texel, index) =>
        writeNarrow tiled (index / width * layout.linearPitch width + index % width) 0xFF#32
          (map texel)) tiled)
  | .rx64KbBpp2 | .zx64KbBpp2 | .s4KbBpp2 =>
      sized 1 (tileNarrow (fun x y => layout.twoByteOffset x y width) 0xFFFF#32 linear width tiled map)
  | .rx64KbBpp1 =>
      sized 1 (tileNarrow (fun x y => tiledByteOffset64kbRxBpp1Xor x y width pipeBankXor) 0xFF#32
        linear width tiled map)
  | .s4KbBpp1 =>
      sized 1 (tileNarrow (fun x y => tiledByteOffset4kbSBpp1 x y width) 0xFF#32 linear width tiled
        map)
  | .s4KbBpp8 | .s64KbBpp8 | .rx64KbBpp8 | .s256BBpp8 =>
      sized 2 (tileWide (fun x y => layout.eightByteOffset x y width) 2 linear width tiled map)
  | .dx64KbBpp16 | .dx4KbBpp16 | .s64KbBpp16 | .s4KbBpp16 | .s256BBpp16 | .rx64KbBpp16 =>
      sized 4 (tileWide (fun x y => layout.sixteenByteOffset x y width pipeBankXor) 4 linear width
        tiled map)

end SurfaceLayout

end Orbistoun.Gpu.Tiling
