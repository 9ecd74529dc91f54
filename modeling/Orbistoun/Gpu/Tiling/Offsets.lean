import Orbistoun.Gpu.Tiling.Equations

/-!
# Surface layouts

The byte offset of a texel in each tiled layout, as the layout's own function walks the bits of its
coordinates.  Each is the offset its mode's equation gives at its element size.
-/

namespace Orbistoun.Gpu.Tiling

open Lib.Flips

def flipEach (places : List Nat) (value offset : Nat) : Nat :=
  places.zipIdx.foldl
    (fun offset (place, bit) => if (value >>> bit) &&& 1 == 1 then offset ^^^ place else offset)
    offset

def setEach (places : List Nat) (value offset : Nat) : Nat :=
  places.zipIdx.foldl
    (fun offset (place, bit) => if (value >>> bit) &&& 1 == 1 then offset ||| place else offset)
    offset

/-- The block of texel `(x, y)`, blocks row-major across a surface `width` texels wide. -/
def blockOf (x y width blockWidth blockHeight : Nat) : Nat :=
  y / blockHeight * divCeil width blockWidth + x / blockWidth

/-- The byte offset of texel `(x, y)`: its block's, and the exclusive-or of its bits' places. -/
def blockOffset (blockBytes : Nat) (x y width : Nat) (block : Nat × Nat)
    (xBits yBits : List Nat) : Nat :=
  blockOf x y width block.1 block.2 * blockBytes + flipEach yBits y (flipEach xBits x 0)

def BLOCK_BYTES : Nat := 64 * 1024

def singleBlockExtent : Nat := 128

/-- The byte offset of texel `(x, y)` within a 64 KiB `R_X` tile of four-byte texels. -/
def tiledByteOffset64kbRxBpp4 (x y : Nat) : Nat :=
  let offset := 0
  let offset := offset ^^^ ((y <<< 4) &&& 0x0070)
  let offset := offset ^^^ ((y <<< 5) &&& 0x0f00)
  let offset := offset ^^^ ((y <<< 9) &&& 0x1000)
  let offset := offset ^^^ ((y <<< 8) &&& 0x4000)
  let offset := offset ^^^ ((x <<< 2) &&& 0x000c)
  let offset := offset ^^^ ((x <<< 5) &&& 0x0380)
  let offset := offset ^^^ ((x <<< 4) &&& 0x0400)
  let offset := offset ^^^ ((x <<< 6) &&& 0x0800)
  offset ^^^ ((x <<< 9) &&& 0xa000)

def tiledByteOffset64kbRxBpp4Surface (x y width : Nat) : Nat :=
  blockOf x y width singleBlockExtent singleBlockExtent * BLOCK_BYTES +
    tiledByteOffset64kbRxBpp4 (x % singleBlockExtent) (y % singleBlockExtent)

def rxBpp1XBits : List Nat := [0x1, 0x2, 0x4, 0x140, 0x200, 0x800, 0x2400, 0x8000]
def rxBpp1YBits : List Nat := [0x10, 0x8, 0x20, 0x100, 0x280, 0x400, 0x1800, 0x4000]

def tiledByteOffset64kbRxBpp1Surface (x y width : Nat) : Nat :=
  blockOffset BLOCK_BYTES x y width (256, 256) rxBpp1XBits rxBpp1YBits

def tiledByteOffset64kbRxBpp1Xor (x y width pipeBankXor : Nat) : Nat :=
  tiledByteOffset64kbRxBpp1Surface x y width ^^^ (pipeBankXor <<< 8)

def rxBpp8XBits : List Nat := [0x8, 0x20, 0x40, 0x2100, 0x200, 0x800, 0x8400]
def rxBpp8YBits : List Nat := [0x10, 0x80, 0x1000, 0x100, 0x4200, 0x400]
def rxBpp8YAbove : Nat := 0x800

def tiledByteOffset64kbRxBpp8Surface (x y width : Nat) : Nat :=
  let offset := flipEach rxBpp8YBits y (flipEach rxBpp8XBits x 0)
  let offset := if (y >>> rxBpp8YBits.length) &&& 1 == 1 then offset ^^^ rxBpp8YAbove else offset
  blockOf x y width 128 64 * BLOCK_BYTES + offset

def rxBpp16XBits : List Nat := [0x10, 0x40, 0x2000, 0x100, 0x8200, 0x800]
def rxBpp16YBits : List Nat := [0x20, 0x80, 0x1000, 0x4100, 0x200, 0x400]
def rxBpp16XAbove : Nat := 0x400
def rxBpp16YAbove : Nat := 0x800

def tiledByteOffset64kbRxBpp16Surface (x y width : Nat) : Nat :=
  let offset := flipEach rxBpp16YBits y (flipEach rxBpp16XBits x 0)
  let offset := if (x >>> rxBpp16XBits.length) &&& 1 == 1 then offset ^^^ rxBpp16XAbove else offset
  let offset := if (y >>> rxBpp16YBits.length) &&& 1 == 1 then offset ^^^ rxBpp16YAbove else offset
  blockOf x y width 64 64 * BLOCK_BYTES + offset

def rxBpp2XBits : List Nat := [0x2, 0x4, 0x8, 0x180, 0x200, 0x800, 0x2400, 0x8000]
def rxBpp2YBits : List Nat := [0x10, 0x20, 0x40, 0x100, 0x1200, 0x400, 0x4800]

def tiledByteOffset64kbRxBpp2Surface (x y width : Nat) : Nat :=
  blockOffset BLOCK_BYTES x y width (256, 128) rxBpp2XBits rxBpp2YBits

def zxBpp4XBits : List Nat := [0x4, 0x10, 0x40, 0x100, 0x2200, 0x800, 0x8400]
def zxBpp4YBits : List Nat := [0x8, 0x20, 0x80, 0x1100, 0x200, 0x400, 0x4800]
def zxBpp2XBits : List Nat := [0x2, 0x8, 0x20, 0x180, 0x200, 0x800, 0x2400, 0x8000]
def zxBpp2YBits : List Nat := [0x4, 0x10, 0x40, 0x100, 0x1200, 0x400, 0x4800]

/-- The offset in a surface of 64 KiB blocks, before any pipe-bank XOR. -/
def xorBlockOffset (x y width : Nat) (block : Nat × Nat) (xBits yBits : List Nat) : Nat :=
  blockOffset BLOCK_BYTES x y width block xBits yBits

def tiledByteOffset64kbZxBpp4 (x y width : Nat) : Nat :=
  xorBlockOffset x y width (128, 128) zxBpp4XBits zxBpp4YBits

def tiledByteOffset64kbZxBpp2 (x y width : Nat) : Nat :=
  xorBlockOffset x y width (256, 128) zxBpp2XBits zxBpp2YBits

def dxBpp16XBits : List Nat := [0x10, 0x40, 0x200, 0x800, 0x2400, 0x8100]
def dxBpp16YBits : List Nat := [0x20, 0x80, 0x100, 0x400, 0x1800, 0x4200]

def tiledByteOffset64kbDxBpp16Xor (x y width pipeBankXor : Nat) : Nat :=
  blockOf x y width 64 64 * BLOCK_BYTES +
    (flipEach dxBpp16YBits y (flipEach dxBpp16XBits x 0) ^^^ (pipeBankXor <<< 8))

def sBpp16XBits : List Nat := [0x40, 0x80, 0x200, 0x800, 0x2000, 0x8000]
def sBpp16YBits : List Nat := [0x10, 0x20, 0x100, 0x400, 0x1000, 0x4000]

def tiledByteOffset64kbSBpp16 (x y width : Nat) : Nat :=
  blockOffset BLOCK_BYTES x y width (64, 64) sBpp16XBits sBpp16YBits

def S256_BLOCK_BYTES : Nat := 256

def tiledByteOffset256bSBpp16 (x y width : Nat) : Nat :=
  blockOffset S256_BLOCK_BYTES x y width (4, 4) (sBpp16XBits.take 2) (sBpp16YBits.take 2)

def tiledByteOffset256bSBpp4 (x y width : Nat) : Nat :=
  blockOffset S256_BLOCK_BYTES x y width (8, 8) [0x4, 0x8, 0x80] [0x10, 0x20, 0x40]

def tiledByteOffset256bSBpp8 (x y width : Nat) : Nat :=
  blockOffset S256_BLOCK_BYTES x y width (8, 4) [0x8, 0x40, 0x80] [0x10, 0x20]

def S4_BLOCK_BYTES : Nat := 4096

def tiledByteOffset4kbSBpp16 (x y width : Nat) : Nat :=
  blockOffset S4_BLOCK_BYTES x y width (16, 16) (sBpp16XBits.take 4) (sBpp16YBits.take 4)

def tiledByteOffset4kbSBpp8 (x y width : Nat) : Nat :=
  blockOffset S4_BLOCK_BYTES x y width (32, 16) [0x8, 0x40, 0x80, 0x200, 0x800]
    [0x10, 0x20, 0x100, 0x400]

def tiledByteOffset64kbSBpp8 (x y width : Nat) : Nat :=
  blockOffset BLOCK_BYTES x y width (128, 64) [0x8, 0x40, 0x80, 0x200, 0x800, 0x2000, 0x8000]
    [0x10, 0x20, 0x100, 0x400, 0x1000, 0x4000]

def tiledByteOffset4kbSBpp2 (x y width : Nat) : Nat :=
  blockOffset S4_BLOCK_BYTES x y width (64, 32) [0x2, 0x4, 0x8, 0x80, 0x200, 0x800]
    [0x10, 0x20, 0x40, 0x100, 0x400]

def tiledByteOffset4kbSBpp1 (x y width : Nat) : Nat :=
  blockOffset S4_BLOCK_BYTES x y width (64, 64) [0x1, 0x2, 0x4, 0x8, 0x200, 0x800]
    [0x10, 0x20, 0x40, 0x80, 0x100, 0x400]

/-- The four-byte standard layouts put each bit's place in, where the others exclusive-or it. -/
def setBlockOffset (blockBytes : Nat) (x y width : Nat) (block : Nat × Nat)
    (xBits yBits : List Nat) : Nat :=
  blockOf x y width block.1 block.2 * blockBytes + setEach yBits y (setEach xBits x 0)

def tiledByteOffset4kbSBpp4 (x y width : Nat) : Nat :=
  setBlockOffset S4_BLOCK_BYTES x y width (32, 32) [0x4, 0x8, 0x80, 0x200, 0x800]
    [0x10, 0x20, 0x40, 0x100, 0x400]

def tiledByteOffset64kbSBpp4 (x y width : Nat) : Nat :=
  setBlockOffset BLOCK_BYTES x y width (128, 128) [0x4, 0x8, 0x80, 0x200, 0x800, 0x2000, 0x8000]
    [0x10, 0x20, 0x40, 0x100, 0x400, 0x1000, 0x4000]

def DX_BLOCK_BYTES : Nat := 4096

def dxXBits : List Nat := [0x4, 0x8, 0x80, 0x200, 0x800, 0x400, 0x100]
def dxYBits : List Nat := [0x10, 0x20, 0x40, 0x100, 0x400, 0x800, 0x200]
def dx4Bpp16XBits : List Nat := [0x10, 0x40, 0x200, 0x800, 0x400, 0x100]
def dx4Bpp16YBits : List Nat := [0x20, 0x80, 0x100, 0x400, 0x800, 0x200]

def tiledByteOffset4kbDxBpp16Surface (x y width : Nat) : Nat :=
  blockOffset DX_BLOCK_BYTES x y width (16, 16) dx4Bpp16XBits dx4Bpp16YBits

def tiledByteOffset4kbDxBpp4Surface (x y width : Nat) : Nat :=
  blockOffset DX_BLOCK_BYTES x y width (32, 32) dxXBits dxYBits

/-- How a surface's texels lie in memory. -/
inductive SurfaceLayout where
  | rx64Kb
  | dx4Kb
  | linear
  | rx64KbBpp1
  | linearBpp1
  | dx64KbBpp16
  | dx4KbBpp16
  | s64Kb
  | s64KbBpp16
  | s4Kb
  | s4KbBpp16
  | s256BBpp16
  | s256B
  | s256BBpp8
  | s4KbBpp8
  | s64KbBpp8
  | s4KbBpp1
  | s4KbBpp2
  | rx64KbBpp8
  | rx64KbBpp2
  | rx64KbBpp16
  | zx64Kb
  | zx64KbBpp2
  deriving DecidableEq, Repr

namespace SurfaceLayout

/-- The layout a swizzle mode names, or `none` for one not modelled. -/
def of : SwizzleMode → Option SurfaceLayout
  | .tiled64KbRX => some .rx64Kb
  | .tiled4KbDX => some .dx4Kb
  | .tiled64KbDX => some .dx64KbBpp16
  | .linear => some .linear
  | .tiled64KbS => some .s64Kb
  | .tiled4KbS => some .s4Kb
  | .tiled256BS => some .s256B
  | .tiled64KbZX => some .zx64Kb
  | .other _ => none

/-- The bytes a texel of a layout takes where it is a form of one size alone. -/
def soleSize : SurfaceLayout → Option Nat
  | .dx64KbBpp16 | .dx4KbBpp16 | .s64KbBpp16 | .s4KbBpp16 | .s256BBpp16 | .rx64KbBpp16 => some 16
  | .s4KbBpp8 | .s64KbBpp8 | .rx64KbBpp8 | .s256BBpp8 => some 8
  | .s4KbBpp1 => some 1
  | .rx64KbBpp2 | .zx64KbBpp2 | .s4KbBpp2 => some 2
  | _ => none

/-- This layout's counterpart at `bytesPerTexel`, or `none` where that size is not modelled. -/
def atBytesPerTexel (layout : SurfaceLayout) (bytesPerTexel : Nat) : Option SurfaceLayout :=
  match layout.soleSize with
  | some bytes => if bytesPerTexel = bytes then some layout else none
  | none =>
      match layout, bytesPerTexel with
      | .zx64Kb, 2 => some .zx64KbBpp2
      | .dx4Kb, 16 => some .dx4KbBpp16
      | .s64Kb, 16 => some .s64KbBpp16
      | .s64Kb, 8 => some .s64KbBpp8
      | .s4Kb, 16 => some .s4KbBpp16
      | .s256B, 16 => some .s256BBpp16
      | .s256B, 8 => some .s256BBpp8
      | .s4Kb, 8 => some .s4KbBpp8
      | .s4Kb, 1 => some .s4KbBpp1
      | .s4Kb, 2 => some .s4KbBpp2
      | .rx64Kb, 1 => some .rx64KbBpp1
      | .rx64Kb, 8 => some .rx64KbBpp8
      | .rx64Kb, 2 => some .rx64KbBpp2
      | .rx64Kb, 16 => some .rx64KbBpp16
      | .linear, 1 => some .linearBpp1
      | layout, 4 => some layout
      | _, _ => none

def texelLog2 : SurfaceLayout → Nat
  | .rx64KbBpp1 | .linearBpp1 | .s4KbBpp1 => 0
  | .rx64KbBpp2 | .zx64KbBpp2 | .s4KbBpp2 => 1
  | .rx64Kb | .dx4Kb | .linear | .s4Kb | .s64Kb | .s256B | .zx64Kb => 2
  | .s4KbBpp8 | .s64KbBpp8 | .rx64KbBpp8 | .s256BBpp8 => 3
  | .dx64KbBpp16 | .dx4KbBpp16 | .s64KbBpp16 | .s4KbBpp16 | .s256BBpp16 | .rx64KbBpp16 => 4

/-- `log2` of the bytes one block holds; a linear surface's "block" is a row's 256 bytes. -/
def blockLog2 : SurfaceLayout → Nat
  | .rx64Kb | .rx64KbBpp1 | .rx64KbBpp8 | .rx64KbBpp2 | .rx64KbBpp16 | .dx64KbBpp16 | .s64Kb
  | .s64KbBpp8 | .s64KbBpp16 | .zx64Kb | .zx64KbBpp2 => 16
  | .dx4Kb | .dx4KbBpp16 | .s4Kb | .s4KbBpp16 | .s4KbBpp8 | .s4KbBpp2 | .s4KbBpp1 => 12
  | .linear | .linearBpp1 | .s256B | .s256BBpp8 | .s256BBpp16 => 8

def eightByteOffset (layout : SurfaceLayout) (x y width : Nat) : Nat :=
  match layout with
  | .rx64KbBpp8 => tiledByteOffset64kbRxBpp8Surface x y width
  | .s64KbBpp8 => tiledByteOffset64kbSBpp8 x y width
  | .s256BBpp8 => tiledByteOffset256bSBpp8 x y width
  | _ => tiledByteOffset4kbSBpp8 x y width

def sixteenByteOffset (layout : SurfaceLayout) (x y width pipeBankXor : Nat) : Nat :=
  match layout with
  | .dx4KbBpp16 => tiledByteOffset4kbDxBpp16Surface x y width
  | .s64KbBpp16 => tiledByteOffset64kbSBpp16 x y width
  | .s4KbBpp16 => tiledByteOffset4kbSBpp16 x y width
  | .s256BBpp16 => tiledByteOffset256bSBpp16 x y width
  | .rx64KbBpp16 => tiledByteOffset64kbRxBpp16Surface x y width
  | _ => tiledByteOffset64kbDxBpp16Xor x y width pipeBankXor

def twoByteOffset (layout : SurfaceLayout) (x y width : Nat) : Nat :=
  match layout with
  | .zx64KbBpp2 => tiledByteOffset64kbZxBpp2 x y width
  | .s4KbBpp2 => tiledByteOffset4kbSBpp2 x y width
  | _ => tiledByteOffset64kbRxBpp2Surface x y width

def fourByteOffset (layout : SurfaceLayout) (x y width : Nat) : Nat :=
  match layout with
  | .s4Kb => tiledByteOffset4kbSBpp4 x y width
  | .s64Kb => tiledByteOffset64kbSBpp4 x y width
  | .s256B => tiledByteOffset256bSBpp4 x y width
  | .zx64Kb => tiledByteOffset64kbZxBpp4 x y width
  | _ => tiledByteOffset4kbDxBpp4Surface x y width

/-- The byte offset of texel `(x, y)` under `pipeBankXor`; `none` for the linear layouts and
four-byte `64KB_R_X`, which are read by tables of their own. -/
def texelByteOffset (layout : SurfaceLayout) (x y width pipeBankXor : Nat) : Option Nat :=
  match layout with
  | .dx4Kb | .s4Kb | .s64Kb | .s256B | .zx64Kb => some (layout.fourByteOffset x y width)
  | .rx64KbBpp2 | .zx64KbBpp2 | .s4KbBpp2 => some (layout.twoByteOffset x y width)
  | .rx64KbBpp1 => some (tiledByteOffset64kbRxBpp1Xor x y width pipeBankXor)
  | .s4KbBpp1 => some (tiledByteOffset4kbSBpp1 x y width)
  | .s4KbBpp8 | .s64KbBpp8 | .rx64KbBpp8 | .s256BBpp8 => some (layout.eightByteOffset x y width)
  | .dx64KbBpp16 | .dx4KbBpp16 | .s64KbBpp16 | .s4KbBpp16 | .s256BBpp16 | .rx64KbBpp16 =>
      some (layout.sixteenByteOffset x y width pipeBankXor)
  | .rx64Kb | .linear | .linearBpp1 => none

end SurfaceLayout

end Orbistoun.Gpu.Tiling
