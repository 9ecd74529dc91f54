import Orbistoun.Lib.Flips

/-!
# Swizzle equations

Every tiled swizzle mode at every element size a sampled format takes.  A tiled surface is blocks,
row-major across the pitch; within a block each bit of an element's `x` and `y` flips a fixed set of
bits of its byte offset, and the low bits of the block's own column and row may flip more.

An equation places elements by blocks, so its table of columns and rows gives the same offsets.
-/

namespace Orbistoun.Gpu.Tiling

open Lib.Flips

/-- How a surface's pixels are swizzled, as its mode field decodes. -/
inductive SwizzleMode where
  | linear
  | tiled64KbRX
  | tiled4KbDX
  | tiled64KbDX
  | tiled64KbS
  | tiled4KbS
  | tiled256BS
  | tiled64KbZX
  | other (raw : Nat)
  deriving DecidableEq, Repr

structure Equation where
  mode : SwizzleMode
  /-- Bytes an element. -/
  bytes : Nat
  /-- A block's extent in elements, across and down. -/
  block : Nat × Nat
  blockBytes : Nat
  /-- The offset bits each bit of `x` within a block flips, the lowest first. -/
  x : List Nat
  y : List Nat
  /-- The offset bits the lowest three bits of the block's column flip. -/
  xAbove : List Nat
  yAbove : List Nat
  deriving DecidableEq, Repr

def noneAbove : List Nat := [0, 0, 0]

def equations : List Equation :=
  [
    { mode := .tiled64KbRX, bytes := 1, block := (256, 256), blockBytes := 65536
      x := [0x1, 0x2, 0x4, 0x140, 0x200, 0x800, 0x2400, 0x8000]
      y := [0x10, 0x8, 0x20, 0x100, 0x280, 0x400, 0x1800, 0x4000]
      xAbove := noneAbove, yAbove := noneAbove },
    { mode := .tiled64KbRX, bytes := 2, block := (256, 128), blockBytes := 65536
      x := [0x2, 0x4, 0x8, 0x180, 0x200, 0x800, 0x2400, 0x8000]
      y := [0x10, 0x20, 0x40, 0x100, 0x1200, 0x400, 0x4800]
      xAbove := noneAbove, yAbove := noneAbove },
    { mode := .tiled64KbRX, bytes := 4, block := (128, 128), blockBytes := 65536
      x := [0x4, 0x8, 0x80, 0x100, 0x2200, 0x800, 0x8400]
      y := [0x10, 0x20, 0x40, 0x1100, 0x200, 0x400, 0x4800]
      xAbove := noneAbove, yAbove := noneAbove },
    { mode := .tiled64KbRX, bytes := 8, block := (128, 64), blockBytes := 65536
      x := [0x8, 0x20, 0x40, 0x2100, 0x200, 0x800, 0x8400]
      y := [0x10, 0x80, 0x1000, 0x100, 0x4200, 0x400]
      xAbove := noneAbove, yAbove := [0x800, 0, 0] },
    { mode := .tiled64KbRX, bytes := 16, block := (64, 64), blockBytes := 65536
      x := [0x10, 0x40, 0x2000, 0x100, 0x8200, 0x800]
      y := [0x20, 0x80, 0x1000, 0x4100, 0x200, 0x400]
      xAbove := [0x400, 0, 0], yAbove := [0x800, 0, 0] },
    { mode := .tiled64KbDX, bytes := 1, block := (256, 256), blockBytes := 65536
      x := [0x1, 0x2, 0x4, 0x40, 0x200, 0x800, 0x2400, 0x8100]
      y := [0x10, 0x8, 0x20, 0x80, 0x100, 0x400, 0x1800, 0x4200]
      xAbove := noneAbove, yAbove := noneAbove },
    { mode := .tiled64KbDX, bytes := 2, block := (256, 128), blockBytes := 65536
      x := [0x2, 0x4, 0x8, 0x80, 0x200, 0x800, 0x2400, 0x8100]
      y := [0x10, 0x20, 0x40, 0x100, 0x400, 0x1800, 0x4200]
      xAbove := noneAbove, yAbove := noneAbove },
    { mode := .tiled64KbDX, bytes := 4, block := (128, 128), blockBytes := 65536
      x := [0x4, 0x8, 0x80, 0x200, 0x800, 0x2400, 0x8100]
      y := [0x10, 0x20, 0x40, 0x100, 0x400, 0x1800, 0x4200]
      xAbove := noneAbove, yAbove := noneAbove },
    { mode := .tiled64KbDX, bytes := 8, block := (128, 64), blockBytes := 65536
      x := [0x8, 0x20, 0x40, 0x200, 0x800, 0x2400, 0x8100]
      y := [0x10, 0x80, 0x100, 0x400, 0x1800, 0x4200]
      xAbove := noneAbove, yAbove := noneAbove },
    { mode := .tiled64KbDX, bytes := 16, block := (64, 64), blockBytes := 65536
      x := [0x10, 0x40, 0x200, 0x800, 0x2400, 0x8100]
      y := [0x20, 0x80, 0x100, 0x400, 0x1800, 0x4200]
      xAbove := noneAbove, yAbove := noneAbove },
    { mode := .tiled4KbDX, bytes := 1, block := (64, 64), blockBytes := 4096
      x := [0x1, 0x2, 0x4, 0x40, 0x200, 0x800]
      y := [0x10, 0x8, 0x20, 0x80, 0x100, 0x400]
      xAbove := [0x400, 0x100, 0], yAbove := [0x800, 0x200, 0] },
    { mode := .tiled4KbDX, bytes := 2, block := (64, 32), blockBytes := 4096
      x := [0x2, 0x4, 0x8, 0x80, 0x200, 0x800]
      y := [0x10, 0x20, 0x40, 0x100, 0x400]
      xAbove := [0x400, 0x100, 0], yAbove := [0x800, 0x200, 0] },
    { mode := .tiled4KbDX, bytes := 4, block := (32, 32), blockBytes := 4096
      x := [0x4, 0x8, 0x80, 0x200, 0x800]
      y := [0x10, 0x20, 0x40, 0x100, 0x400]
      xAbove := [0x400, 0x100, 0], yAbove := [0x800, 0x200, 0] },
    { mode := .tiled4KbDX, bytes := 8, block := (32, 16), blockBytes := 4096
      x := [0x8, 0x20, 0x40, 0x200, 0x800]
      y := [0x10, 0x80, 0x100, 0x400]
      xAbove := [0x400, 0x100, 0], yAbove := [0x800, 0x200, 0] },
    { mode := .tiled4KbDX, bytes := 16, block := (16, 16), blockBytes := 4096
      x := [0x10, 0x40, 0x200, 0x800]
      y := [0x20, 0x80, 0x100, 0x400]
      xAbove := [0x400, 0x100, 0], yAbove := [0x800, 0x200, 0] },
    { mode := .tiled64KbS, bytes := 1, block := (256, 256), blockBytes := 65536
      x := [0x1, 0x2, 0x4, 0x8, 0x200, 0x800, 0x2000, 0x8000]
      y := [0x10, 0x20, 0x40, 0x80, 0x100, 0x400, 0x1000, 0x4000]
      xAbove := noneAbove, yAbove := noneAbove },
    { mode := .tiled64KbS, bytes := 2, block := (256, 128), blockBytes := 65536
      x := [0x2, 0x4, 0x8, 0x80, 0x200, 0x800, 0x2000, 0x8000]
      y := [0x10, 0x20, 0x40, 0x100, 0x400, 0x1000, 0x4000]
      xAbove := noneAbove, yAbove := noneAbove },
    { mode := .tiled64KbS, bytes := 4, block := (128, 128), blockBytes := 65536
      x := [0x4, 0x8, 0x80, 0x200, 0x800, 0x2000, 0x8000]
      y := [0x10, 0x20, 0x40, 0x100, 0x400, 0x1000, 0x4000]
      xAbove := noneAbove, yAbove := noneAbove },
    { mode := .tiled64KbS, bytes := 8, block := (128, 64), blockBytes := 65536
      x := [0x8, 0x40, 0x80, 0x200, 0x800, 0x2000, 0x8000]
      y := [0x10, 0x20, 0x100, 0x400, 0x1000, 0x4000]
      xAbove := noneAbove, yAbove := noneAbove },
    { mode := .tiled64KbS, bytes := 16, block := (64, 64), blockBytes := 65536
      x := [0x40, 0x80, 0x200, 0x800, 0x2000, 0x8000]
      y := [0x10, 0x20, 0x100, 0x400, 0x1000, 0x4000]
      xAbove := noneAbove, yAbove := noneAbove },
    { mode := .tiled4KbS, bytes := 1, block := (64, 64), blockBytes := 4096
      x := [0x1, 0x2, 0x4, 0x8, 0x200, 0x800]
      y := [0x10, 0x20, 0x40, 0x80, 0x100, 0x400]
      xAbove := noneAbove, yAbove := noneAbove },
    { mode := .tiled4KbS, bytes := 2, block := (64, 32), blockBytes := 4096
      x := [0x2, 0x4, 0x8, 0x80, 0x200, 0x800]
      y := [0x10, 0x20, 0x40, 0x100, 0x400]
      xAbove := noneAbove, yAbove := noneAbove },
    { mode := .tiled4KbS, bytes := 4, block := (32, 32), blockBytes := 4096
      x := [0x4, 0x8, 0x80, 0x200, 0x800]
      y := [0x10, 0x20, 0x40, 0x100, 0x400]
      xAbove := noneAbove, yAbove := noneAbove },
    { mode := .tiled4KbS, bytes := 8, block := (32, 16), blockBytes := 4096
      x := [0x8, 0x40, 0x80, 0x200, 0x800]
      y := [0x10, 0x20, 0x100, 0x400]
      xAbove := noneAbove, yAbove := noneAbove },
    { mode := .tiled4KbS, bytes := 16, block := (16, 16), blockBytes := 4096
      x := [0x40, 0x80, 0x200, 0x800]
      y := [0x10, 0x20, 0x100, 0x400]
      xAbove := noneAbove, yAbove := noneAbove },
    { mode := .tiled64KbZX, bytes := 1, block := (256, 256), blockBytes := 65536
      x := [0x1, 0x4, 0x10, 0x140, 0x200, 0x800, 0x2400, 0x8000]
      y := [0x2, 0x8, 0x20, 0x100, 0x280, 0x400, 0x1800, 0x4000]
      xAbove := noneAbove, yAbove := noneAbove },
    { mode := .tiled64KbZX, bytes := 2, block := (256, 128), blockBytes := 65536
      x := [0x2, 0x8, 0x20, 0x180, 0x200, 0x800, 0x2400, 0x8000]
      y := [0x4, 0x10, 0x40, 0x100, 0x1200, 0x400, 0x4800]
      xAbove := noneAbove, yAbove := noneAbove },
    { mode := .tiled64KbZX, bytes := 4, block := (128, 128), blockBytes := 65536
      x := [0x4, 0x10, 0x40, 0x100, 0x2200, 0x800, 0x8400]
      y := [0x8, 0x20, 0x80, 0x1100, 0x200, 0x400, 0x4800]
      xAbove := noneAbove, yAbove := noneAbove },
    { mode := .tiled64KbZX, bytes := 8, block := (128, 64), blockBytes := 65536
      x := [0x8, 0x20, 0x80, 0x2100, 0x200, 0x800, 0x8400]
      y := [0x10, 0x40, 0x1000, 0x100, 0x4200, 0x400]
      xAbove := noneAbove, yAbove := [0x800, 0, 0] },
    { mode := .tiled256BS, bytes := 1, block := (16, 16), blockBytes := 256
      x := [0x1, 0x2, 0x4, 0x8]
      y := [0x10, 0x20, 0x40, 0x80]
      xAbove := noneAbove, yAbove := noneAbove },
    { mode := .tiled256BS, bytes := 2, block := (16, 8), blockBytes := 256
      x := [0x2, 0x4, 0x8, 0x80]
      y := [0x10, 0x20, 0x40]
      xAbove := noneAbove, yAbove := noneAbove },
    { mode := .tiled256BS, bytes := 4, block := (8, 8), blockBytes := 256
      x := [0x4, 0x8, 0x80]
      y := [0x10, 0x20, 0x40]
      xAbove := noneAbove, yAbove := noneAbove },
    { mode := .tiled256BS, bytes := 8, block := (8, 4), blockBytes := 256
      x := [0x8, 0x40, 0x80]
      y := [0x10, 0x20]
      xAbove := noneAbove, yAbove := noneAbove },
    { mode := .tiled256BS, bytes := 16, block := (4, 4), blockBytes := 256
      x := [0x40, 0x80]
      y := [0x10, 0x20]
      xAbove := noneAbove, yAbove := noneAbove }
  ]

def equation (mode : SwizzleMode) (bytes : Nat) : Option Equation :=
  equations.find? fun e => e.mode == mode && e.bytes == bytes

/-- Whether a mode exclusive-ors the pipe-bank XOR into its offsets. -/
def takesXor : SwizzleMode → Bool
  | .tiled64KbRX | .tiled64KbDX | .tiled4KbDX | .tiled64KbZX => true
  | _ => false

def flipped (terms : List Nat) (value : Nat) : Nat :=
  (terms.zipIdx.filter fun (_, bit) => (value >>> bit) &&& 1 == 1).foldl
    (fun offset (term, _) => offset ^^^ term) 0

/-- `a` over `b`, rounded up. -/
def divCeil (a b : Nat) : Nat := (a + b - 1) / b

namespace Equation

variable (e : Equation)

def blocksAcross (pitch : Nat) : Nat := divCeil pitch e.block.1

/-- Bytes a surface spans: every block it touches, whole. -/
def surfaceBytes (pitch height : Nat) : Nat :=
  e.blocksAcross pitch * divCeil height e.block.2 * e.blockBytes

/-- What the surface's pipe-bank XOR flips inside a block; the shift is of a 32-bit value. -/
def xorTerm (pipeBankXor : Nat) : Nat := ((pipeBankXor <<< 8) % 2 ^ 32) &&& (e.blockBytes - 1)

/-- The byte offset of element `(x, y)` in a surface of `pitch` elements; `none` where the mode
takes no XOR and one is given. -/
def offset (x y pitch pipeBankXor : Nat) : Option Nat :=
  if pipeBankXor != 0 && !takesXor e.mode then none
  else
    let (width, height) := e.block
    let (column, row) := (x / width, y / height)
    let within := flipped e.x (x % width) ^^^ flipped e.y (y % height) ^^^
      flipped e.xAbove column ^^^ flipped e.yAbove row ^^^ e.xorTerm pipeBankXor
    let block := row * e.blocksAcross pitch + column
    some (block * e.blockBytes + within)

end Equation

theorem shifted_bit (v n : Nat) : ((v >>> n) &&& 1 == 1) = v.testBit n := by
  rw [Nat.and_one_is_mod, Nat.shiftRight_eq_div_pow, Nat.testBit_eq_decide_div_mod_eq]
  rfl

/-- A fold over numbered terms that exclusive-ors those picked. -/
theorem foldl_flips (terms : List Nat) (value : Nat) (n offset : Nat) :
    ((terms.zipIdx n).filter fun (_, bit) => (value >>> bit) &&& 1 == 1).foldl
      (fun offset (term, _) => offset ^^^ term) offset = offset ^^^ flips terms (value >>> n) := by
  induction terms generalizing n offset with
  | nil => simp
  | cons term terms ih =>
      have hnext : value >>> (n + 1) = (value >>> n) / 2 := by
        rw [Nat.shiftRight_add, Nat.shiftRight_one]
      rw [List.zipIdx_cons, List.filter_cons, flips_cons, ← hnext]
      simp only [shifted_bit, Nat.testBit_shiftRight, Nat.add_zero] at ih ⊢
      split
      case isTrue hbit => rw [List.foldl_cons, ih, Nat.xor_assoc]
      case isFalse hbit => rw [ih, Nat.zero_xor]

@[simp] theorem flipped_eq (terms : List Nat) (value : Nat) :
    flipped terms value = flips terms value := by
  rw [flipped, foldl_flips, Nat.zero_xor, Nat.shiftRight_zero]

namespace Equation

variable {e : Equation}

/-- What every equation of the table keeps: a block is a power of two of elements each way, its
terms stay inside it and move whole elements, and those of `x` and `y` are independent. -/
structure Sound (e : Equation) : Prop where
  width_eq : e.block.1 = 2 ^ e.x.length
  height_eq : e.block.2 = 2 ^ e.y.length
  bytes_eq : e.bytes = 2 ^ e.bytes.log2
  bytes_le : e.bytes.log2 ≤ 8
  blockBytes_eq : e.blockBytes = 2 ^ e.blockBytes.log2
  bytes_in_block : e.block.1 * e.block.2 * e.bytes = e.blockBytes
  term_lt : ∀ t ∈ e.x ++ e.xAbove ++ (e.y ++ e.yAbove), t < e.blockBytes
  term_aligned : ∀ t ∈ e.x ++ e.xAbove ++ (e.y ++ e.yAbove), t % e.bytes = 0
  independent : Lib.Flips.independent (e.x ++ e.y) = true

instance (e : Equation) : Decidable e.Sound :=
  decidable_of_iff
    (e.block.1 = 2 ^ e.x.length ∧ e.block.2 = 2 ^ e.y.length ∧ e.bytes = 2 ^ e.bytes.log2 ∧
      e.bytes.log2 ≤ 8 ∧ e.blockBytes = 2 ^ e.blockBytes.log2 ∧
      e.block.1 * e.block.2 * e.bytes = e.blockBytes ∧
      (∀ t ∈ e.x ++ e.xAbove ++ (e.y ++ e.yAbove), t < e.blockBytes) ∧
      (∀ t ∈ e.x ++ e.xAbove ++ (e.y ++ e.yAbove), t % e.bytes = 0) ∧
      Lib.Flips.independent (e.x ++ e.y) = true)
    ⟨fun ⟨a, b, c, d, f, g, i, j, k⟩ => ⟨a, b, c, d, f, g, i, j, k⟩,
      fun ⟨a, b, c, d, f, g, i, j, k⟩ => ⟨a, b, c, d, f, g, i, j, k⟩⟩

theorem equations_sound : ∀ e ∈ equations, e.Sound := by decide +kernel

theorem equation_mem {mode : SwizzleMode} {bytes : Nat} (h : equation mode bytes = some e) :
    e ∈ equations := List.mem_of_find?_eq_some h

section Blocks

variable (pitch pipeBankXor : Nat)

theorem Sound.xorTerm_lt (h : e.Sound) : e.xorTerm pipeBankXor < 2 ^ e.blockBytes.log2 := by
  rw [xorTerm, h.blockBytes_eq, Nat.log2_two_pow, Nat.and_two_pow_sub_one_eq_mod]
  exact Nat.mod_lt _ (Nat.two_pow_pos _)

theorem Sound.term_lt_two_pow (h : e.Sound) : ∀ t ∈ e.x ++ e.xAbove ++ (e.y ++ e.yAbove),
    t < 2 ^ e.blockBytes.log2 := by
  intro t ht
  rw [← h.blockBytes_eq]
  exact h.term_lt t ht

def Sound.blocks (h : e.Sound) : Blocks e.blockBytes.log2 where
  rowStart y := y / e.block.2 * e.blocksAcross pitch
  columnStart x := x / e.block.1
  rowTerm y := flips (e.y ++ e.yAbove) y ^^^ e.xorTerm pipeBankXor
  columnTerm x := flips (e.x ++ e.xAbove) x
  columnStart_zero := Nat.zero_div _
  rowTerm_lt y := Nat.xor_lt_two_pow
    (flips_lt (fun t ht => h.term_lt_two_pow t (List.mem_append_right _ ht)) y)
    (h.xorTerm_lt pipeBankXor)
  columnTerm_lt x :=
    flips_lt (fun t ht => h.term_lt_two_pow t (List.mem_append_left _ ht)) x

def Admits (e : Equation) (pipeBankXor : Nat) : Prop := pipeBankXor = 0 ∨ takesXor e.mode = true

theorem Sound.offset_eq (h : e.Sound) (hxor : e.Admits pipeBankXor) (x y : Nat) :
    e.offset x y pitch pipeBankXor = some ((h.blocks pitch pipeBankXor).place x y) := by
  have hadmit : (pipeBankXor != 0 && !takesXor e.mode) = false := by
    rcases hxor with rfl | hmode
    · rfl
    · rw [hmode, Bool.not_true, Bool.and_false]
  have hwithin : flips e.x (x % 2 ^ e.x.length) ^^^ flips e.y (y % 2 ^ e.y.length) ^^^
      flips e.xAbove (x / 2 ^ e.x.length) ^^^ flips e.yAbove (y / 2 ^ e.y.length) ^^^
        e.xorTerm pipeBankXor =
      flips (e.y ++ e.yAbove) y ^^^ e.xorTerm pipeBankXor ^^^ flips (e.x ++ e.xAbove) x := by
    rw [flips_append, flips_append, flips_of_mod, flips_of_mod]
    ac_rfl
  rw [offset, hadmit]
  simp only [Bool.false_eq_true, if_false, flipped_eq, Blocks.place, Blocks.block, Blocks.within,
    Sound.blocks, ← h.blockBytes_eq, h.width_eq, h.height_eq, hwithin]

/-- An admitted offset is the block's start and the exclusive-or of a term of `x`, of `y` and of the
surface. -/
theorem Sound.offset_terms (h : e.Sound) (hxor : e.Admits pipeBankXor) (x y : Nat) :
    e.offset x y pitch pipeBankXor =
      some ((y / e.block.2 * divCeil pitch e.block.1 + x / e.block.1) * e.blockBytes +
        (flips (e.x ++ e.xAbove) x ^^^ flips (e.y ++ e.yAbove) y ^^^ e.xorTerm pipeBankXor)) := by
  have hwithin : flips (e.x ++ e.xAbove) x ^^^ flips (e.y ++ e.yAbove) y ^^^ e.xorTerm pipeBankXor =
      flips (e.y ++ e.yAbove) y ^^^ e.xorTerm pipeBankXor ^^^ flips (e.x ++ e.xAbove) x := by
    ac_rfl
  have hplace : (h.blocks pitch pipeBankXor).place x y =
      (y / e.block.2 * e.blocksAcross pitch + x / e.block.1) * 2 ^ e.blockBytes.log2 +
        (flips (e.y ++ e.yAbove) y ^^^ e.xorTerm pipeBankXor ^^^ flips (e.x ++ e.xAbove) x) := rfl
  rw [h.offset_eq pitch pipeBankXor hxor, hwithin, hplace, ← h.blockBytes_eq, blocksAcross]

theorem offset_refused (hxor : ¬ e.Admits pipeBankXor) (x y : Nat) :
    e.offset x y pitch pipeBankXor = none := by
  have hboth : pipeBankXor ≠ 0 ∧ takesXor e.mode ≠ true := not_or.mp hxor
  have hrefused : (pipeBankXor != 0 && !takesXor e.mode) = true := by
    simp [hboth.1, hboth.2]
  rw [offset, if_pos hrefused]

end Blocks

section Apart

variable {pitch pipeBankXor x y x' y' at' : Nat}

theorem lt_divCeil {a b c : Nat} (hb : 0 < b) (h : a < c) : a / b < divCeil c b := by
  rw [divCeil, Nat.lt_iff_add_one_le, Nat.le_div_iff_mul_le hb]
  have := Nat.div_mul_le_self a b
  rw [Nat.add_one_mul]
  omega

theorem le_divCeil_mul (a : Nat) {b : Nat} (hb : 0 < b) : a ≤ divCeil a b * b := by
  have := Nat.div_add_mod (a + b - 1) b
  have := Nat.mod_lt (a + b - 1) hb
  rw [divCeil, Nat.mul_comm]
  omega

/-- The terms above the block aside, an element's place in its block is one value's terms. -/
theorem flips_block (xs ys : List Nat) {x y : Nat} (hx : x < 2 ^ xs.length) :
    flips (xs ++ ys) (x + 2 ^ xs.length * y) = flips xs x ^^^ flips ys y := by
  have hlow : (x + 2 ^ xs.length * y) % 2 ^ xs.length = x := by
    rw [Nat.add_mul_mod_self_left, Nat.mod_eq_of_lt hx]
  have hhigh : (x + 2 ^ xs.length * y) / 2 ^ xs.length = y := by
    rw [Nat.add_mul_div_left x y (Nat.two_pow_pos _), Nat.div_eq_of_lt hx, Nat.zero_add]
  rw [flips_append, ← flips_of_mod xs, hlow, hhigh]

theorem Sound.width_pos (h : e.Sound) : 0 < e.block.1 := by
  rw [h.width_eq]
  exact Nat.two_pow_pos _

theorem Sound.height_pos (h : e.Sound) : 0 < e.block.2 := by
  rw [h.height_eq]
  exact Nat.two_pow_pos _

/-- Elements of one block lie apart in it. -/
theorem Sound.within_inj (h : e.Sound) (hcolumn : x / e.block.1 = x' / e.block.1)
    (hrow : y / e.block.2 = y' / e.block.2)
    (hwithin : (h.blocks pitch pipeBankXor).within x y = (h.blocks pitch pipeBankXor).within x' y') :
    x = x' ∧ y = y' := by
  rw [h.width_eq] at hcolumn
  rw [h.height_eq] at hrow
  have hx := Nat.mod_lt x (Nat.two_pow_pos e.x.length)
  have hx' := Nat.mod_lt x' (Nat.two_pow_pos e.x.length)
  have hy := Nat.mod_lt y (Nat.two_pow_pos e.y.length)
  have hy' := Nat.mod_lt y' (Nat.two_pow_pos e.y.length)
  -- the surface's term and those above the block are one for both
  have hterms : flips e.x (x % 2 ^ e.x.length) ^^^ flips e.y (y % 2 ^ e.y.length) =
      flips e.x (x' % 2 ^ e.x.length) ^^^ flips e.y (y' % 2 ^ e.y.length) := by
    have hall : flips (e.y ++ e.yAbove) y ^^^ e.xorTerm pipeBankXor ^^^ flips (e.x ++ e.xAbove) x =
        flips (e.y ++ e.yAbove) y' ^^^ e.xorTerm pipeBankXor ^^^ flips (e.x ++ e.xAbove) x' :=
      hwithin
    rw [flips_append, flips_append, flips_append, flips_append, hcolumn, hrow] at hall
    rw [flips_of_mod, flips_of_mod, flips_of_mod, flips_of_mod]
    have hregroup (a b c d f : Nat) : a ^^^ b ^^^ c ^^^ (d ^^^ f) = (d ^^^ a) ^^^ (b ^^^ c ^^^ f) := by
      ac_rfl
    rw [hregroup, hregroup] at hall
    exact Nat.xor_left_inj.mp hall
  have hlt {a b : Nat} (ha : a < 2 ^ e.x.length) (hb : b < 2 ^ e.y.length) :
      a + 2 ^ e.x.length * b < 2 ^ (e.x ++ e.y).length := by
    rw [List.length_append, pow_add]
    calc a + 2 ^ e.x.length * b < 2 ^ e.x.length * (b + 1) := by rw [Nat.mul_add_one]; omega
      _ ≤ 2 ^ e.x.length * 2 ^ e.y.length := Nat.mul_le_mul_left _ hb
  have hone : x % 2 ^ e.x.length + 2 ^ e.x.length * (y % 2 ^ e.y.length) =
      x' % 2 ^ e.x.length + 2 ^ e.x.length * (y' % 2 ^ e.y.length) := by
    apply flips_injective h.independent (hlt hx hy) (hlt hx' hy')
    rw [flips_block _ _ hx, flips_block _ _ hx', hterms]
  have hxmod := congrArg (· % 2 ^ e.x.length) hone
  have hymod := congrArg (· / 2 ^ e.x.length) hone
  simp only [Nat.add_mul_mod_self_left, Nat.mod_mod] at hxmod
  simp only [Nat.add_mul_div_left _ _ (Nat.two_pow_pos e.x.length), Nat.div_eq_of_lt hx,
    Nat.div_eq_of_lt hx', Nat.zero_add] at hymod
  constructor
  · rw [← Nat.div_add_mod x (2 ^ e.x.length), ← Nat.div_add_mod x' (2 ^ e.x.length), hcolumn, hxmod]
  · rw [← Nat.div_add_mod y (2 ^ e.y.length), ← Nat.div_add_mod y' (2 ^ e.y.length), hrow, hymod]

theorem offset_admitted (hat : e.offset x y pitch pipeBankXor = some at') :
    e.Admits pipeBankXor := by
  by_contra hnot
  rw [offset_refused pitch pipeBankXor hnot] at hat
  cases hat

/-- An equation places no two elements of a surface at one offset. -/
theorem Sound.offset_inj (h : e.Sound) (hx : x < pitch) (hx' : x' < pitch)
    (hat : e.offset x y pitch pipeBankXor = some at')
    (hat' : e.offset x' y' pitch pipeBankXor = some at') : x = x' ∧ y = y' := by
  have hxor := offset_admitted hat
  have hplace : (h.blocks pitch pipeBankXor).place x y = (h.blocks pitch pipeBankXor).place x' y' := by
    rw [h.offset_eq pitch pipeBankXor hxor, Option.some.injEq] at hat hat'
    rw [hat, hat']
  obtain ⟨hblock, hwithin⟩ := Blocks.place_inj _ hplace
  obtain ⟨hcolumn, hrow⟩ := rowMajor_inj (lt_divCeil h.width_pos hx) (lt_divCeil h.width_pos hx')
    hblock
  exact h.within_inj hcolumn hrow hwithin

theorem Sound.bytes_dvd_block (h : e.Sound) : e.bytes ∣ e.blockBytes :=
  ⟨e.block.1 * e.block.2, by rw [← h.bytes_in_block, Nat.mul_comm]⟩

theorem Sound.xorTerm_aligned (h : e.Sound) : e.xorTerm pipeBankXor % e.bytes = 0 := by
  have hshift : e.bytes ∣ pipeBankXor <<< 8 := by
    rw [h.bytes_eq, Nat.shiftLeft_eq]
    exact Dvd.dvd.mul_left (Nat.pow_dvd_pow 2 h.bytes_le) pipeBankXor
  have hword : e.bytes ∣ 2 ^ 32 := by
    rw [h.bytes_eq]
    exact Nat.pow_dvd_pow 2 (le_trans h.bytes_le (by decide))
  have hblock : e.bytes ∣ 2 ^ e.blockBytes.log2 := by
    rw [← h.blockBytes_eq]
    exact h.bytes_dvd_block
  rw [xorTerm, h.blockBytes_eq, Nat.and_two_pow_sub_one_eq_mod]
  exact Nat.mod_eq_zero_of_dvd ((Nat.dvd_mod_iff hblock).mpr ((Nat.dvd_mod_iff hword).mpr hshift))

/-- An offset is of a whole element. -/
theorem Sound.offset_aligned (h : e.Sound) (hat : e.offset x y pitch pipeBankXor = some at') :
    at' % e.bytes = 0 := by
  have hterms (terms : List Nat) (hsub : ∀ t ∈ terms, t ∈ e.x ++ e.xAbove ++ (e.y ++ e.yAbove))
      (v : Nat) : flips terms v % e.bytes = 0 := by
    rw [h.bytes_eq]
    apply flips_mod
    intro t ht
    rw [← h.bytes_eq]
    exact h.term_aligned t (hsub t ht)
  have hx := hterms (e.x ++ e.xAbove) (fun t ht => List.mem_append_left _ ht) x
  have hy := hterms (e.y ++ e.yAbove) (fun t ht => List.mem_append_right _ ht) y
  have hxor : e.xorTerm pipeBankXor % e.bytes = 0 := h.xorTerm_aligned
  rw [h.offset_terms pitch pipeBankXor (offset_admitted hat), Option.some.injEq] at hat
  rw [← hat, Nat.add_mod, Nat.mod_eq_zero_of_dvd (Dvd.dvd.mul_left h.bytes_dvd_block _), Nat.zero_add,
    Nat.mod_mod]
  rw [h.bytes_eq] at hx hy hxor ⊢
  rw [Nat.xor_mod_two_pow, Nat.xor_mod_two_pow, hx, hy, hxor]
  rfl

/-- Every element of a surface lies inside the bytes it spans. -/
theorem Sound.offset_fits (h : e.Sound) {height : Nat} (hx : x < pitch) (hy : y < height)
    (hat : e.offset x y pitch pipeBankXor = some at') :
    at' + e.bytes ≤ e.surfaceBytes pitch height := by
  have haligned := h.offset_aligned hat
  have hadmit := offset_admitted hat
  rw [h.offset_eq pitch pipeBankXor hadmit, Option.some.injEq] at hat
  have hblock : (h.blocks pitch pipeBankXor).block x y + 1 ≤
      e.blocksAcross pitch * divCeil height e.block.2 := by
    have hcolumn : x / e.block.1 < e.blocksAcross pitch := lt_divCeil h.width_pos hx
    have hrow : y / e.block.2 + 1 ≤ divCeil height e.block.2 := lt_divCeil h.height_pos hy
    calc y / e.block.2 * e.blocksAcross pitch + x / e.block.1 + 1
        ≤ (y / e.block.2 + 1) * e.blocksAcross pitch := by rw [Nat.add_one_mul]; omega
      _ ≤ divCeil height e.block.2 * e.blocksAcross pitch := Nat.mul_le_mul_right _ hrow
      _ = e.blocksAcross pitch * divCeil height e.block.2 := Nat.mul_comm _ _
  have hlt : at' < e.surfaceBytes pitch height := by
    calc at' < ((h.blocks pitch pipeBankXor).block x y + 1) * 2 ^ e.blockBytes.log2 := by
          rw [← hat, Blocks.place, Nat.add_one_mul]
          exact Nat.add_lt_add_left (Blocks.within_lt _ x y) _
      _ ≤ e.blocksAcross pitch * divCeil height e.block.2 * 2 ^ e.blockBytes.log2 :=
          Nat.mul_le_mul_right _ hblock
      _ = e.surfaceBytes pitch height := by rw [← h.blockBytes_eq, surfaceBytes]
  -- both ends are of whole elements
  obtain ⟨a, ha⟩ := Nat.dvd_of_mod_eq_zero haligned
  obtain ⟨b, hb⟩ : e.bytes ∣ e.surfaceBytes pitch height := Dvd.dvd.mul_left h.bytes_dvd_block _
  rw [ha, hb] at hlt ⊢
  rw [← Nat.mul_add_one]
  exact Nat.mul_le_mul_left _ (Nat.lt_of_mul_lt_mul_left hlt)

end Apart

end Equation

end Orbistoun.Gpu.Tiling
