import Orbistoun.Gpu.Tiling.Bytes

/-!
# One offset by every route

An equation and its table, a layout and its table, and the two of one mode and size place an element
at one offset.
-/

namespace Orbistoun.Gpu.Tiling

open Lib.Flips

namespace Equation

variable {e : Equation} {width height pitch pipeBankXor : Nat} {table : OffsetTable}

theorem offsetTable_at' (h : e.Sound)
    (htable : e.offsetTable width height pitch pipeBankXor = some table) {x y : Nat}
    (hx : x < width) (hy : y < height) :
    table.at' x y = e.offset x y pitch pipeBankXor := by
  have hxor : e.Admits pipeBankXor := by
    by_contra hnot
    rw [offsetTable, offset_refused pitch pipeBankXor hnot] at htable
    cases htable
  have hoffset := h.offset_eq pitch pipeBankXor hxor
  have hplace : (fun x y => (e.offset x y pitch pipeBankXor).getD 0) =
      (h.blocks pitch pipeBankXor).place := by
    funext x y
    rw [hoffset]
    rfl
  rw [offsetTable, hoffset, hplace] at htable
  cases htable
  have hblock (place : Nat → Nat → Nat) : (OffsetTable.of width height e.blockBytes place).at' x y =
      (OffsetTable.of width height (2 ^ e.blockBytes.log2) place).at' x y := by
    rw [← h.blockBytes_eq]
  rw [hblock, hoffset]
  exact OffsetTable.at'_of _ hx hy

end Equation

namespace SurfaceLayout

def atMode (mode : SwizzleMode) (bytes : Nat) : Option SurfaceLayout :=
  (SurfaceLayout.of mode).bind (·.atBytesPerTexel bytes)

def ownOffset (layout : SurfaceLayout) (x y width : Nat) : Option Nat :=
  match layout with
  | .rx64Kb => some (tiledByteOffset64kbRxBpp4Surface x y width)
  | layout => layout.texelByteOffset x y width 0

theorem equationOf_atMode {mode : SwizzleMode} {bytes : Nat} {layout : SurfaceLayout}
    {e : Equation} (h : atMode mode bytes = some layout) (he : equation mode bytes = some e) :
    layout.equationOf = some e := by
  have hall : ∀ e ∈ equations, (atMode e.mode e.bytes).all (fun l => l.equationOf == some e) = true := by
    decide +kernel
  have hfound := List.find?_some he
  simp only [Bool.and_eq_true, beq_iff_eq] at hfound
  have hthis := hall e (Equation.equation_mem he)
  rw [hfound.1, hfound.2, h] at hthis
  exact eq_of_beq hthis

/-- Where both give an offset for a mode and element size, it is one. -/
theorem ownOffset_eq {mode : SwizzleMode} {bytes : Nat} {layout : SurfaceLayout} {e : Equation}
    (h : atMode mode bytes = some layout) (he : equation mode bytes = some e) (x y width : Nat) :
    e.offset x y width 0 = layout.ownOffset x y width := by
  have hof := equationOf_atMode h he
  by_cases hrx : layout = .rx64Kb
  · subst hrx
    exact rx64Kb_eq hof x y width
  · obtain ⟨at', hat⟩ := texelByteOffset_isSome hof hrx x y width 0
    have hown : layout.ownOffset x y width = layout.texelByteOffset x y width 0 := by
      cases layout <;> first
        | rfl
        | exact absurd rfl hrx
    have hfolded : layout.foldedXor 0 = 0 := by
      cases layout <;> rfl
    have heq := texelByteOffset_eq hof (by decide) hat
    rw [hfolded] at heq
    rw [heq, hown, hat]

section Agree

variable (layout : SurfaceLayout) (width height : Nat) (pipeBankXor : BitVec 8)

/-- The table of a surface gives each texel's own offset, and what is read and written through it is
what is read and written a texel at a time. -/
structure TablesAgree : Prop where
  at' : ∀ table, layout.offsetTable width height pipeBankXor.toNat = some table →
    ∀ x < width, ∀ y < height,
      table.at' x y = layout.texelByteOffset x y width pipeBankXor.toNat
  detile : ∀ parallelism tiled map,
    layout.detileByTable parallelism tiled width height pipeBankXor.toNat map =
      some (layout.detileByTexel tiled width height pipeBankXor.toNat map)
  tile : ∀ linear tiled map,
    layout.tileByTable linear width height pipeBankXor.toNat tiled map =
      some (layout.tileByTexel linear width height pipeBankXor.toNat tiled map)

/-- A texel at a time numbers every texel, and has rows where it walks rows. -/
def Numbered : Prop :=
  if layout.texelLog2 = 2 then width ≠ 0 else width * height ≤ 2 ^ 32

variable {layout width height pipeBankXor}

theorem tile_agrees (h : layout.hasTable = true) (hnumbered : layout.Numbered width height)
    (linear tiled : List Word) (map : Word → Word) :
    layout.tileByTable linear width height pipeBankXor.toNat tiled map =
      some (layout.tileByTexel linear width height pipeBankXor.toNat tiled map) := by
  rw [tileByTable_eq map h pipeBankXor.isLt, tileByTexel_eq map h, tileEach_eq map]
  · intro hlog
    rw [Numbered, if_pos hlog] at hnumbered
    exact hnumbered
  · intro hlog
    rw [Numbered, if_neg hlog] at hnumbered
    exact hnumbered

/-- A surface of no width has no rows to walk, and walking them panics. -/
theorem tile_of_no_width (h : layout.hasTable = true) (hlog : layout.texelLog2 = 2) :
    layout.tileByTable [] 0 height pipeBankXor.toNat [] id = some (some (.ok [])) ∧
      layout.tileByTexel [] 0 height pipeBankXor.toNat [] id = none := by
  have hwords : layout.words 0 height = 0 := by
    cases layout <;> first
      | exact absurd hlog (by decide)
      | (simp [words, divCeil, blockTexels]; done)
      | cases h
  have hsize : ¬ (([] : List Word).length < layout.words 0 height ∨
      ([] : List Word).length ≠ 0 * height * layout.wordsATexel) := by
    rw [hwords]
    simp
  constructor
  · rw [tileByTable_eq id h pipeBankXor.isLt, if_neg hsize, tileAt, Nat.mul_zero]
    rfl
  · rw [tileByTexel_eq id h, if_neg hsize, tileEach, if_pos hlog, if_pos rfl]
    rfl

/-- The modes and sizes both give an offset for, the equations and their tables, and the layouts and
theirs, agree on every offset; what is written through a layout's table is what is written a texel
at a time exactly where that numbers the texels. -/
theorem tables_agree_iff (width height : Nat) (pipeBankXor : BitVec 8) :
    (∀ mode bytes layout e, atMode mode bytes = some layout → equation mode bytes = some e →
      ∀ x y width, e.offset x y width 0 = layout.ownOffset x y width) ∧
    (∀ mode bytes e, equation mode bytes = some e → ∀ width height pitch pipeBankXor table,
      e.offsetTable width height pitch pipeBankXor = some table →
        ∀ x < width, ∀ y < height, table.at' x y = e.offset x y pitch pipeBankXor) ∧
    ∀ layout : SurfaceLayout, layout.hasTable = true →
      (layout.TablesAgree width height pipeBankXor ↔ layout.Numbered width height) := by
  refine ⟨fun _ _ _ _ h he => ownOffset_eq h he, ?_, ?_⟩
  · intro mode bytes e he width height pitch pipeBankXor table htable x hx y hy
    exact Equation.offsetTable_at' (sound_of he) htable hx hy
  · intro layout h
    constructor
    · intro hagree
      by_contra hnot
      by_cases hlog : layout.texelLog2 = 2
      · rw [Numbered, if_pos hlog, not_not] at hnot
        subst hnot
        have htile := hagree.tile [] [] id
        obtain ⟨htable, htexel⟩ :
            layout.tileByTable [] 0 height pipeBankXor.toNat [] id = some (some (.ok [])) ∧
              layout.tileByTexel [] 0 height pipeBankXor.toNat [] id = none :=
          tile_of_no_width h hlog
        rw [htable, htexel] at htile
        cases htile
      · rw [Numbered, if_neg hlog] at hnot
        obtain ⟨linear, tiled, hdiffers⟩ := tile_differs h pipeBankXor.isLt hlog
          (Nat.lt_of_not_le hnot)
        exact hdiffers (hagree.tile linear tiled id)
    · intro hnumbered
      constructor
      · intro table htable x hx y hy
        rw [offsetTable_eq h, Option.some.injEq] at htable
        subst htable
        rw [table_at' h pipeBankXor.isLt hx hy, texelByteOffset_placed h]
      · intro parallelism tiled map
        exact detileByTable_eq tiled map h pipeBankXor.isLt parallelism height
      · exact tile_agrees h hnumbered

/-- An image of no width, and of one row, is tiled through the table and not a texel at a time. -/
theorem tiling_of_no_width :
    tileByTable .dx4Kb [] 0 1 0 [] id = some (some (.ok [])) ∧
      tileByTexel .dx4Kb [] 0 1 0 [] id = none ∧ ¬ TablesAgree .dx4Kb 0 1 0#8 := by
  obtain ⟨htable, htexel⟩ : tileByTable .dx4Kb [] 0 1 (0#8).toNat [] id = some (some (.ok [])) ∧
      tileByTexel .dx4Kb [] 0 1 (0#8).toNat [] id = none := tile_of_no_width rfl rfl
  refine ⟨htable, htexel, ?_⟩
  intro hagree
  have htile := hagree.tile [] [] id
  rw [htable, htexel] at htile
  cases htile

end Agree

end SurfaceLayout

end Orbistoun.Gpu.Tiling
