import Orbistoun.Gpu.Tiling.Table

/-!
# What a table gives is what a texel's own offset gives

Read through a table or by its texels' own offsets a surface is the same image, whatever threads
share its rows.  An image is tiled the same through both where the texel at a time numbers every
texel and has rows to number.
-/

namespace Orbistoun.Gpu.Tiling

open Lib.Flips Lib.Rows

namespace SurfaceLayout

variable (layout : SurfaceLayout)

/-- Whether surfaces of a layout are read through a table. -/
def hasTable : Bool :=
  match layout with
  | .rx64Kb | .linear | .linearBpp1 => false
  | _ => true

def placed (width pipeBankXor x y : Nat) : Nat :=
  (layout.texelByteOffset x y width pipeBankXor).getD 0

def readTexel (tiled : List Word) (map : Word → Word) (at' : Nat) : Option (List Word) :=
  match layout.texelLog2 with
  | 0 | 1 => (readNarrow tiled at' (texelMask layout.texelLog2)).map fun texel => [map texel]
  | _ => (slice tiled (at' / 4) layout.wordsATexel).map (List.map map)

variable {layout} {width height pipeBankXor : Nat}

theorem texelByteOffset_placed (h : layout.hasTable = true) (width pipeBankXor x y : Nat) :
    layout.texelByteOffset x y width pipeBankXor =
      some (layout.placed width pipeBankXor x y) := by
  have hsome : (layout.texelByteOffset x y width pipeBankXor).isSome := by
    cases layout <;> first
      | rfl
      | cases h
  obtain ⟨at', hat⟩ := Option.isSome_iff_exists.mp hsome
  rw [placed, hat]
  rfl

theorem equationOf_tabled (h : layout.hasTable = true) : ∃ e, layout.equationOf = some e :=
  equationOf_isSome (texelByteOffset_placed h 0 0 0 0)

theorem placed_eq {e : Equation} (h : layout.hasTable = true) (he : layout.equationOf = some e)
    (hxor : pipeBankXor < 256) :
    layout.placed width pipeBankXor = fun x y =>
      ((sound_of he).blocks width (layout.foldedXor pipeBankXor)).place x y := by
  funext x y
  have hplaced := texelByteOffset_eq he hxor (texelByteOffset_placed h width pipeBankXor x y)
  rw [(sound_of he).offset_eq width _ (admits_folded he pipeBankXor), Option.some.injEq] at hplaced
  exact hplaced.symm

theorem offsetTable_eq (h : layout.hasTable = true) (width height pipeBankXor : Nat) :
    layout.offsetTable width height pipeBankXor =
      some (OffsetTable.of width height (1 <<< layout.blockLog2)
        (layout.placed width pipeBankXor)) := by
  rw [offsetTable, texelByteOffset_placed h]
  rfl

theorem table_at' (h : layout.hasTable = true) (hxor : pipeBankXor < 256) {x y : Nat}
    (hx : x < width) (hy : y < height) :
    (OffsetTable.of width height (1 <<< layout.blockLog2)
        (layout.placed width pipeBankXor)).at' x y =
      some (layout.placed width pipeBankXor x y) := by
  obtain ⟨e, he⟩ := equationOf_tabled h
  rw [placed_eq h he hxor, ← blockBytes_of he, Nat.one_shiftLeft]
  exact OffsetTable.at'_of _ hx hy

section Detile

variable (tiled : List Word) (map : Word → Word)

theorem slice_one (l : List Word) (start : Nat) : slice l start 1 = (l[start]?).map fun w => [w] := by
  rw [slice]
  split
  case isTrue hfits =>
    rw [List.getElem?_eq_getElem (by omega), List.drop_eq_getElem_cons (by omega)]
    rfl
  case isFalse hshort =>
    rw [List.getElem?_eq_none (by omega)]
    rfl

theorem slice_two (l : List Word) (start : Nat) :
    slice l start 2 = (do let a ← l[start]?; let b ← l[start + 1]?; return [a, b]) := by
  rw [slice]
  split
  case isTrue hfits =>
    rw [List.getElem?_eq_getElem (by omega), List.getElem?_eq_getElem (by omega),
      List.drop_eq_getElem_cons (by omega), List.drop_eq_getElem_cons (by omega)]
    rfl
  case isFalse hshort =>
    have hnone : l[start + 1]? = none := List.getElem?_eq_none (by omega)
    rw [hnone]
    cases l[start]? <;> rfl

theorem mapM_narrow (l : List (Nat × Nat)) (offset : Nat → Nat → Nat) (mask : Word) :
    (l.mapM fun p => (readNarrow tiled (offset p.1 p.2) mask).map map) =
      (l.mapM fun p => (readNarrow tiled (offset p.1 p.2) mask).map fun texel => [map texel]).map
        List.flatten := by
  rw [← mapM_singletons]
  congr 1
  apply mapM_congr
  intro p _
  rw [Option.map_map]
  rfl

theorem mapM_word (l : List (Nat × Nat)) (offset : Nat → Nat → Nat) :
    (l.mapM fun p => (tiled[offset p.1 p.2 / 4]?).map map) =
      (l.mapM fun p => (slice tiled (offset p.1 p.2 / 4) 1).map (List.map map)).map
        List.flatten := by
  rw [← mapM_singletons]
  congr 1
  apply mapM_congr
  intro p _
  rw [slice_one, Option.map_map, Option.map_map]
  rfl

theorem mapM_words (l : List (Nat × Nat)) (offset : Nat → Nat → Nat) :
    (l.mapM fun (p : Nat × Nat) => do
      let first ← tiled[offset p.1 p.2 / 4]?
      let second ← tiled[offset p.1 p.2 / 4 + 1]?
      return [map first, map second]) =
      l.mapM fun p => (slice tiled (offset p.1 p.2 / 4) 2).map (List.map map) := by
  apply mapM_congr
  intro p _
  rw [slice_two]
  cases tiled[offset p.1 p.2 / 4]? with
  | none => rfl
  | some first =>
      cases tiled[offset p.1 p.2 / 4 + 1]? <;> rfl

/-- A texel at a time, each by its own offset. -/
theorem detileByTexel_eq (h : layout.hasTable = true) (width height pipeBankXor : Nat) :
    layout.detileByTexel tiled width height pipeBankXor map =
      ((pairs width height).mapM fun p =>
        layout.readTexel tiled map (layout.placed width pipeBankXor p.1 p.2)).map List.flatten := by
  have hword := mapM_word tiled map (pairs width height)
    (layout.placed width pipeBankXor)
  have hwords := congrArg (Option.map List.flatten) (mapM_words tiled map (pairs width height)
    (layout.placed width pipeBankXor))
  have hnarrow := mapM_narrow tiled map (pairs width height)
    (layout.placed width pipeBankXor) (texelMask layout.texelLog2)
  cases layout <;> first
    | exact hword
    | exact hwords
    | exact hnarrow
    | rfl
    | cases h

variable {table : OffsetTable}

theorem readTexel_narrow (h : layout.texelLog2 < 2) (at' : Nat) :
    layout.readTexel tiled map at' =
      (readNarrow tiled at' (texelMask layout.texelLog2)).map fun texel => [map texel] := by
  unfold readTexel
  split
  case h_3 hzero hone =>
    have : layout.texelLog2 ≠ 0 := hzero
    have : layout.texelLog2 ≠ 1 := hone
    omega
  all_goals rfl

theorem readTexel_wide (h : 2 ≤ layout.texelLog2) (at' : Nat) :
    layout.readTexel tiled map at' =
      (slice tiled (at' / 4) layout.wordsATexel).map (List.map map) := by
  unfold readTexel
  split
  case h_3 => rfl
  all_goals omega

theorem detileLine_eq {y : Nat}
    (htable : ∀ x < width, table.at' x y = some (layout.placed width pipeBankXor x y)) :
    layout.detileLine table tiled width map y =
      ((List.range width).mapM fun x =>
        layout.readTexel tiled map (layout.placed width pipeBankXor x y)).map List.flatten := by
  have hnarrow : ((List.range width).mapM fun x => do
      let at' ← table.at' x y
      (readNarrow tiled at' (texelMask layout.texelLog2)).map map) =
      ((List.range width).mapM fun x =>
        (readNarrow tiled (layout.placed width pipeBankXor x y) (texelMask layout.texelLog2)).map
          fun texel => [map texel]).map List.flatten := by
    rw [← mapM_singletons]
    congr 1
    apply mapM_congr
    intro x hx
    rw [htable x (List.mem_range.mp hx), Option.bind_eq_bind, Option.bind_some, Option.map_map]
    rfl
  have hwide : ((List.range width).mapM fun x => do
      let at' ← table.at' x y
      (slice tiled (at' / 4) layout.wordsATexel).map (List.map map)) =
      (List.range width).mapM fun x =>
        (slice tiled (layout.placed width pipeBankXor x y / 4) layout.wordsATexel).map
          (List.map map) := by
    apply mapM_congr
    intro x hx
    rw [htable x (List.mem_range.mp hx)]
    rfl
  rcases Nat.lt_or_ge layout.texelLog2 2 with hlog | hlog
  · have hread := funext fun x => readTexel_narrow tiled map hlog
      (layout.placed width pipeBankXor x y)
    rw [hread, ← hnarrow]
    unfold detileLine
    split
    case h_3 hzero hone =>
      have : layout.texelLog2 ≠ 0 := hzero
      have : layout.texelLog2 ≠ 1 := hone
      omega
    all_goals rfl
  · have hread := funext fun x => readTexel_wide tiled map hlog
      (layout.placed width pipeBankXor x y)
    rw [hread, ← hwide]
    unfold detileLine
    split
    case h_3 => rfl
    all_goals omega

theorem detileRows_eq {first rows : Nat}
    (htable : ∀ x < width, ∀ dy < rows,
      table.at' x (first + dy) = some (layout.placed width pipeBankXor x (first + dy))) :
    layout.detileRows table tiled width map first rows =
      (((List.range rows).map (first + ·)).mapM fun y =>
        ((List.range width).mapM fun x =>
          layout.readTexel tiled map (layout.placed width pipeBankXor x y)).map List.flatten).map
        List.flatten := by
  rw [detileRows, List.mapM_map]
  congr 1
  apply mapM_congr
  intro dy hdy
  exact detileLine_eq tiled map (fun x hx => htable x hx dy (List.mem_range.mp hdy))

theorem mapM_flatten (rows : List Nat) (line : Nat → Option (List (List Word))) :
    (rows.mapM fun y => (line y).map List.flatten).map List.flatten =
      ((rows.mapM line).map List.flatten).map List.flatten := by
  induction rows with
  | nil => rfl
  | cons y rows ih =>
      rw [List.mapM_cons, List.mapM_cons]
      cases line y with
      | none => rfl
      | some first =>
          cases hrest : rows.mapM fun y => (line y).map List.flatten with
          | none =>
              rw [hrest] at ih
              cases hpieces : rows.mapM line with
              | none => rfl
              | some pieces => rw [hpieces] at ih; cases ih
          | some rest =>
              rw [hrest] at ih
              cases hpieces : rows.mapM line with
              | none => rw [hpieces] at ih; cases ih
              | some pieces =>
                  rw [hpieces] at ih
                  have hflat : rest.flatten = pieces.flatten.flatten := Option.some.inj ih
                  show some (first.flatten ++ rest.flatten) = some (first ++ pieces.flatten).flatten
                  rw [hflat, List.flatten_append]

/-- Read through its table a surface is what it is a texel at a time, whatever threads share its
rows. -/
theorem detileByTable_eq (h : layout.hasTable = true) (hxor : pipeBankXor < 256)
    (parallelism height : Nat) :
    layout.detileByTable parallelism tiled width height pipeBankXor map =
      some (layout.detileByTexel tiled width height pipeBankXor map) := by
  have htable : ∀ x < width, ∀ y < height, (OffsetTable.of width height (1 <<< layout.blockLog2)
      (layout.placed width pipeBankXor)).at' x y = some (layout.placed width pipeBankXor x y) :=
    fun x hx y hy => table_at' h hxor hx hy
  have hpairs := mapM_flatMap (List.range height)
    (fun y => (List.range width).map fun x => (x, y))
    (fun p => layout.readTexel tiled map (layout.placed width pipeBankXor p.1 p.2))
  simp only [List.mapM_map] at hpairs
  have hall : (((List.range height).mapM fun y => ((List.range width).mapM fun x =>
      layout.readTexel tiled map (layout.placed width pipeBankXor x y)).map List.flatten).map
        List.flatten) = layout.detileByTexel tiled width height pipeBankXor map := by
    rw [detileByTexel_eq tiled map h, pairs, hpairs, mapM_flatten]
    rfl
  rw [detileByTable, offsetTable_eq h, Option.map_some]
  congr 1
  split
  case isTrue hnone =>
    have hwidth : width = 0 := by
      have hper : 0 < layout.wordsATexel := by unfold wordsATexel; split <;> decide
      rcases Nat.mul_eq_zero.mp hnone with hw | hw
      · exact hw
      · omega
    have hpairs0 : pairs width height = [] := by
      rw [pairs_eq, hwidth, Nat.mul_zero]
      rfl
    rw [detileByTexel_eq tiled map h, hpairs0]
    rfl
  case isFalse hsome =>
    dsimp only
    split
    case isTrue hone =>
      rw [detileRows_eq tiled map (fun x hx y hy => htable x hx (0 + y) (by omega)), ← hall]
      simp only [Nat.zero_add, List.map_id']
    case isFalse hmany =>
      generalize hthreads : max (min parallelism (height / rowsAThreadLeast)) 1 = threads at hmany ⊢
      have hheight : 0 < height := by
        rw [rowsAThreadLeast] at hthreads
        omega
      have heach : 0 < divCeil height threads := by
        rw [divCeil]
        exact Nat.div_pos (by omega) (by omega)
      have hparts := flatMap_parts heach height _ (Equation.le_divCeil_mul height heach)
      rw [← hall]
      conv => rhs; rw [← hparts]
      rw [mapM_flatMap, ← mapM_flatten]
      congr 1
      apply mapM_congr
      intro part _
      exact detileRows_eq tiled map (fun x hx dy hdy => htable x hx _ (by omega))

end Detile

section Tile

variable (map : Word → Word)

def writeTexel (layout : SurfaceLayout) (map : Word → Word) (tiled : List Word) (at' : Nat)
    (texel : List Word) : Option (List Word) :=
  match layout.texelLog2 with
  | 0 | 1 => writeNarrow tiled at' (texelMask layout.texelLog2) (map (texel.headD 0#32))
  | _ => store tiled (at' / 4) (texel.map map)

theorem writeTexel_narrow (h : layout.texelLog2 < 2) (tiled : List Word) (at' : Nat)
    (texel : List Word) :
    layout.writeTexel map tiled at' texel =
      writeNarrow tiled at' (texelMask layout.texelLog2) (map (texel.headD 0#32)) := by
  unfold writeTexel
  split
  case h_3 hzero hone =>
    have : layout.texelLog2 ≠ 0 := hzero
    have : layout.texelLog2 ≠ 1 := hone
    omega
  all_goals rfl

theorem writeTexel_wide (h : 2 ≤ layout.texelLog2) (tiled : List Word) (at' : Nat)
    (texel : List Word) :
    layout.writeTexel map tiled at' texel = store tiled (at' / 4) (texel.map map) := by
  unfold writeTexel
  split
  case h_3 => rfl
  all_goals omega

/-- The texels of an image written in turn, texel `i` where its coordinates place it. -/
def tileAt (layout : SurfaceLayout) (map : Word → Word) (coordinatesOf : Nat → Nat × Nat)
    (linear : List Word) (width height pipeBankXor : Nat) (tiled : List Word) :
    Option (List Word) :=
  (List.range (height * width)).foldlM (fun tiled i =>
    let (x, y) := coordinatesOf i
    layout.writeTexel map tiled (layout.placed width pipeBankXor x y)
      (piece layout.wordsATexel i linear)) tiled

theorem wordsATexel_pos (layout : SurfaceLayout) : 0 < layout.wordsATexel := by
  unfold wordsATexel
  split <;> decide

theorem wordsATexel_narrow (h : layout.texelLog2 < 2) : layout.wordsATexel = 1 := by
  cases layout <;> first
    | rfl
    | exact absurd h (by decide)

theorem headD_piece (l : List Word) (i : Nat) : (piece 1 i l).headD 0#32 = l.getD i 0#32 := by
  rw [piece, Nat.mul_one]
  rcases Nat.lt_or_ge i l.length with hlt | hge
  · rw [List.drop_eq_getElem_cons hlt, List.getD_eq_getElem?_getD, List.getElem?_eq_getElem hlt]
    rfl
  · rw [List.drop_eq_nil_of_le hge, List.getD_eq_getElem?_getD, List.getElem?_eq_none hge]
    rfl

variable {linear tiled : List Word} {table : OffsetTable}

theorem tileLine_narrow (hlog : layout.texelLog2 < 2) (line : List Word) (y : Nat)
    (tiled : List Word) :
    layout.tileLine table map line y tiled =
      line.zipIdx.foldlM (fun tiled (texel, x) => do
        let at' ← table.at' x y
        writeNarrow tiled at' (texelMask layout.texelLog2) (map texel)) tiled := by
  unfold tileLine
  split
  case h_3 hzero hone =>
    have : layout.texelLog2 ≠ 0 := hzero
    have : layout.texelLog2 ≠ 1 := hone
    omega
  all_goals rfl

theorem tileLine_wide (hlog : 2 ≤ layout.texelLog2) (line : List Word) (y : Nat)
    (tiled : List Word) :
    layout.tileLine table map line y tiled =
      (chunksExact layout.wordsATexel line).zipIdx.foldlM (fun tiled (texel, x) => do
        let at' ← table.at' x y
        store tiled (at' / 4) (texel.map map)) tiled := by
  unfold tileLine
  split
  case h_3 => rfl
  all_goals omega

/-- The rows of an image tiled through a table are its texels in turn. -/
theorem tileLines_eq (hwidth : 0 < width)
    (hlen : linear.length = height * (width * layout.wordsATexel))
    (htable : ∀ x < width, ∀ y < height,
      table.at' x y = some (layout.placed width pipeBankXor x y)) :
    (chunksExact (width * layout.wordsATexel) linear).zipIdx.foldlM (fun tiled (line, y) =>
        layout.tileLine table map line y tiled) tiled =
      layout.tileAt map (fun i => (i % width, i / width)) linear width height pipeBankXor tiled := by
  have hstep : ∀ i ∈ List.range (height * width),
      table.at' (i % width) (i / width) =
        some (layout.placed width pipeBankXor (i % width) (i / width)) := by
    intro i hi
    have hlt := List.mem_range.mp hi
    exact htable _ (Nat.mod_lt i hwidth) _ ((Nat.div_lt_iff_lt_mul hwidth).mpr hlt)
  rcases Nat.lt_or_ge layout.texelLog2 2 with hlog | hlog
  · have hper := wordsATexel_narrow hlog
    rw [hper, Nat.mul_one] at hlen
    simp only [tileLine_narrow map hlog]
    rw [hper, Nat.mul_one, foldlM_lines (fun tiled x y texel => do
      let at' ← table.at' x y
      writeNarrow tiled at' (texelMask layout.texelLog2) (map texel)) hwidth hlen 0#32 tiled]
    apply foldlM_congr
    intro i hi tiled'
    dsimp only
    rw [hstep i hi, writeTexel_narrow map hlog, hper, headD_piece]
    rfl
  · simp only [tileLine_wide map hlog]
    rw [foldlM_pieces (fun tiled x y texel => do
      let at' ← table.at' x y
      store tiled (at' / 4) (texel.map map)) layout.wordsATexel_pos hwidth hlen tiled]
    apply foldlM_congr
    intro i hi tiled'
    dsimp only
    rw [hstep i hi, writeTexel_wide map hlog]
    rfl

theorem coordinates_eq {i width : Nat} (h : i < 2 ^ 32) :
    coordinates i width = (i % width, i / width) := by
  rw [coordinates, Nat.mod_eq_of_lt h]

theorem tileNarrow_eq (hlog : layout.texelLog2 < 2) (hlen : linear.length = height * width)
    (offset : Nat → Nat → Nat) (hoffset : offset = layout.placed width pipeBankXor) :
    tileNarrow offset (texelMask layout.texelLog2) linear width tiled map =
      layout.tileAt map (coordinates · width) linear width height pipeBankXor tiled := by
  rw [tileNarrow, zipIdx_eq linear 0#32, foldlM_map, hlen, hoffset, tileAt]
  apply foldlM_congr
  intro i _ tiled'
  dsimp only
  rw [writeTexel_narrow map hlog, wordsATexel_narrow hlog, headD_piece]

theorem tileWide_eq (hlog : 2 ≤ layout.texelLog2) {per : Nat} (hper : per = layout.wordsATexel)
    (hlen : linear.length = height * width * per) (offset : Nat → Nat → Nat)
    (hoffset : offset = layout.placed width pipeBankXor) :
    tileWide offset per linear width tiled map =
      layout.tileAt map (coordinates · width) linear width height pipeBankXor tiled := by
  have hpos : 0 < per := by
    rw [hper]
    exact layout.wordsATexel_pos
  rw [tileWide, chunksExact_zipIdx hpos hlen, foldlM_map, hoffset, tileAt]
  apply foldlM_congr
  intro i _ tiled'
  dsimp only
  rw [writeTexel_wide map hlog, hper]

/-- The four-byte layouts walk an image's rows. -/
theorem tileRows_eq (hlog : layout.texelLog2 = 2) (hwidth : 0 < width)
    (hlen : linear.length = height * width) (offset : Nat → Nat → Nat)
    (hoffset : offset = layout.placed width pipeBankXor) :
    (chunks width linear).zipIdx.foldlM (fun tiled (row, y) =>
        row.zipIdx.foldlM (fun tiled (texel, x) =>
          store tiled (offset x y / 4) [map texel]) tiled) tiled =
      layout.tileAt map (fun i => (i % width, i / width)) linear width height pipeBankXor tiled := by
  have hper : layout.wordsATexel = 1 := by
    rw [wordsATexel, hlog]
    rfl
  rw [chunks_eq hwidth hlen, foldlM_lines (fun tiled x y texel =>
    store tiled (offset x y / 4) [map texel]) hwidth hlen 0#32 tiled, hoffset, tileAt]
  apply foldlM_congr
  intro i hi tiled'
  have hlt : i < linear.length := by
    rw [hlen]
    exact List.mem_range.mp hi
  have hpiece : piece 1 i linear = [linear.getD i 0#32] := by
    rw [piece, Nat.mul_one, List.drop_eq_getElem_cons hlt, List.getD_eq_getElem?_getD,
      List.getElem?_eq_getElem hlt]
    rfl
  dsimp only
  rw [writeTexel_wide map (by omega), hper, hpiece]
  rfl

/-- What a texel at a time writes, where the sizes are right. -/
def tileEach (layout : SurfaceLayout) (map : Word → Word) (linear : List Word)
    (width height pipeBankXor : Nat) (tiled : List Word) : Option (List Word) :=
  if layout.texelLog2 = 2 then
    if width = 0 then none
    else layout.tileAt map (fun i => (i % width, i / width)) linear width height pipeBankXor tiled
  else layout.tileAt map (coordinates · width) linear width height pipeBankXor tiled

theorem tileByTexel_eq (h : layout.hasTable = true) (linear : List Word)
    (width height pipeBankXor : Nat) (tiled : List Word) :
    layout.tileByTexel linear width height pipeBankXor tiled map =
      if tiled.length < layout.words width height ∨
          linear.length ≠ width * height * layout.wordsATexel then
        some (.error (sizeError (layout.words width height)
          (width * height * layout.wordsATexel) linear tiled))
      else (layout.tileEach map linear width height pipeBankXor tiled).map .ok := by
  by_cases hsize : tiled.length < layout.words width height ∨
      linear.length ≠ width * height * layout.wordsATexel
  · rw [if_pos hsize]
    cases layout <;> exact if_pos hsize
  · rw [if_neg hsize]
    have hlen : linear.length = width * height * layout.wordsATexel := by
      by_contra hne
      exact hsize (Or.inr hne)
    have hnarrow (hlog : layout.texelLog2 < 2) :
        tileNarrow (layout.placed width pipeBankXor) (texelMask layout.texelLog2) linear width tiled
          map = layout.tileAt map (coordinates · width) linear width height pipeBankXor tiled := by
      rw [wordsATexel_narrow hlog, Nat.mul_one, Nat.mul_comm] at hlen
      exact tileNarrow_eq map hlog hlen _ rfl
    have hwide (hlog : 2 ≤ layout.texelLog2) :
        tileWide (layout.placed width pipeBankXor) layout.wordsATexel linear width tiled map =
          layout.tileAt map (coordinates · width) linear width height pipeBankXor tiled := by
      rw [Nat.mul_comm width] at hlen
      exact tileWide_eq map hlog rfl hlen _ rfl
    have hrows (hlog : layout.texelLog2 = 2) : (if width = 0 then none else
        (chunks width linear).zipIdx.foldlM (fun tiled (row, y) =>
          row.zipIdx.foldlM (fun tiled (texel, x) =>
            store tiled (layout.placed width pipeBankXor x y / 4) [map texel]) tiled) tiled) =
        layout.tileEach map linear width height pipeBankXor tiled := by
      have hper : layout.wordsATexel = 1 := by
        rw [wordsATexel, hlog]
        rfl
      rw [hper, Nat.mul_one, Nat.mul_comm] at hlen
      rw [tileEach, if_pos hlog]
      split
      · rfl
      · rename_i hwidth
        exact tileRows_eq map hlog (by omega) hlen _ rfl
    cases layout <;> first
      | exact (if_neg hsize).trans (congrArg (Option.map Except.ok) (hnarrow (by decide)))
      | exact (if_neg hsize).trans (congrArg (Option.map Except.ok) (hwide (by decide)))
      | exact (if_neg hsize).trans (congrArg (Option.map Except.ok) (hrows rfl))
      | cases h

/-- Through a table an image's texels are written in turn, each where its index places it. -/
theorem tileByTable_eq (h : layout.hasTable = true) (hxor : pipeBankXor < 256)
    (linear : List Word) (width height : Nat) (tiled : List Word) :
    layout.tileByTable linear width height pipeBankXor tiled map =
      some (if tiled.length < layout.words width height ∨
          linear.length ≠ width * height * layout.wordsATexel then
        some (.error (sizeError (layout.words width height)
          (width * height * layout.wordsATexel) linear tiled))
      else (layout.tileAt map (fun i => (i % width, i / width)) linear width height pipeBankXor
        tiled).map .ok) := by
  rw [tileByTable, offsetTable_eq h, Option.map_some]
  dsimp only
  congr 1
  split
  case isTrue hsize => rfl
  case isFalse hsize =>
    have hlen : linear.length = width * height * layout.wordsATexel := by
      by_contra hne
      exact hsize (Or.inr hne)
    split
    case isTrue hnone =>
      have hwidth : width = 0 := by
        rcases Nat.mul_eq_zero.mp hnone with hw | hw
        · exact hw
        · exact absurd hw (Nat.ne_of_gt layout.wordsATexel_pos)
      rw [tileAt, hwidth, Nat.mul_zero]
      rfl
    case isFalse hsome =>
      have hwidth : 0 < width := by
        rcases Nat.eq_zero_or_pos width with hw | hw
        · rw [hw, Nat.zero_mul] at hsome
          exact absurd rfl hsome
        · exact hw
      have hlen' : linear.length = height * (width * layout.wordsATexel) := by
        rw [hlen]
        ring
      rw [tileLines_eq map hwidth hlen' (fun x hx y hy => table_at' h hxor hx hy)]

/-- Where a texel at a time numbers every texel, and has rows where it walks rows, it tiles as the
table does. -/
theorem tileEach_eq (linear : List Word) (height : Nat) (tiled : List Word)
    (hrows : layout.texelLog2 = 2 → width ≠ 0)
    (hnumbered : layout.texelLog2 ≠ 2 → width * height ≤ 2 ^ 32) :
    layout.tileEach map linear width height pipeBankXor tiled =
      layout.tileAt map (fun i => (i % width, i / width)) linear width height pipeBankXor tiled := by
  rw [tileEach]
  split
  case isTrue hlog => rw [if_neg (hrows hlog)]
  case isFalse hlog =>
    have hle := hnumbered hlog
    rw [Nat.mul_comm] at hle
    rw [tileAt, tileAt]
    apply foldlM_congr
    intro i hi tiled'
    rw [coordinates_eq (by have := List.mem_range.mp hi; omega)]

end Tile

end SurfaceLayout

end Orbistoun.Gpu.Tiling
