import Orbistoun.Gpu.Tiling.TableAgrees
import Orbistoun.Lib.Writes

/-!
# A surface's bytes

Words hold four bytes each, the lowest first.  A texel written at its offset puts its bytes there and
changes no other, so an image tiled puts each texel's bytes at its place.
-/

namespace Orbistoun.Gpu.Tiling

open Lib.Flips Lib.Rows Lib.Writes

/-- The byte at an offset of words; zero past them. -/
def byteAt (l : List Word) (i : Nat) : BitVec 8 :=
  ((l[i / 4]?).getD 0#32).extractLsb' (8 * (i % 4)) 8

theorem texelMask_getLsbD {log2 : Nat} (h : log2 < 2) (j : Nat) :
    (texelMask log2).getLsbD j = decide (j < 8 * 2 ^ log2) := by
  have hones (n : Nat) (hn : n ≤ 32) : (BitVec.ofNat 32 (2 ^ n - 1)).getLsbD j = decide (j < n) := by
    rw [BitVec.getLsbD_ofNat, Nat.testBit_two_pow_sub_one]
    by_cases hj : j < n
    · simp [hj]
      omega
    · simp [hj]
  interval_cases log2
  · exact hones 8 (by omega)
  · exact hones 16 (by omega)

theorem extract_put {log2 r k : Nat} (hlog : log2 < 2) (hr : r < 4) (hk : k < 4)
    (haligned : r % 2 ^ log2 = 0) (word texel : Word) :
    ((word &&& ~~~(texelMask log2 <<< (r * 8))) |||
        ((texel &&& texelMask log2) <<< (r * 8))).extractLsb' (8 * k) 8 =
      if r ≤ k ∧ k < r + 2 ^ log2 then texel.extractLsb' (8 * (k - r)) 8
      else word.extractLsb' (8 * k) 8 := by
  apply BitVec.eq_of_getLsbD_eq
  intro j hj
  have hinside : r + 2 ^ log2 ≤ 4 := by
    interval_cases log2 <;> omega
  have h32 : 8 * k + j < 32 := by omega
  have hbits : (((word &&& ~~~(texelMask log2 <<< (r * 8))) |||
      ((texel &&& texelMask log2) <<< (r * 8))).extractLsb' (8 * k) 8).getLsbD j =
      (word.getLsbD (8 * k + j) &&
          !(!decide (8 * k + j < r * 8) && decide (8 * k + j - r * 8 < 8 * 2 ^ log2)) ||
        !decide (8 * k + j < r * 8) && (texel.getLsbD (8 * k + j - r * 8) &&
          decide (8 * k + j - r * 8 < 8 * 2 ^ log2))) := by
    simp only [BitVec.getLsbD_extractLsb', BitVec.getLsbD_or, BitVec.getLsbD_and,
      BitVec.getLsbD_not, BitVec.getLsbD_shiftLeft, texelMask_getLsbD hlog, hj, h32, decide_true,
      Bool.true_and]
  rw [hbits]
  split
  case isTrue hput =>
    have hlow : ¬ (8 * k + j < r * 8) := by omega
    have hat : 8 * k + j - r * 8 = 8 * (k - r) + j := by omega
    have hmask : 8 * (k - r) + j < 8 * 2 ^ log2 := by omega
    simp only [BitVec.getLsbD_extractLsb', hat, hlow, hmask, hj, decide_true, decide_false,
      Bool.not_false, Bool.not_true, Bool.true_and, Bool.and_false, Bool.and_true, Bool.false_or]
  case isFalse hkeep =>
    rw [BitVec.getLsbD_extractLsb']
    by_cases hlow : 8 * k + j < r * 8
    · simp [hj, hlow]
    · have hmask : ¬ (8 * k + j - r * 8 < 8 * 2 ^ log2) := by omega
      simp only [hlow, hmask, hj, decide_true, decide_false, Bool.not_false, Bool.and_false,
        Bool.and_true, Bool.or_false, Bool.true_and]

theorem byteAt_set (l : List Word) (n i : Nat) (word : Word) (hn : n < l.length) :
    byteAt (l.set n word) i =
      if i / 4 = n then word.extractLsb' (8 * (i % 4)) 8 else byteAt l i := by
  rw [byteAt, byteAt, List.getElem?_set]
  by_cases hat : n = i / 4
  · rw [if_pos hat, if_pos (hat ▸ hn), if_pos hat.symm]
    rfl
  · rw [if_neg hat, if_neg (Ne.symm hat)]

theorem writeNarrow_spec {log2 at' : Nat} (hlog : log2 < 2) (haligned : at' % 2 ^ log2 = 0)
    (tiled : List Word) (texel : Word) (hfits : at' / 4 < tiled.length) :
    ∃ written, writeNarrow tiled at' (texelMask log2) texel = some written ∧
      written.length = tiled.length ∧ ∀ i, byteAt written i =
        if at' ≤ i ∧ i < at' + 2 ^ log2 then texel.extractLsb' (8 * (i - at')) 8
        else byteAt tiled i := by
  refine ⟨tiled.set (at' / 4)
    ((tiled[at' / 4] &&& ~~~(texelMask log2 <<< ((at' % 4) * 8))) |||
      ((texel &&& texelMask log2) <<< ((at' % 4) * 8))), ?_, ?_, ?_⟩
  · rw [writeNarrow, List.getElem?_eq_getElem hfits]
    rfl
  · rw [List.length_set]
  · intro i
    have hr : at' % 4 % 2 ^ log2 = 0 := by
      interval_cases log2 <;> omega
    rw [byteAt_set _ _ _ _ hfits]
    have hinside : at' % 4 + 2 ^ log2 ≤ 4 := by
      interval_cases log2 <;> omega
    by_cases hword : i / 4 = at' / 4
    · rw [if_pos hword, extract_put hlog (Nat.mod_lt _ (by decide)) (Nat.mod_lt _ (by decide)) hr]
      have hiff : (at' % 4 ≤ i % 4 ∧ i % 4 < at' % 4 + 2 ^ log2) ↔
          (at' ≤ i ∧ i < at' + 2 ^ log2) := by
        omega
      have hat : i % 4 - at' % 4 = i - at' := by omega
      have hold : byteAt tiled i = tiled[at' / 4].extractLsb' (8 * (i % 4)) 8 := by
        rw [byteAt, hword, List.getElem?_eq_getElem hfits]
        rfl
      rw [hat, hold]
      simp only [hiff]
    · rw [if_neg hword, if_neg]
      omega

theorem byteAt_append (l l' : List Word) (i : Nat) :
    byteAt (l ++ l') i = if i < 4 * l.length then byteAt l i else byteAt l' (i - 4 * l.length) := by
  have hmod : (i - 4 * l.length) % 4 = i % 4 ∨ i < 4 * l.length := by omega
  have hdiv : (i - 4 * l.length) / 4 = i / 4 - l.length := by omega
  rw [byteAt, byteAt, byteAt, hdiv]
  split
  case isTrue hlt => rw [List.getElem?_append_left (by omega)]
  case isFalse hge =>
    rw [List.getElem?_append_right (by omega), hmod.resolve_right hge]

theorem byteAt_take (l : List Word) (n i : Nat) (h : i < 4 * n) : byteAt (l.take n) i = byteAt l i := by
  rw [byteAt, byteAt, List.getElem?_take_of_lt (by omega)]

theorem byteAt_drop (l : List Word) (n i : Nat) : byteAt (l.drop n) i = byteAt l (4 * n + i) := by
  have hdiv : (4 * n + i) / 4 = n + i / 4 := by omega
  have hmod : (4 * n + i) % 4 = i % 4 := by omega
  rw [byteAt, byteAt, List.getElem?_drop, hdiv, hmod]

theorem store_spec (tiled values : List Word) (start : Nat)
    (hfits : start + values.length ≤ tiled.length) :
    ∃ written, store tiled start values = some written ∧ written.length = tiled.length ∧
      ∀ i, byteAt written i =
        if 4 * start ≤ i ∧ i < 4 * start + 4 * values.length then byteAt values (i - 4 * start)
        else byteAt tiled i := by
  have htake : (tiled.take start).length = start := by
    rw [List.length_take]
    omega
  refine ⟨_, if_pos hfits, ?_, ?_⟩
  · rw [List.length_append, List.length_append, htake, List.length_drop]
    omega
  · intro i
    rw [byteAt_append, byteAt_append, List.length_append, htake]
    by_cases hbefore : i < 4 * start
    · rw [if_pos (by omega), if_pos hbefore, if_neg (by omega), byteAt_take _ _ _ hbefore]
    · by_cases hinside : i < 4 * start + 4 * values.length
      · rw [if_pos (by omega), if_neg hbefore, if_pos (by omega)]
      · rw [if_neg (by omega), if_neg (by omega), byteAt_drop]
        congr 1
        omega

namespace SurfaceLayout

variable {layout : SurfaceLayout} {width height pipeBankXor : Nat} (map : Word → Word)

def texelBytes (layout : SurfaceLayout) (map : Word → Word) (texel : List Word) :
    List (BitVec 8) :=
  (List.range (2 ^ layout.texelLog2)).map (byteAt (texel.map map))

theorem texelBytes_length (texel : List Word) :
    (layout.texelBytes map texel).length = 2 ^ layout.texelLog2 := by
  rw [texelBytes, List.length_map, List.length_range]

theorem texelBytes_getElem (texel : List Word) {k : Nat} (hk : k < 2 ^ layout.texelLog2) :
    (layout.texelBytes map texel)[k]? = some (byteAt (texel.map map) k) := by
  rw [texelBytes, List.getElem?_map, List.getElem?_range hk]
  rfl

theorem at?_texelBytes (memory : Nat → BitVec 8) (at' : Nat) (texel : List Word) (i : Nat) :
    ((Write.at? ⟨at', layout.texelBytes map texel⟩ i).getD (memory i)) =
      if at' ≤ i ∧ i < at' + 2 ^ layout.texelLog2 then byteAt (texel.map map) (i - at')
      else memory i := by
  by_cases hreach : at' ≤ i ∧ i < at' + 2 ^ layout.texelLog2
  · rw [if_pos hreach, at?_mk, if_pos hreach.1, texelBytes_getElem map texel (by omega)]
    rfl
  · rw [if_neg hreach, at?_eq_none]
    · rfl
    · rw [Write.Reaches, texelBytes_length]
      exact hreach

theorem four_wordsATexel (h : 2 ≤ layout.texelLog2) :
    4 * layout.wordsATexel = 2 ^ layout.texelLog2 := by
  cases layout <;> first
    | rfl
    | exact absurd h (by decide)

theorem writeTexel_spec (tiled : List Word) {at' : Nat} {texel : List Word}
    (haligned : at' % 2 ^ layout.texelLog2 = 0) (htexel : texel.length = layout.wordsATexel)
    (hfits : at' + 2 ^ layout.texelLog2 ≤ 4 * tiled.length) :
    ∃ written, layout.writeTexel map tiled at' texel = some written ∧
      written.length = tiled.length ∧
        byteAt written = apply (byteAt tiled) [⟨at', layout.texelBytes map texel⟩] := by
  have hpow := Nat.two_pow_pos layout.texelLog2
  rcases Nat.lt_or_ge layout.texelLog2 2 with hlog | hlog
  · obtain ⟨written, heq, hlen, hbytes⟩ := writeNarrow_spec hlog haligned tiled
      (map (texel.headD 0#32)) (by omega)
    refine ⟨written, by rw [writeTexel_narrow map hlog, heq], hlen, ?_⟩
    funext i
    rw [hbytes]
    show _ = (Write.at? ⟨at', layout.texelBytes map texel⟩ i).getD (byteAt tiled i)
    rw [at?_texelBytes]
    split
    case isFalse => rfl
    case isTrue hreach =>
      rw [wordsATexel_narrow hlog] at htexel
      obtain ⟨word, rfl⟩ := List.length_eq_one_iff.mp htexel
      have hsmall : i - at' < 4 := by
        have : 2 ^ layout.texelLog2 ≤ 2 ^ 1 := Nat.pow_le_pow_right (by decide) (by omega)
        omega
      have hdiv : (i - at') / 4 = 0 := by omega
      have hmod : (i - at') % 4 = i - at' := by omega
      rw [byteAt, hdiv, hmod]
      rfl
  · have hper := four_wordsATexel hlog
    have hword : 4 * (at' / 4) = at' := by
      have hdvd : 2 ^ 2 ∣ 2 ^ layout.texelLog2 := Nat.pow_dvd_pow 2 hlog
      have : at' % 4 = 0 := Nat.mod_eq_zero_of_dvd (hdvd.trans (Nat.dvd_of_mod_eq_zero haligned))
      omega
    have hlen' : (texel.map map).length = layout.wordsATexel := by rw [List.length_map, htexel]
    obtain ⟨written, heq, hlen, hbytes⟩ := store_spec tiled (texel.map map) (at' / 4) (by omega)
    refine ⟨written, by rw [writeTexel_wide map hlog, heq], hlen, ?_⟩
    funext i
    rw [hbytes]
    show _ = (Write.at? ⟨at', layout.texelBytes map texel⟩ i).getD (byteAt tiled i)
    rw [at?_texelBytes, hlen', hword, hper]

section Placement

variable {e : Equation} {x y x' y' : Nat}

theorem bytes_of (he : layout.equationOf = some e) : e.bytes = 2 ^ layout.texelLog2 := by
  have hfound := List.find?_some he
  simp only [Bool.and_eq_true, beq_iff_eq] at hfound
  exact hfound.2

theorem block_of (he : layout.equationOf = some e) :
    e.block = layout.blockTexels ∧ e.blockBytes = layout.blockBytes := by
  cases layout <;> cases he <;> exact ⟨rfl, rfl⟩

theorem words_of (h : layout.hasTable = true) (he : layout.equationOf = some e)
    (width height : Nat) : 4 * layout.words width height = e.surfaceBytes width height := by
  have hwords : layout.words width height = e.surfaceBytes width height / 4 := by
    rw [Equation.surfaceBytes, Equation.blocksAcross, (block_of he).1, (block_of he).2]
    cases layout <;> first
      | rfl
      | cases h
  have hdvd : 4 ∣ layout.blockBytes := by
    cases layout <;> first
      | decide
  rw [hwords, Nat.mul_div_cancel']
  rw [Equation.surfaceBytes, (block_of he).2]
  exact Dvd.dvd.mul_left hdvd _

theorem offset_placed (h : layout.hasTable = true) (he : layout.equationOf = some e)
    (hxor : pipeBankXor < 256) (x y : Nat) :
    e.offset x y width (layout.foldedXor pipeBankXor) =
      some (layout.placed width pipeBankXor x y) :=
  texelByteOffset_eq he hxor (texelByteOffset_placed h width pipeBankXor x y)

theorem placed_aligned (h : layout.hasTable = true) (hxor : pipeBankXor < 256) (x y : Nat) :
    layout.placed width pipeBankXor x y % 2 ^ layout.texelLog2 = 0 := by
  obtain ⟨e, he⟩ := equationOf_tabled h
  rw [← bytes_of he]
  exact (sound_of he).offset_aligned (offset_placed h he hxor x y)

theorem placed_fits (h : layout.hasTable = true) (hxor : pipeBankXor < 256) (hx : x < width)
    (hy : y < height) :
    layout.placed width pipeBankXor x y + 2 ^ layout.texelLog2 ≤ 4 * layout.words width height := by
  obtain ⟨e, he⟩ := equationOf_tabled h
  rw [words_of h he, ← bytes_of he]
  exact (sound_of he).offset_fits hx hy (offset_placed h he hxor x y)

/-- No two texels of a surface lie at one offset. -/
theorem placed_inj (h : layout.hasTable = true) (hxor : pipeBankXor < 256) (hx : x < width)
    (hx' : x' < width)
    (heq : layout.placed width pipeBankXor x y = layout.placed width pipeBankXor x' y') :
    x = x' ∧ y = y' := by
  obtain ⟨e, he⟩ := equationOf_tabled h
  apply (sound_of he).offset_inj hx hx' (offset_placed h he hxor x y)
  rw [heq]
  exact offset_placed h he hxor x' y'

end Placement

section Image

variable {linear tiled : List Word} {coordinatesOf : Nat → Nat × Nat}

def texelWrite (layout : SurfaceLayout) (map : Word → Word) (coordinatesOf : Nat → Nat × Nat)
    (linear : List Word) (width pipeBankXor i : Nat) : Write (BitVec 8) where
  start := layout.placed width pipeBankXor (coordinatesOf i).1 (coordinatesOf i).2
  values := layout.texelBytes map (piece layout.wordsATexel i linear)

theorem foldlM_texels (h : layout.hasTable = true) (hxor : pipeBankXor < 256)
    {texels : Nat} (hlen : linear.length = texels * layout.wordsATexel) (is : List Nat)
    (tiled : List Word)
    (his : ∀ i ∈ is, i < texels ∧ layout.placed width pipeBankXor (coordinatesOf i).1
      (coordinatesOf i).2 + 2 ^ layout.texelLog2 ≤ 4 * tiled.length) :
    ∃ written, is.foldlM (fun tiled i =>
        let (x, y) := coordinatesOf i
        layout.writeTexel map tiled (layout.placed width pipeBankXor x y)
          (piece layout.wordsATexel i linear)) tiled = some written ∧
      written.length = tiled.length ∧
        byteAt written = apply (byteAt tiled)
          (is.map (layout.texelWrite map coordinatesOf linear width pipeBankXor)) := by
  induction is generalizing tiled with
  | nil => exact ⟨tiled, rfl, rfl, rfl⟩
  | cons i is ih =>
      obtain ⟨hi, hfits⟩ := his i List.mem_cons_self
      obtain ⟨next, hnext, hsame, hbytes⟩ := writeTexel_spec map tiled (placed_aligned h hxor
        (coordinatesOf i).1 (coordinatesOf i).2) (piece_length hlen hi) hfits
      obtain ⟨written, heq, hlength, hall⟩ := ih next (fun j hj => by
        rw [hsame]
        exact his j (List.mem_cons_of_mem i hj))
      refine ⟨written, ?_, hlength.trans hsame, ?_⟩
      · rw [List.foldlM_cons]
        show (layout.writeTexel map tiled _ _).bind _ = _
        rw [hnext]
        exact heq
      · rw [hall, hbytes, List.map_cons]
        rfl

theorem tileAt_spec (h : layout.hasTable = true) (hxor : pipeBankXor < 256)
    (coordinatesOf : Nat → Nat × Nat) (tiled : List Word)
    (hlen : linear.length = height * width * layout.wordsATexel)
    (hfits : ∀ i < height * width, layout.placed width pipeBankXor (coordinatesOf i).1
      (coordinatesOf i).2 + 2 ^ layout.texelLog2 ≤ 4 * tiled.length) :
    ∃ written, layout.tileAt map coordinatesOf linear width height pipeBankXor tiled =
        some written ∧ written.length = tiled.length ∧
      byteAt written = apply (byteAt tiled) ((List.range (height * width)).map
        (layout.texelWrite map coordinatesOf linear width pipeBankXor)) := by
  apply foldlM_texels map h hxor hlen _ tiled
  intro i hi
  have hlt := List.mem_range.mp hi
  exact ⟨hlt, hfits i hlt⟩

/-- Aligned offsets of one size that overlap are one. -/
theorem aligned_eq {a b n : Nat} (ha : a % n = 0) (hb : b % n = 0) (hle : a ≤ b) (hlt : b < a + n) :
    a = b := by
  obtain ⟨c, rfl⟩ := Nat.dvd_of_mod_eq_zero ha
  obtain ⟨d, rfl⟩ := Nat.dvd_of_mod_eq_zero hb
  rw [← Nat.mul_add_one] at hlt
  have hd : d < c + 1 := Nat.lt_of_mul_lt_mul_left hlt
  have hn : 0 < n := by
    rcases Nat.eq_zero_or_pos n with rfl | hpos
    · simp at hlt
    · exact hpos
  have hc : c ≤ d := Nat.le_of_mul_le_mul_left hle hn
  have : c = d := by omega
  rw [this]

theorem texelWrite_reaches (h : layout.hasTable = true) (hxor : pipeBankXor < 256) {x y i : Nat}
    (hreach : (layout.texelWrite map coordinatesOf linear width pipeBankXor i).Reaches
      (layout.placed width pipeBankXor x y)) :
    layout.placed width pipeBankXor (coordinatesOf i).1 (coordinatesOf i).2 =
      layout.placed width pipeBankXor x y := by
  obtain ⟨hle, hlt⟩ := hreach
  rw [show (layout.texelWrite map coordinatesOf linear width pipeBankXor i).values =
    layout.texelBytes map (piece layout.wordsATexel i linear) from rfl, texelBytes_length] at hlt
  exact aligned_eq (placed_aligned h hxor _ _) (placed_aligned h hxor _ _) hle hlt

theorem byteAt_ones {per i texels : Nat} (hper : 0 < per) (hi : i < texels) :
    byteAt ((piece per i (List.replicate (texels * per) 1#32)).map id) 0 = 1#8 := by
  have hlen : (piece per i (List.replicate (texels * per) 1#32)).length = per :=
    piece_length List.length_replicate hi
  have hone : ((piece per i (List.replicate (texels * per) 1#32)).map id)[0]? = some 1#32 := by
    rw [List.map_id, List.getElem?_eq_getElem (by omega)]
    have hmem : (piece per i (List.replicate (texels * per) 1#32))[0] ∈
        piece per i (List.replicate (texels * per) 1#32) := List.getElem_mem _
    rw [List.eq_of_mem_replicate (List.mem_of_mem_drop (List.mem_of_mem_take hmem))]
  rw [byteAt, hone]
  rfl

/-- An image of more texels than 32 bits number is tiled otherwise a texel at a time: its texel
`2 ^ 32` is put where texel 0 is. -/
theorem tile_differs (h : layout.hasTable = true) (hxor : pipeBankXor < 256)
    (hlog : layout.texelLog2 ≠ 2) (hbig : 2 ^ 32 < width * height) :
    ∃ linear tiled : List Word, layout.tileByTable linear width height pipeBankXor tiled id ≠
      some (layout.tileByTexel linear width height pipeBankXor tiled id) := by
  have hwidth : 0 < width := by
    rcases Nat.eq_zero_or_pos width with rfl | hpos
    · simp at hbig
    · exact hpos
  rw [Nat.mul_comm] at hbig
  have hrow {i : Nat} (hi : i < height * width) : i / width < height :=
    (Nat.div_lt_iff_lt_mul hwidth).mpr hi
  have hmod (i : Nat) : i % width < width := Nat.mod_lt i hwidth
  refine ⟨List.replicate (height * width * layout.wordsATexel) 1#32,
    List.replicate (layout.words width height) 0#32, ?_⟩
  generalize hlinear : List.replicate (height * width * layout.wordsATexel) 1#32 = linear
  generalize htiled : List.replicate (layout.words width height) 0#32 = tiled
  have hlen : linear.length = height * width * layout.wordsATexel := by
    rw [← hlinear, List.length_replicate]
  have hwords : tiled.length = layout.words width height := by
    rw [← htiled, List.length_replicate]
  have hsize : ¬ (tiled.length < layout.words width height ∨
      linear.length ≠ width * height * layout.wordsATexel) := by
    rw [hwords, hlen, Nat.mul_comm height]
    omega
  obtain ⟨byTable, htable, -, htableBytes⟩ := tileAt_spec id h hxor
    (fun i => (i % width, i / width)) tiled hlen (fun i hi => by
      rw [hwords]
      exact placed_fits h hxor (hmod i) (hrow hi))
  obtain ⟨byTexel, htexel, -, htexelBytes⟩ := tileAt_spec id h hxor
    (coordinates · width) tiled hlen (fun i hi => by
      rw [hwords]
      exact placed_fits h hxor (hmod _) (hrow (Nat.lt_of_le_of_lt (Nat.mod_le i _) hi)))
  rw [tileByTable_eq id h hxor, tileByTexel_eq id h, if_neg hsize, if_neg hsize, tileEach,
    if_neg hlog, htable, htexel]
  intro heq
  have hsame : byTable = byTexel := by simpa using heq
  -- the place of texel `2 ^ 32`
  generalize hplace : layout.placed width pipeBankXor (2 ^ 32 % width) (2 ^ 32 / width) = place
  have hput : byteAt byTable place = 1#8 := by
    have hsome : (last? ((List.range (height * width)).map (layout.texelWrite id
        (fun i => (i % width, i / width)) linear width pipeBankXor)) place).isSome = true := by
      rw [last?_isSome]
      refine ⟨_, List.mem_map_of_mem (List.mem_range.mpr hbig), ?_, ?_⟩
      · exact le_of_eq hplace
      · rw [show (layout.texelWrite id (fun i => (i % width, i / width)) linear width pipeBankXor
          (2 ^ 32)).values = layout.texelBytes id (piece layout.wordsATexel (2 ^ 32) linear) from rfl,
          texelBytes_length, ← hplace]
        exact Nat.lt_add_of_pos_right (Nat.two_pow_pos _)
    obtain ⟨v, hv⟩ := Option.isSome_iff_exists.mp hsome
    rw [htableBytes, apply_eq, hv, Option.getD_some]
    obtain ⟨w, hw, hat⟩ := last?_mem hv
    obtain ⟨i, hi, rfl⟩ := List.mem_map.mp hw
    have hreach := at?_isSome.mp (by rw [hat]; rfl)
    rw [← hplace] at hreach hat
    have hstart := texelWrite_reaches id h hxor hreach
    rw [Write.at?, if_pos hreach.1] at hat
    have hzero : layout.placed width pipeBankXor (2 ^ 32 % width) (2 ^ 32 / width) -
        (layout.texelWrite id (fun i => (i % width, i / width)) linear width pipeBankXor i).start =
          0 := by
      rw [← hstart]
      exact Nat.sub_self _
    rw [hzero] at hat
    have hbyte : some (byteAt ((piece layout.wordsATexel i linear).map id) 0) = some v :=
      (texelBytes_getElem id _ (Nat.two_pow_pos _)).symm.trans hat
    rw [← Option.some.inj hbyte, ← hlinear]
    exact byteAt_ones layout.wordsATexel_pos (List.mem_range.mp hi)
  have hleft : byteAt byTexel place = 0#8 := by
    have hnone : last? ((List.range (height * width)).map (layout.texelWrite id
        (coordinates · width) linear width pipeBankXor)) place = none := by
      apply last?_eq_none
      intro w hw hreach
      obtain ⟨i, -, rfl⟩ := List.mem_map.mp hw
      rw [← hplace] at hreach
      have hstart := texelWrite_reaches id h hxor hreach
      simp only [coordinates] at hstart
      obtain ⟨hcolumn, hline⟩ := placed_inj h hxor (hmod (i % 2 ^ 32)) (hmod (2 ^ 32)) hstart
      have hindex : i % 2 ^ 32 = 2 ^ 32 := by
        have hleft := Nat.div_add_mod (i % 2 ^ 32) width
        have hright := Nat.div_add_mod (2 ^ 32) width
        rw [hline, hcolumn, hright] at hleft
        exact hleft.symm
      have := Nat.mod_lt i (Nat.two_pow_pos 32)
      omega
    have hzeros : (tiled[place / 4]?).getD 0#32 = 0#32 := by
      rw [← htiled, List.getElem?_replicate]
      split <;> rfl
    rw [htexelBytes, apply_eq, hnone, Option.getD_none, byteAt, hzeros]
    simp
  rw [hsame, hleft] at hput
  cases hput

end Image

end SurfaceLayout

end Orbistoun.Gpu.Tiling
