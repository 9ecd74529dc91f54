import Orbistoun.Gpu.Tiling.Offsets

/-!
# The layouts' offsets are their equations'

Each tiled layout's own walk of the bits gives the offset its mode's equation gives at its element
size, so its placement is the equation's: by blocks.
-/

namespace Orbistoun.Gpu.Tiling

open Lib.Flips

theorem foldl_flipEach (places : List Nat) (value n offset : Nat) :
    (places.zipIdx n).foldl (fun offset (place, bit) =>
        if (value >>> bit) &&& 1 == 1 then offset ^^^ place else offset) offset =
      offset ^^^ flips places (value >>> n) := by
  induction places generalizing n offset with
  | nil => simp
  | cons place places ih =>
      have hnext : value >>> (n + 1) = (value >>> n) / 2 := by
        rw [Nat.shiftRight_add, Nat.shiftRight_one]
      rw [List.zipIdx_cons, List.foldl_cons, ih, flips_cons, ← hnext]
      simp only [shifted_bit, Nat.testBit_shiftRight, Nat.add_zero]
      split
      · rw [Nat.xor_assoc]
      · rw [Nat.zero_xor]

theorem flipEach_eq (places : List Nat) (value offset : Nat) :
    flipEach places value offset = offset ^^^ flips places value := by
  rw [flipEach, foldl_flipEach, Nat.shiftRight_zero]

/-- Putting in a bit that is not there is exclusive-oring it in. -/
theorem or_eq_xor {a b : Nat} (h : a &&& b = 0) : a ||| b = a ^^^ b := by
  apply Nat.eq_of_testBit_eq
  intro i
  have hbit := congrArg (·.testBit i) h
  simp only [Nat.testBit_and, Nat.zero_testBit] at hbit
  rw [Nat.testBit_or, Nat.testBit_xor]
  cases ha : a.testBit i <;> cases hb : b.testBit i <;> simp [ha, hb] at hbit ⊢

theorem flips_and {terms : List Nat} {t : Nat} (h : ∀ s ∈ terms, s &&& t = 0) (v : Nat) :
    flips terms v &&& t = 0 := by
  induction terms generalizing v with
  | nil => simp
  | cons term terms ih =>
      have hterm := h term List.mem_cons_self
      have hrest := ih (fun s hs => h s (List.mem_cons_of_mem term hs)) (v / 2)
      rw [flips_cons, Nat.and_xor_distrib_right, hrest, Nat.xor_zero]
      split
      · exact hterm
      · exact Nat.zero_and t

theorem foldl_setEach {places : List Nat} (hapart : places.Pairwise (fun a b => a &&& b = 0))
    (value n offset : Nat) (hoffset : ∀ p ∈ places, offset &&& p = 0) :
    (places.zipIdx n).foldl (fun offset (place, bit) =>
        if (value >>> bit) &&& 1 == 1 then offset ||| place else offset) offset =
      offset ^^^ flips places (value >>> n) := by
  induction places generalizing n offset with
  | nil => simp
  | cons place places ih =>
      obtain ⟨hhead, htail⟩ := List.pairwise_cons.mp hapart
      have hplace := hoffset place List.mem_cons_self
      have hnext : value >>> (n + 1) = (value >>> n) / 2 := by
        rw [Nat.shiftRight_add, Nat.shiftRight_one]
      rw [List.zipIdx_cons, List.foldl_cons, flips_cons, ← hnext]
      simp only [shifted_bit, Nat.testBit_shiftRight, Nat.add_zero] at ih ⊢
      split
      · rw [ih htail, or_eq_xor hplace, Nat.xor_assoc]
        intro p hp
        rw [or_eq_xor hplace, Nat.and_xor_distrib_right, hhead p hp,
          hoffset p (List.mem_cons_of_mem place hp), Nat.xor_self]
      · rw [ih htail (n + 1) offset (fun p hp => hoffset p (List.mem_cons_of_mem place hp)),
          Nat.zero_xor]

/-- Places that share no bit are put in as they are exclusive-ored in. -/
theorem setBlockOffset_eq {xBits yBits : List Nat}
    (hapart : (xBits ++ yBits).Pairwise (fun a b => a &&& b = 0)) (blockBytes x y width : Nat)
    (block : Nat × Nat) :
    setBlockOffset blockBytes x y width block xBits yBits =
      blockOffset blockBytes x y width block xBits yBits := by
  obtain ⟨hx, hy, hxy⟩ := List.pairwise_append.mp hapart
  have hrow : ∀ p ∈ yBits, flips xBits x &&& p = 0 :=
    fun p hp => flips_and (fun s hs => hxy s hs p hp) x
  rw [setBlockOffset, blockOffset, flipEach_eq, flipEach_eq, Nat.zero_xor, setEach, setEach,
    foldl_setEach hx x 0 0 (fun p _ => Nat.zero_and p), Nat.zero_xor, Nat.shiftRight_zero,
    foldl_setEach hy y 0 _ hrow, Nat.shiftRight_zero]

theorem blockOffset_eq (blockBytes x y width : Nat) (block : Nat × Nat) (xBits yBits : List Nat) :
    blockOffset blockBytes x y width block xBits yBits =
      blockOf x y width block.1 block.2 * blockBytes + (flips xBits x ^^^ flips yBits y) := by
  rw [blockOffset, flipEach_eq, flipEach_eq, Nat.zero_xor]

theorem flips_append_zeros (terms : List Nat) {zeros : List Nat} (hzeros : ∀ z ∈ zeros, z = 0)
    (v : Nat) : flips (terms ++ zeros) v = flips terms v := by
  have hnone : flips zeros (v / 2 ^ terms.length) < 2 ^ 0 :=
    flips_lt (fun z hz => by rw [hzeros z hz]; exact Nat.one_pos) _
  rw [flips_append, Nat.lt_one_iff.mp hnone, Nat.xor_zero]

theorem offset_of_terms {e : Equation} (h : e.Sound) {xs ys : List Nat} (zx zy : List Nat)
    (hx : e.x ++ e.xAbove = xs ++ zx) (hzx : ∀ z ∈ zx, z = 0)
    (hy : e.y ++ e.yAbove = ys ++ zy) (hzy : ∀ z ∈ zy, z = 0) (x y width pipeBankXor : Nat)
    (hxor : e.Admits pipeBankXor) :
    e.offset x y width pipeBankXor =
      some (blockOf x y width e.block.1 e.block.2 * e.blockBytes +
        (flips xs x ^^^ flips ys y ^^^ e.xorTerm pipeBankXor)) := by
  rw [h.offset_terms width pipeBankXor hxor, hx, hy, flips_append_zeros xs hzx,
    flips_append_zeros ys hzy]
  rfl

theorem xorTerm_zero (e : Equation) : e.xorTerm 0 = 0 := by
  simp [Equation.xorTerm]

/-- Under no pipe-bank XOR it is the offset a layout walks. -/
theorem offset_of_blockOffset {e : Equation} (h : e.Sound) {xs ys : List Nat} (zx zy : List Nat)
    (hx : e.x ++ e.xAbove = xs ++ zx) (hzx : ∀ z ∈ zx, z = 0)
    (hy : e.y ++ e.yAbove = ys ++ zy) (hzy : ∀ z ∈ zy, z = 0) (x y width : Nat) :
    e.offset x y width 0 = some (blockOffset e.blockBytes x y width e.block xs ys) := by
  rw [offset_of_terms h zx zy hx hzx hy hzy x y width 0 (Or.inl rfl), xorTerm_zero, Nat.xor_zero,
    blockOffset_eq]

/-- An equation with no term above the block places elements as a layout of its terms does. -/
theorem offset_of_plain {e : Equation} (h : e.Sound) (hx : e.xAbove = noneAbove)
    (hy : e.yAbove = noneAbove) (x y width : Nat) :
    e.offset x y width 0 = some (blockOffset e.blockBytes x y width e.block e.x e.y) := by
  apply offset_of_blockOffset h noneAbove noneAbove
  · rw [hx]
  · decide
  · rw [hy]
  · decide

/-- The four-byte `64KB_R_X` bits, as terms. -/
theorem tiledByteOffset64kbRxBpp4_eq {x y : Nat} (hx : x < 128) (hy : y < 128) :
    tiledByteOffset64kbRxBpp4 x y = flips [0x4, 0x8, 0x80, 0x100, 0x2200, 0x800, 0x8400] x ^^^
      flips [0x10, 0x20, 0x40, 0x1100, 0x200, 0x400, 0x4800] y := by
  have hcolumn : ∀ v < 128, ((v <<< 2) &&& 0x000c) ^^^ ((v <<< 5) &&& 0x0380) ^^^
      ((v <<< 4) &&& 0x0400) ^^^ ((v <<< 6) &&& 0x0800) ^^^ ((v <<< 9) &&& 0xa000) =
        flips [0x4, 0x8, 0x80, 0x100, 0x2200, 0x800, 0x8400] v := by decide +kernel
  have hrow : ∀ v < 128, ((v <<< 4) &&& 0x0070) ^^^ ((v <<< 5) &&& 0x0f00) ^^^
      ((v <<< 9) &&& 0x1000) ^^^ ((v <<< 8) &&& 0x4000) =
        flips [0x10, 0x20, 0x40, 0x1100, 0x200, 0x400, 0x4800] v := by decide +kernel
  rw [← hcolumn x hx, ← hrow y hy, tiledByteOffset64kbRxBpp4]
  simp only [Nat.zero_xor]
  ac_rfl

theorem flips_concat (terms : List Nat) (term v : Nat) :
    flips (terms ++ [term]) v = flips terms v ^^^ (if v.testBit terms.length then term else 0) := by
  rw [flips_append, flips_cons, flips_nil, Nat.xor_zero, Nat.testBit_div_two_pow, Nat.zero_add]

theorem above_eq (terms : List Nat) (above value offset : Nat) :
    (if (value >>> terms.length) &&& 1 == 1 then
        (offset ^^^ flips terms value) ^^^ above else offset ^^^ flips terms value) =
      offset ^^^ flips (terms ++ [above]) value := by
  rw [shifted_bit, flips_concat]
  split
  · rw [Nat.xor_assoc]
  · rw [Nat.xor_zero]

theorem tiledByteOffset64kbRxBpp8Surface_eq (x y width : Nat) :
    tiledByteOffset64kbRxBpp8Surface x y width =
      blockOffset BLOCK_BYTES x y width (128, 64) rxBpp8XBits (rxBpp8YBits ++ [rxBpp8YAbove]) := by
  simp only [tiledByteOffset64kbRxBpp8Surface, flipEach_eq, above_eq, blockOffset]

theorem tiledByteOffset64kbRxBpp16Surface_eq (x y width : Nat) :
    tiledByteOffset64kbRxBpp16Surface x y width =
      blockOffset BLOCK_BYTES x y width (64, 64) (rxBpp16XBits ++ [rxBpp16XAbove])
        (rxBpp16YBits ++ [rxBpp16YAbove]) := by
  have hcolumn : (if (x >>> rxBpp16XBits.length) &&& 1 == 1 then
      (flips rxBpp16XBits x ^^^ flips rxBpp16YBits y) ^^^ rxBpp16XAbove
      else flips rxBpp16XBits x ^^^ flips rxBpp16YBits y) =
      flips (rxBpp16XBits ++ [rxBpp16XAbove]) x ^^^ flips rxBpp16YBits y := by
    rw [Nat.xor_comm (flips rxBpp16XBits x), above_eq, Nat.xor_comm]
  simp only [tiledByteOffset64kbRxBpp16Surface, flipEach_eq, Nat.zero_xor, hcolumn, above_eq,
    blockOffset]

theorem sound_of {mode : SwizzleMode} {bytes : Nat} {e : Equation}
    (h : equation mode bytes = some e) : e.Sound :=
  Equation.equations_sound e (Equation.equation_mem h)

theorem xorTerm_shift {e : Equation} (h : e.Sound) {pipeBankXor : Nat} (hxor : pipeBankXor < 256)
    (hblock : e.blockBytes.log2 = 16) : e.xorTerm pipeBankXor = pipeBankXor <<< 8 := by
  rw [Equation.xorTerm, h.blockBytes_eq, hblock, Nat.and_two_pow_sub_one_eq_mod,
    Nat.shiftLeft_eq]
  omega

namespace SurfaceLayout

def mode : SurfaceLayout → SwizzleMode
  | .rx64Kb | .rx64KbBpp1 | .rx64KbBpp2 | .rx64KbBpp8 | .rx64KbBpp16 => .tiled64KbRX
  | .dx4Kb | .dx4KbBpp16 => .tiled4KbDX
  | .dx64KbBpp16 => .tiled64KbDX
  | .s64Kb | .s64KbBpp8 | .s64KbBpp16 => .tiled64KbS
  | .s4Kb | .s4KbBpp1 | .s4KbBpp2 | .s4KbBpp8 | .s4KbBpp16 => .tiled4KbS
  | .s256B | .s256BBpp8 | .s256BBpp16 => .tiled256BS
  | .zx64Kb | .zx64KbBpp2 => .tiled64KbZX
  | .linear | .linearBpp1 => .linear

def foldedXor (layout : SurfaceLayout) (pipeBankXor : Nat) : Nat :=
  match layout with
  | .rx64KbBpp1 | .dx64KbBpp16 => pipeBankXor
  | _ => 0

variable {layout : SurfaceLayout} {e : Equation}

def equationOf (layout : SurfaceLayout) : Option Equation :=
  equation layout.mode (2 ^ layout.texelLog2)

theorem mode_of (he : layout.equationOf = some e) : e.mode = layout.mode := by
  have hfound := List.find?_some he
  simp only [Bool.and_eq_true, beq_iff_eq] at hfound
  exact hfound.1

theorem blockBytes_of (he : layout.equationOf = some e) :
    e.blockBytes.log2 = layout.blockLog2 := by
  cases layout <;> cases he <;> decide +kernel

theorem admits_folded (he : layout.equationOf = some e) (pipeBankXor : Nat) :
    e.Admits (layout.foldedXor pipeBankXor) := by
  rw [Equation.Admits, mode_of he]
  cases layout <;> first
    | exact Or.inl rfl
    | exact Or.inr rfl

theorem texelByteOffset_eq (he : layout.equationOf = some e) {x y width pipeBankXor at' : Nat}
    (hxor : pipeBankXor < 256) (h : layout.texelByteOffset x y width pipeBankXor = some at') :
    e.offset x y width (layout.foldedXor pipeBankXor) = some at' := by
  have hs := sound_of he
  cases layout <;> cases h <;> cases he
  case dx4Kb => exact offset_of_blockOffset hs [0] [0] rfl (by decide) rfl (by decide) x y width
  case dx4KbBpp16 => exact offset_of_blockOffset hs [0] [0] rfl (by decide) rfl (by decide) x y width
  case rx64KbBpp8 =>
    show _ = some (tiledByteOffset64kbRxBpp8Surface x y width)
    rw [tiledByteOffset64kbRxBpp8Surface_eq]
    exact offset_of_blockOffset hs noneAbove [0, 0] rfl (by decide) rfl (by decide) x y width
  case rx64KbBpp16 =>
    show _ = some (tiledByteOffset64kbRxBpp16Surface x y width)
    rw [tiledByteOffset64kbRxBpp16Surface_eq]
    exact offset_of_blockOffset hs [0, 0] [0, 0] rfl (by decide) rfl (by decide) x y width
  case dx64KbBpp16 =>
    show _ = some (tiledByteOffset64kbDxBpp16Xor x y width pipeBankXor)
    rw [tiledByteOffset64kbDxBpp16Xor, flipEach_eq, flipEach_eq, Nat.zero_xor,
      ← xorTerm_shift hs hxor (by decide +kernel)]
    exact offset_of_terms hs noneAbove noneAbove rfl (by decide) rfl (by decide) x y width _
      (Or.inr rfl)
  case rx64KbBpp1 =>
    have hwithin : flips rxBpp1XBits x ^^^ flips rxBpp1YBits y < 2 ^ 16 :=
      Nat.xor_lt_two_pow (flips_lt (by decide) x) (flips_lt (by decide) y)
    have hterm : pipeBankXor <<< 8 < 2 ^ 16 := by
      rw [Nat.shiftLeft_eq]
      omega
    -- the XOR is of the whole offset, and stays inside the block
    show _ = some (tiledByteOffset64kbRxBpp1Surface x y width ^^^ (pipeBankXor <<< 8))
    rw [tiledByteOffset64kbRxBpp1Surface, blockOffset_eq,
      show BLOCK_BYTES = 2 ^ 16 from rfl, xor_in_block _ hwithin hterm,
      ← xorTerm_shift hs hxor (by decide +kernel)]
    exact offset_of_terms hs noneAbove noneAbove rfl (by decide) rfl (by decide) x y width _
      (Or.inr rfl)
  case s4Kb =>
    apply (offset_of_plain hs rfl rfl x y width).trans
    exact congrArg some (setBlockOffset_eq (by decide) _ _ _ _ _).symm
  case s64Kb =>
    apply (offset_of_plain hs rfl rfl x y width).trans
    exact congrArg some (setBlockOffset_eq (by decide) _ _ _ _ _).symm
  all_goals exact offset_of_plain hs rfl rfl x y width

theorem texelByteOffset_isSome (he : layout.equationOf = some e) (hrx : layout ≠ .rx64Kb)
    (x y width pipeBankXor : Nat) :
    ∃ at', layout.texelByteOffset x y width pipeBankXor = some at' := by
  cases layout <;> first
    | exact ⟨_, rfl⟩
    | exact absurd rfl hrx
    | cases he

theorem equationOf_isSome {x y width pipeBankXor at' : Nat}
    (h : layout.texelByteOffset x y width pipeBankXor = some at') :
    ∃ e, layout.equationOf = some e := by
  cases layout <;> first
    | exact ⟨_, rfl⟩
    | cases h

/-- Four-byte `64KB_R_X`, which has tables of its own, is its equation's too. -/
theorem rx64Kb_eq (he : equationOf .rx64Kb = some e) (x y width : Nat) :
    e.offset x y width 0 = some (tiledByteOffset64kbRxBpp4Surface x y width) := by
  have hs := sound_of he
  have hx : x % singleBlockExtent < 128 := Nat.mod_lt x (by decide)
  have hy : y % singleBlockExtent < 128 := Nat.mod_lt y (by decide)
  cases he
  rw [offset_of_plain hs rfl rfl x y width, blockOffset_eq, tiledByteOffset64kbRxBpp4Surface,
    tiledByteOffset64kbRxBpp4_eq hx hy]
  exact congrArg some (congrArg₂ (· + ·) rfl (congrArg₂ (· ^^^ ·)
    (flips_of_mod [0x4, 0x8, 0x80, 0x100, 0x2200, 0x800, 0x8400] x).symm
    (flips_of_mod [0x10, 0x20, 0x40, 0x1100, 0x200, 0x400, 0x4800] y).symm))

end SurfaceLayout

end Orbistoun.Gpu.Tiling
