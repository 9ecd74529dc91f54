import Mathlib.Tactic

/-! # Points along one edge of a tessellated patch

A factor in 16.16 fixed point divides an edge: its points are placed between a floor and a ceiling
tessellation, interpolated by the fraction of half the factor, the second half mirrored from the
first. The arithmetic is thirty-two bit and wrapping, as the code's is.
-/

namespace Orbistoun.Gpu.Tessellation

/-! ## Fixed point

A value in 16.16 fixed point, the source's `Fxp`, is a number below `2 ^ 32`. -/

def FRACTION_BITS : Nat := 16
def FRACTION_MASK : Nat := 0x0000ffff
def INTEGER_MASK : Nat := 0x7fff0000
def ONE : Nat := 0x10000
def ONE_THIRD : Nat := 0x00005555
def TWO_THIRDS : Nat := 0x0000aaaa
def ONE_HALF : Nat := 0x00008000

def wrappingAdd (x y : Nat) : Nat := (x + y) % 2 ^ 32

def wrappingSub (x y : Nat) : Nat := (x + (2 ^ 32 - y)) % 2 ^ 32

def wrappingMul (x y : Nat) : Nat := (x * y) % 2 ^ 32

/-- `1 / n` for `n` segments, entry 0 unused. -/
def RECIPROCAL : List Nat :=
  [0xffffffff, 0x10000, 0x8000, 0x5555, 0x4000, 0x3333, 0x2aab, 0x2492, 0x2000, 0x1c72, 0x199a,
    0x1746, 0x1555, 0x13b1, 0x1249, 0x1111, 0x1000, 0xf0f, 0xe39, 0xd79, 0xccd, 0xc31, 0xba3, 0xb21,
    0xaab, 0xa3d, 0x9d9, 0x97b, 0x925, 0x8d4, 0x889, 0x842, 0x800, 0x7c2, 0x788, 0x750, 0x71c,
    0x6eb, 0x6bd, 0x690, 0x666, 0x63e, 0x618, 0x5f4, 0x5d1, 0x5b0, 0x591, 0x572, 0x555, 0x539,
    0x51f, 0x505, 0x4ec, 0x4d5, 0x4be, 0x4a8, 0x492, 0x47e, 0x46a, 0x457, 0x444, 0x432, 0x421,
    0x410, 0x400]

def reciprocal (segments : Nat) : Nat := RECIPROCAL.getD segments 0

def fxpFloor (input : Nat) : Nat := input &&& INTEGER_MASK

def fxpCeil (input : Nat) : Nat :=
  if input &&& FRACTION_MASK ≠ 0 then wrappingAdd (input &&& INTEGER_MASK) ONE else input

/-- The first set bit from a checked one down, cleared. -/
def removeMsbLoop : Nat → Nat → Nat → Nat
  | 0, _, _ => 0
  | left + 1, value, check =>
      if value &&& check ≠ 0 then value &&& (0xffffffff ^^^ check)
      else removeMsbLoop left value (check >>> 1)

/-- The value without its highest set bit among the eight below the byte boundary that holds it. -/
def removeMsb (value : Nat) : Nat :=
  removeMsbLoop 8 value
    (if value ≤ 0xffff then if value ≤ 0xff then 0x80 else 0x8000
      else if value ≤ 0xffffff then 0x800000 else 0x80000000)

/-! ## Placing points -/

/-- Which parity a factor is tessellated with. -/
inductive Parity where
  | even
  | odd
  deriving DecidableEq, Repr

/-- What every point placed along one factor shares. -/
structure FactorContext where
  inverseFloorSegments : Nat
  inverseCeilSegments : Nat
  halfFraction : Nat
  halfPoints : Nat
  splitPointOnFloor : Nat
  deriving DecidableEq, Repr

/-- How many points a factor puts on its edge. -/
def pointsForFactor (parity : Parity) (factor : Nat) : Nat :=
  let half := wrappingAdd factor 1 / 2
  match parity with
  | .odd => wrappingMul (fxpCeil (wrappingAdd ONE_HALF half)) 2 >>> FRACTION_BITS
  | .even => (wrappingMul (fxpCeil half) 2 >>> FRACTION_BITS) + 1

/-- Half a factor; one of 1 is tessellated as if odd. -/
def halfFactor (parity : Parity) (factor : Nat) : Nat :=
  let half := wrappingAdd factor 1 / 2
  if parity = .odd ∨ half = ONE_HALF then wrappingAdd half ONE_HALF else half

def segmentsOf (parity : Parity) (half : Nat) : Nat :=
  let segments := wrappingMul half 2 >>> FRACTION_BITS
  match parity with
  | .odd => segments - 1
  | .even => segments

def factorContext (parity : Parity) (factor : Nat) : FactorContext :=
  let half := halfFactor parity factor
  let floor := fxpFloor half
  let ceil := fxpCeil half
  let halfPoints := ceil >>> FRACTION_BITS
  { inverseFloorSegments := reciprocal (segmentsOf parity floor)
    inverseCeilSegments := reciprocal (segmentsOf parity ceil)
    halfFraction := wrappingSub half floor
    halfPoints
    splitPointOnFloor :=
      -- with the floor the ceiling, a value that makes the split never taken
      if ceil = floor then halfPoints + 1
      else
        match parity with
        | .odd =>
            if floor = ONE then 0 else (removeMsb ((floor >>> FRACTION_BITS) - 1) <<< 1) + 1
        | .even => (removeMsb (floor >>> FRACTION_BITS) <<< 1) + 1 }

/-- A point of the second half is placed as its mirror in the first. -/
def lowPoint (parity : Parity) (context : FactorContext) (point : Nat) : Nat :=
  if context.halfPoints ≤ point then
    (context.halfPoints <<< 1) - point - (if parity = .odd then 1 else 0)
  else point

def onFloor (context : FactorContext) (point : Nat) : Nat :=
  if context.splitPointOnFloor < point then wrappingSub point 1 else point

/-- Where a point of the first half lands, between its two tessellations. -/
def location (context : FactorContext) (point : Nat) : Nat :=
  let floorLocation := wrappingMul (onFloor context point) context.inverseFloorSegments
  let ceilLocation := wrappingMul point context.inverseCeilSegments
  wrappingAdd
    (wrappingAdd (wrappingMul floorLocation (wrappingSub ONE context.halfFraction))
      (wrappingMul ceilLocation context.halfFraction)) ONE_HALF >>> FRACTION_BITS

/-- Where along its edge a point of a factor lands. -/
def placePoint (parity : Parity) (context : FactorContext) (point : Nat) : Nat :=
  let low := lowPoint parity context point
  -- the middle is special-cased: the arithmetic cannot reach one half exactly
  if low = context.halfPoints then ONE_HALF
  else if context.halfPoints ≤ point then wrappingSub ONE (location context low)
  else location context low

def edgePoint (parity : Parity) (factor : Nat) (point : Nat) : Nat :=
  placePoint parity (factorContext parity factor) point

/-- The factors a parity tessellates: at least two for an even one, or the one of an edge of two
segments, and at most 63 for an odd one. -/
def InBounds (parity : Parity) (factor : Nat) : Prop :=
  match parity with
  | .odd => ONE ≤ factor ∧ factor ≤ 63 * ONE
  | .even => factor = ONE ∨ (2 * ONE ≤ factor ∧ factor ≤ 64 * ONE)

/-! ## The context of a factor -/

theorem and_integerMask {x : Nat} (h : x < 2 ^ 31) : x &&& INTEGER_MASK = x / ONE * ONE := by
  have hlow : (x &&& INTEGER_MASK) % ONE = 0 := by
    show (x &&& INTEGER_MASK) % 2 ^ 16 = 0
    rw [Nat.and_mod_two_pow, show INTEGER_MASK % 2 ^ 16 = 0 from rfl, Nat.and_zero]
  have hdiv : (x &&& INTEGER_MASK) / ONE = x / ONE := by
    show (x &&& INTEGER_MASK) / 2 ^ 16 = x / 2 ^ 16
    rw [Nat.and_div_two_pow, show INTEGER_MASK / 2 ^ 16 = 2 ^ 15 - 1 from rfl,
      Nat.and_two_pow_sub_one_eq_mod]
    exact Nat.mod_eq_of_lt (by omega)
  have hsum := Nat.div_add_mod (x &&& INTEGER_MASK) ONE
  rw [hlow, hdiv, Nat.add_zero, Nat.mul_comm] at hsum
  exact hsum.symm

theorem fxpFloor_eq {x : Nat} (h : x < 2 ^ 31) : fxpFloor x = x / ONE * ONE := and_integerMask h

theorem fxpCeil_eq {x : Nat} (h : x < 2 ^ 31 - ONE) :
    fxpCeil x = (x / ONE + (if x % ONE = 0 then 0 else 1)) * ONE := by
  have hbound : x < 2 ^ 31 := Nat.lt_of_lt_of_le h (Nat.sub_le _ _)
  have hmask : x &&& FRACTION_MASK = x % ONE := Nat.and_two_pow_sub_one_eq_mod x 16
  have hsum := Nat.div_add_mod x ONE
  unfold fxpCeil
  rw [hmask, and_integerMask hbound]
  by_cases hzero : x % ONE = 0
  · rw [if_neg (fun hne => hne hzero), if_pos hzero, Nat.add_zero, Nat.mul_comm]
    exact hsum.symm.trans (by rw [hzero, Nat.add_zero])
  · rw [if_pos hzero, if_neg hzero]
    show (x / 65536 * 65536 + 65536) % 4294967296 = (x / 65536 + 1) * 65536
    change x < 2147418112 at h
    omega

def contextOf (parity : Parity) (n fraction : Nat) : FactorContext :=
  let ceil := n + (if fraction = 0 then 0 else 1)
  let fewer := if parity = .odd then 1 else 0
  { inverseFloorSegments := reciprocal (2 * n - fewer)
    inverseCeilSegments := reciprocal (2 * ceil - fewer)
    halfFraction := fraction
    halfPoints := ceil
    splitPointOnFloor :=
      if fraction = 0 then ceil + 1
      else
        match parity with
        | .odd => if n = 1 then 0 else (removeMsb (n - 1) <<< 1) + 1
        | .even => (removeMsb n <<< 1) + 1 }

theorem halfFactor_odd {factor : Nat} (h : factor ≤ 63 * ONE) :
    halfFactor .odd factor = (factor + 1) / 2 + ONE_HALF := by
  have hbound : factor ≤ 63 * 65536 := h
  unfold halfFactor
  rw [if_pos (Or.inl rfl)]
  show ((factor + 1) % 4294967296 / 2 + 32768) % 4294967296 = (factor + 1) / 2 + 32768
  omega

theorem half_even {factor : Nat} (h : factor ≤ 64 * ONE) :
    wrappingAdd factor 1 / 2 = (factor + 1) / 2 := by
  have hbound : factor ≤ 64 * 65536 := h
  show (factor + 1) % 4294967296 / 2 = (factor + 1) / 2
  omega

theorem halfFactor_even {factor : Nat} (h : 2 * ONE ≤ factor) (h' : factor ≤ 64 * ONE) :
    halfFactor .even factor = (factor + 1) / 2 := by
  have hlow : 2 * 65536 ≤ factor := h
  have hne : ¬(Parity.even = Parity.odd ∨ (factor + 1) / 2 = ONE_HALF) := by
    show ¬(Parity.even = Parity.odd ∨ (factor + 1) / 2 = 32768)
    simp only [reduceCtorEq, false_or]
    omega
  unfold halfFactor
  rw [half_even h', if_neg hne]

theorem halfFactor_bounds {parity : Parity} {factor : Nat} (h : InBounds parity factor) :
    ONE ≤ halfFactor parity factor ∧ halfFactor parity factor ≤ 32 * ONE := by
  cases parity with
  | odd =>
    have hbounds : 65536 ≤ factor ∧ factor ≤ 63 * 65536 := h
    rw [halfFactor_odd h.2]
    show 65536 ≤ (factor + 1) / 2 + 32768 ∧ (factor + 1) / 2 + 32768 ≤ 32 * 65536
    omega
  | even =>
    rcases h with rfl | hbounds
    · decide
    · have hrange : 2 * 65536 ≤ factor ∧ factor ≤ 64 * 65536 := hbounds
      rw [halfFactor_even hbounds.1 hbounds.2]
      show 65536 ≤ (factor + 1) / 2 ∧ (factor + 1) / 2 ≤ 32 * 65536
      omega

theorem whole_shift (m : Nat) : (m * ONE) >>> FRACTION_BITS = m := by
  rw [Nat.shiftRight_eq_div_pow]
  exact Nat.mul_div_cancel m (by decide)

theorem double_shift {m : Nat} (h : m ≤ 33) :
    wrappingMul (m * ONE) 2 >>> FRACTION_BITS = 2 * m := by
  rw [Nat.shiftRight_eq_div_pow]
  show m * 65536 * 2 % 4294967296 / 65536 = 2 * m
  omega

theorem segmentsOf_mul {parity : Parity} {m : Nat} (h : m ≤ 33) :
    segmentsOf parity (m * ONE) = 2 * m - (if parity = .odd then 1 else 0) := by
  unfold segmentsOf
  rw [double_shift h]
  cases parity with
  | odd => rfl
  | even => rfl

theorem ceil_of_bounds {half : Nat} (h : half ≤ 32 * ONE) :
    fxpCeil half = (half / ONE + (if half % ONE = 0 then 0 else 1)) * ONE ∧
      half / ONE + (if half % ONE = 0 then 0 else 1) ≤ 33 := by
  have hbound : half ≤ 32 * 65536 := h
  have hn : half / ONE ≤ 32 := Nat.div_le_of_le_mul (by rw [Nat.mul_comm]; exact h)
  apply And.intro
  · exact fxpCeil_eq (by show half < 2147418112; omega)
  · split <;> omega

theorem factorContext_eq {parity : Parity} {factor : Nat} (h : InBounds parity factor) :
    factorContext parity factor = contextOf parity (halfFactor parity factor / ONE)
      (halfFactor parity factor % ONE) := by
  obtain ⟨hlow, hhigh⟩ := halfFactor_bounds h
  set half := halfFactor parity factor with hhalf
  obtain ⟨hceil, hmore⟩ := ceil_of_bounds hhigh
  have hhigh' : half ≤ 32 * 65536 := hhigh
  have hn : half / ONE ≤ 32 := Nat.div_le_of_le_mul (by rw [Nat.mul_comm]; exact hhigh)
  have hfloor : fxpFloor half = half / ONE * ONE := fxpFloor_eq (by omega)
  have hfraction : wrappingSub half (half / ONE * ONE) = half % ONE := by
    show (half + (4294967296 - half / 65536 * 65536)) % 4294967296 = half % 65536
    omega
  unfold factorContext contextOf
  simp only [← hhalf, hfloor, hceil, segmentsOf_mul hmore, segmentsOf_mul (Nat.le_succ_of_le hn),
    whole_shift, hfraction]
  by_cases hzero : half % ONE = 0
  · simp [hzero]
  · have hone : (half / ONE * ONE = ONE) ↔ half / ONE = 1 := by
      show half / 65536 * 65536 = 65536 ↔ half / 65536 = 1
      omega
    have hneq : ¬((half / ONE + 1) * ONE = half / ONE * ONE) := by
      show ¬((half / 65536 + 1) * 65536 = half / 65536 * 65536)
      omega
    simp only [hzero, if_false, hneq, hone]

/-- How many points a factor within bounds puts on its edge: twice its half's, and the middle of
an even one. -/
theorem pointsForFactor_eq {parity : Parity} {factor : Nat} (h : InBounds parity factor) :
    pointsForFactor parity factor =
      2 * (factorContext parity factor).halfPoints + (if parity = .odd then 0 else 1) := by
  obtain ⟨hlow, hhigh⟩ := halfFactor_bounds h
  obtain ⟨hceil, hmore⟩ := ceil_of_bounds hhigh
  have hpoints : wrappingMul (fxpCeil (halfFactor parity factor)) 2 >>> FRACTION_BITS =
      2 * (factorContext parity factor).halfPoints := by
    show _ = 2 * (fxpCeil (halfFactor parity factor) >>> FRACTION_BITS)
    rw [hceil, double_shift hmore, whole_shift]
  cases parity with
  | odd =>
    have hhalf : halfFactor .odd factor = wrappingAdd ONE_HALF (wrappingAdd factor 1 / 2) := by
      unfold halfFactor wrappingAdd
      rw [if_pos (Or.inl rfl), Nat.add_comm]
    rw [hhalf] at hpoints
    exact hpoints
  | even =>
    rcases h with rfl | hbounds
    · decide
    · rw [halfFactor_even hbounds.1 hbounds.2, ← half_even hbounds.2] at hpoints
      exact congrArg (· + 1) hpoints

/-! ## Interpolation -/

/-- Where a point is before rounding, in sixteen more bits of fraction. -/
def unrounded (context : FactorContext) (point : Nat) : Nat :=
  onFloor context point * context.inverseFloorSegments * (ONE - context.halfFraction) +
    point * context.inverseCeilSegments * context.halfFraction

/-- No operation that places a point wraps. -/
structure Unwrapped (context : FactorContext) (point : Nat) : Prop where
  aboveSplit : context.splitPointOnFloor < point → 1 ≤ point
  fraction : context.halfFraction ≤ ONE
  floorLocation : onFloor context point * context.inverseFloorSegments < 2 ^ 32
  ceilLocation : point * context.inverseCeilSegments < 2 ^ 32
  rounded : unrounded context point + ONE_HALF < 2 ^ 32

/-- A point placed without wrapping is its two locations' mean, rounded. -/
theorem location_of_unwrapped {context : FactorContext} {point : Nat}
    (h : Unwrapped context point) :
    location context point = (unrounded context point + ONE_HALF) / ONE := by
  have hround := h.rounded
  unfold unrounded at hround
  have hone : wrappingSub ONE context.halfFraction = ONE - context.halfFraction := by
    have hfraction : context.halfFraction ≤ 65536 := h.fraction
    show (65536 + (4294967296 - context.halfFraction)) % 4294967296 = 65536 - context.halfFraction
    omega
  simp only [location, unrounded, wrappingMul, wrappingAdd, Nat.mod_eq_of_lt h.floorLocation,
    Nat.mod_eq_of_lt h.ceilLocation, hone]
  generalize onFloor context point * context.inverseFloorSegments *
    (ONE - context.halfFraction) = floor at hround ⊢
  generalize point * context.inverseCeilSegments * context.halfFraction = ceil at hround ⊢
  have hfloor : floor % 2 ^ 32 = floor := Nat.mod_eq_of_lt (by omega)
  have hceil : ceil % 2 ^ 32 = ceil := Nat.mod_eq_of_lt (by omega)
  have hsum : (floor + ceil) % 2 ^ 32 = floor + ceil := Nat.mod_eq_of_lt (by omega)
  rw [hfloor, hceil, hsum, Nat.mod_eq_of_lt hround, Nat.shiftRight_eq_div_pow]
  rfl

/-- The last point before the middle is hardly past one half in either tessellation. -/
structure Bounded (context : FactorContext) : Prop where
  points : 0 < context.halfPoints
  fraction : context.halfFraction < ONE
  floor : onFloor context (context.halfPoints - 1) * context.inverseFloorSegments ≤ ONE_HALF + 7
  ceil : (context.halfPoints - 1) * context.inverseCeilSegments ≤ ONE_HALF

theorem onFloor_mono {context : FactorContext} {p q : Nat} (h : p ≤ q) (hq : q < 2 ^ 32) :
    onFloor context p ≤ onFloor context q := by
  have hsub : ∀ {x}, context.splitPointOnFloor < x → x < 2 ^ 32 → wrappingSub x 1 = x - 1 := by
    intro x hx hlt
    show (x + (4294967296 - 1)) % 4294967296 = x - 1
    omega
  unfold onFloor
  split
  · rename_i hp
    rw [if_pos (Nat.lt_of_lt_of_le hp h), hsub hp (Nat.lt_of_le_of_lt h hq),
      hsub (Nat.lt_of_lt_of_le hp h) hq]
    exact Nat.sub_le_sub_right h 1
  · split
    · rename_i hp hsplit
      rw [hsub hsplit hq]
      omega
    · exact h

theorem Bounded.before {context : FactorContext} (hbounded : Bounded context)
    (hsmall : context.halfPoints ≤ 33) {point : Nat} (h : point < context.halfPoints) :
    onFloor context point * context.inverseFloorSegments ≤ ONE_HALF + 7 ∧
      point * context.inverseCeilSegments ≤ ONE_HALF := by
  have hlast : point ≤ context.halfPoints - 1 := Nat.le_sub_one_of_lt h
  apply And.intro
  · apply Nat.le_trans _ hbounded.floor
    exact Nat.mul_le_mul_right _ (onFloor_mono hlast (by omega))
  · exact Nat.le_trans (Nat.mul_le_mul_right _ hlast) hbounded.ceil

theorem Bounded.unrounded_le {context : FactorContext} (hbounded : Bounded context)
    (hsmall : context.halfPoints ≤ 33) {point : Nat} (h : point < context.halfPoints) :
    unrounded context point ≤ (ONE_HALF + 7) * ONE := by
  obtain ⟨hfloor, hceil⟩ := hbounded.before hsmall h
  have hceil' := Nat.le_trans hceil (Nat.le_add_right ONE_HALF 7)
  calc unrounded context point
      ≤ (ONE_HALF + 7) * (ONE - context.halfFraction) +
          (ONE_HALF + 7) * context.halfFraction :=
        Nat.add_le_add (Nat.mul_le_mul_right _ hfloor) (Nat.mul_le_mul_right _ hceil')
    _ = (ONE_HALF + 7) * ONE := by
        rw [← Nat.mul_add, Nat.sub_add_cancel (Nat.le_of_lt hbounded.fraction)]

theorem Bounded.unwrapped {context : FactorContext} (hbounded : Bounded context)
    (hsmall : context.halfPoints ≤ 33) {point : Nat} (h : point < context.halfPoints) :
    Unwrapped context point := by
  obtain ⟨hfloor, hceil⟩ := hbounded.before hsmall h
  have hraw := hbounded.unrounded_le hsmall h
  have hrounded := Nat.add_le_add_right hraw ONE_HALF
  exact {
    aboveSplit := fun hsplit => by omega
    fraction := Nat.le_of_lt hbounded.fraction
    floorLocation := Nat.lt_of_le_of_lt hfloor (by decide)
    ceilLocation := Nat.lt_of_le_of_lt hceil (by decide)
    rounded := Nat.lt_of_le_of_lt hrounded (by decide) }

theorem Bounded.location_mono {context : FactorContext} (hbounded : Bounded context)
    (hsmall : context.halfPoints ≤ 33) {p q : Nat} (h : p ≤ q) (hq : q < context.halfPoints) :
    location context p ≤ location context q := by
  rw [location_of_unwrapped (hbounded.unwrapped hsmall hq),
    location_of_unwrapped (hbounded.unwrapped hsmall (Nat.lt_of_le_of_lt h hq))]
  apply Nat.div_le_div_right
  apply Nat.add_le_add_right
  apply Nat.add_le_add
  · exact Nat.mul_le_mul_right _ (Nat.mul_le_mul_right _ (onFloor_mono h (by omega)))
  · exact Nat.mul_le_mul_right _ (Nat.mul_le_mul_right _ h)

theorem Bounded.location_le {context : FactorContext} (hbounded : Bounded context)
    (hsmall : context.halfPoints ≤ 33) {point : Nat} (h : point < context.halfPoints) :
    location context point ≤ ONE_HALF + 7 := by
  rw [location_of_unwrapped (hbounded.unwrapped hsmall h)]
  have hraw := hbounded.unrounded_le hsmall h
  change unrounded context point ≤ (32768 + 7) * 65536 at hraw
  show (unrounded context point + 32768) / 65536 ≤ 32768 + 7
  omega

/-! ## The half's two tessellations -/

def lastOnFloor (parity : Parity) (n fraction : Nat) : Nat :=
  let context := contextOf parity n fraction
  onFloor context (context.halfPoints - 1) * context.inverseFloorSegments

def lastOnCeil (parity : Parity) (n fraction : Nat) : Nat :=
  let context := contextOf parity n fraction
  (context.halfPoints - 1) * context.inverseCeilSegments

theorem last_whole :
    ∀ n < 33, ∀ parity, 1 ≤ n → lastOnFloor parity n 0 ≤ ONE_HALF ∧
      lastOnCeil parity n 0 ≤ ONE_HALF := by
  intro n hn parity
  cases parity with
  | odd => revert n; decide +kernel
  | even => revert n; decide +kernel

/-- With a fraction its place on the floor is past one half for two even factors alone. -/
theorem last_fractional :
    ∀ n < 32, ∀ parity, 1 ≤ n → lastOnCeil parity n 1 ≤ ONE_HALF ∧
      (parity = .even ∧ n = 3 ∧ lastOnFloor parity n 1 = 0x8001 ∧ lastOnCeil parity n 1 = 0x6000 ∨
        parity = .even ∧ n = 15 ∧ lastOnFloor parity n 1 = 0x8007 ∧
          lastOnCeil parity n 1 = 0x7800 ∨
        ¬(parity = .even ∧ (n = 3 ∨ n = 15)) ∧ lastOnFloor parity n 1 ≤ ONE_HALF) := by
  intro n hn parity
  cases parity with
  | odd => revert n; decide +kernel
  | even => revert n; decide +kernel

theorem contextOf_fraction {parity : Parity} {n fraction : Nat} (h : fraction ≠ 0) :
    contextOf parity n fraction = { contextOf parity n 1 with halfFraction := fraction } := by
  unfold contextOf
  simp only [h, if_false, Nat.one_ne_zero]

theorem lastOnFloor_fraction {parity : Parity} {n fraction : Nat} (h : fraction ≠ 0) :
    lastOnFloor parity n fraction = lastOnFloor parity n 1 := by
  unfold lastOnFloor
  rw [contextOf_fraction h]
  rfl

theorem lastOnCeil_fraction {parity : Parity} {n fraction : Nat} (h : fraction ≠ 0) :
    lastOnCeil parity n fraction = lastOnCeil parity n 1 := by
  unfold lastOnCeil
  rw [contextOf_fraction h]

/-- Half a factor within bounds, whole part and fraction. -/
structure Half (n fraction : Nat) : Prop where
  one : 1 ≤ n
  below : fraction < ONE
  most : fraction = 0 ∧ n ≤ 32 ∨ fraction ≠ 0 ∧ n ≤ 31

/-- Half the factors whose last point before the middle is placed past it. -/
def PastHalf (parity : Parity) (n fraction : Nat) : Prop :=
  parity = .even ∧ fraction ≠ 0 ∧ (n = 3 ∧ fraction ≤ 3 ∨ n = 15 ∧ fraction ≤ 207)

theorem Half.bounded {n fraction : Nat} (h : Half n fraction) (parity : Parity) :
    Bounded (contextOf parity n fraction) where
  points := Nat.lt_of_lt_of_le h.one (Nat.le_add_right n _)
  fraction := h.below
  floor := by
    show lastOnFloor parity n fraction ≤ ONE_HALF + 7
    rcases h.most with ⟨rfl, hn⟩ | ⟨hne, hn⟩
    · exact Nat.le_trans (last_whole n (by omega) parity h.one).1 (Nat.le_add_right _ _)
    · rw [lastOnFloor_fraction hne]
      rcases (last_fractional n (by omega) parity h.one).2 with hcase | hcase | hcase
      · rw [hcase.2.2.1]
        decide
      · rw [hcase.2.2.1]
        decide
      · exact Nat.le_trans hcase.2 (Nat.le_add_right _ _)
  ceil := by
    show lastOnCeil parity n fraction ≤ ONE_HALF
    rcases h.most with ⟨rfl, hn⟩ | ⟨hne, hn⟩
    · exact (last_whole n (by omega) parity h.one).2
    · rw [lastOnCeil_fraction hne]
      exact (last_fractional n (by omega) parity h.one).1

theorem Half.small {n fraction : Nat} (h : Half n fraction) (parity : Parity) :
    (contextOf parity n fraction).halfPoints ≤ 33 := by
  show n + (if fraction = 0 then 0 else 1) ≤ 33
  rcases h.most with ⟨rfl, hn⟩ | ⟨hne, hn⟩
  · simp only [if_true]
    omega
  · rw [if_neg hne]
    omega

theorem Half.last_past_iff {n fraction : Nat} (h : Half n fraction) (parity : Parity) :
    ONE_HALF < location (contextOf parity n fraction) ((contextOf parity n fraction).halfPoints - 1)
      ↔ PastHalf parity n fraction := by
  have hbounded := h.bounded parity
  rw [location_of_unwrapped (hbounded.unwrapped (h.small parity)
    (Nat.sub_lt hbounded.points Nat.one_pos))]
  show ONE_HALF < (lastOnFloor parity n fraction * (ONE - fraction) +
    lastOnCeil parity n fraction * fraction + ONE_HALF) / ONE ↔ _
  have hfraction : fraction < 65536 := h.below
  -- a mean of two places at most one half is at most one half
  have hmean : ∀ {floor ceil}, floor ≤ ONE_HALF → ceil ≤ ONE_HALF →
      ¬ONE_HALF < (floor * (ONE - fraction) + ceil * fraction + ONE_HALF) / ONE := by
    intro floor ceil hfloor hceil
    have hsum : floor * (ONE - fraction) + ceil * fraction ≤ ONE_HALF * ONE :=
      calc floor * (ONE - fraction) + ceil * fraction
          ≤ ONE_HALF * (ONE - fraction) + ONE_HALF * fraction :=
            Nat.add_le_add (Nat.mul_le_mul_right _ hfloor) (Nat.mul_le_mul_right _ hceil)
        _ = ONE_HALF * ONE := by
            rw [← Nat.mul_add, Nat.sub_add_cancel (Nat.le_of_lt h.below)]
    generalize floor * (ONE - fraction) + ceil * fraction = sum at hsum ⊢
    change sum ≤ 32768 * 65536 at hsum
    show ¬32768 < (sum + 32768) / 65536
    omega
  rcases h.most with ⟨rfl, hn⟩ | ⟨hne, hn⟩
  · obtain ⟨hfloor, hceil⟩ := last_whole n (by omega) parity h.one
    apply iff_of_false (hmean hfloor hceil)
    exact fun hpast => hpast.2.1 rfl
  · rw [lastOnFloor_fraction hne, lastOnCeil_fraction hne]
    obtain ⟨hceil, hcase⟩ := last_fractional n (by omega) parity h.one
    rcases hcase with ⟨rfl, rfl, hfloor, hlast⟩ | ⟨rfl, rfl, hfloor, hlast⟩ | ⟨hother, hfloor⟩
    · rw [hfloor, hlast]
      show 32768 < (0x8001 * (65536 - fraction) + 0x6000 * fraction + 32768) / 65536 ↔ _
      unfold PastHalf
      simp only [true_and, Nat.reduceEqDiff, false_and, or_false]
      omega
    · rw [hfloor, hlast]
      show 32768 < (0x8007 * (65536 - fraction) + 0x7800 * fraction + 32768) / 65536 ↔ _
      unfold PastHalf
      simp only [true_and, Nat.reduceEqDiff, false_and, false_or]
      omega
    · apply iff_of_false (hmean hfloor hceil)
      intro hpast
      exact hother ⟨hpast.1, hpast.2.2.imp And.left And.left⟩

theorem half_of_inBounds {parity : Parity} {factor : Nat} (h : InBounds parity factor) :
    Half (halfFactor parity factor / ONE) (halfFactor parity factor % ONE) := by
  obtain ⟨hlow, hhigh⟩ := halfFactor_bounds h
  change 65536 ≤ halfFactor parity factor at hlow
  change halfFactor parity factor ≤ 32 * 65536 at hhigh
  exact {
    one := by
      show 1 ≤ halfFactor parity factor / 65536
      omega
    below := Nat.mod_lt _ (by decide)
    most := by
      show halfFactor parity factor % 65536 = 0 ∧ halfFactor parity factor / 65536 ≤ 32 ∨
        halfFactor parity factor % 65536 ≠ 0 ∧ halfFactor parity factor / 65536 ≤ 31
      omega }

/-! ## The edge -/

/-- The even factors whose points pass the middle before it: just past six and just past
thirty. -/
def PastMiddle (parity : Parity) (factor : Nat) : Prop :=
  parity = .even ∧ (6 * ONE < factor ∧ factor ≤ 6 * ONE + 6 ∨
    30 * ONE < factor ∧ factor ≤ 30 * ONE + 414)

instance (parity : Parity) (factor : Nat) : Decidable (PastMiddle parity factor) := by
  unfold PastMiddle
  infer_instance

theorem pastHalf_iff {parity : Parity} {factor : Nat} (h : InBounds parity factor) :
    PastHalf parity (halfFactor parity factor / ONE) (halfFactor parity factor % ONE) ↔
      PastMiddle parity factor := by
  cases parity with
  | odd => exact iff_of_false (fun hpast => nomatch hpast.1) (fun hpast => nomatch hpast.1)
  | even =>
    unfold PastHalf PastMiddle
    simp only [true_and]
    rcases h with rfl | hbounds
    · decide
    · rw [halfFactor_even hbounds.1 hbounds.2]
      show ((factor + 1) / 2 % 65536 ≠ 0 ∧ ((factor + 1) / 2 / 65536 = 3 ∧
          (factor + 1) / 2 % 65536 ≤ 3 ∨ (factor + 1) / 2 / 65536 = 15 ∧
          (factor + 1) / 2 % 65536 ≤ 207)) ↔
        (6 * 65536 < factor ∧ factor ≤ 6 * 65536 + 6 ∨
          30 * 65536 < factor ∧ factor ≤ 30 * 65536 + 414)
      omega

section Edge

variable {parity : Parity} {factor : Nat} (h : InBounds parity factor)
include h

theorem factor_bounded : Bounded (factorContext parity factor) := by
  rw [factorContext_eq h]
  exact (half_of_inBounds h).bounded parity

theorem factor_small : (factorContext parity factor).halfPoints ≤ 33 := by
  rw [factorContext_eq h]
  exact (half_of_inBounds h).small parity

theorem factor_past_iff :
    ONE_HALF < location (factorContext parity factor) ((factorContext parity factor).halfPoints - 1)
      ↔ PastMiddle parity factor := by
  rw [← pastHalf_iff h, factorContext_eq h]
  exact (half_of_inBounds h).last_past_iff parity

theorem factor_location_le {k : Nat} (hk : k < (factorContext parity factor).halfPoints) :
    location (factorContext parity factor) k ≤ ONE_HALF + 7 :=
  (factor_bounded h).location_le (factor_small h) hk

omit h

theorem edgePoint_before {k : Nat} (hk : k < (factorContext parity factor).halfPoints) :
    edgePoint parity factor k = location (factorContext parity factor) k := by
  unfold edgePoint placePoint lowPoint
  rw [if_neg (Nat.not_le_of_lt hk), if_neg (Nat.ne_of_lt hk), if_neg (Nat.not_le_of_lt hk)]

theorem edgePoint_middle :
    edgePoint .even factor (factorContext .even factor).halfPoints = ONE_HALF := by
  unfold edgePoint placePoint lowPoint
  rw [if_pos (Nat.le_refl _), if_pos]
  simp only [reduceCtorEq, if_false, Nat.shiftLeft_eq]
  omega

include h

theorem before_lt {k : Nat} (hk : k < (factorContext parity factor).halfPoints) :
    k < pointsForFactor parity factor := by
  rw [pointsForFactor_eq h]
  omega

theorem edgePoint_mirror {k : Nat} (hk : k < (factorContext parity factor).halfPoints) :
    edgePoint parity factor (pointsForFactor parity factor - 1 - k) =
      ONE - edgePoint parity factor k := by
  have hle := factor_location_le h hk
  change location (factorContext parity factor) k ≤ 32768 + 7 at hle
  have hlow : lowPoint parity (factorContext parity factor)
      (pointsForFactor parity factor - 1 - k) = k := by
    unfold lowPoint
    rw [pointsForFactor_eq h, Nat.shiftLeft_eq]
    cases parity with
    | odd =>
      rw [if_pos rfl, if_pos rfl, if_pos (by omega)]
      omega
    | even =>
      simp only [reduceCtorEq, if_false]
      rw [if_pos (by omega)]
      omega
  have hpast : (factorContext parity factor).halfPoints ≤ pointsForFactor parity factor - 1 - k := by
    rw [pointsForFactor_eq h]
    split <;> omega
  rw [edgePoint_before hk]
  unfold edgePoint placePoint
  simp only [hlow, if_neg (Nat.ne_of_lt hk), if_pos hpast]
  show (65536 + (4294967296 - location (factorContext parity factor) k)) % 4294967296 =
    65536 - location (factorContext parity factor) k
  omega

/-- A point is before the middle, the middle of an even edge, or the mirror of one before. -/
theorem point_cases {k : Nat} (hk : k < pointsForFactor parity factor) :
    k < (factorContext parity factor).halfPoints ∨
      parity = .even ∧ k = (factorContext parity factor).halfPoints ∨
      ∃ low, low < (factorContext parity factor).halfPoints ∧
        k = pointsForFactor parity factor - 1 - low := by
  rw [pointsForFactor_eq h] at hk ⊢
  cases parity with
  | odd =>
    rw [if_pos rfl] at hk ⊢
    by_cases hbefore : k < (factorContext .odd factor).halfPoints
    · exact Or.inl hbefore
    · apply Or.inr
      apply Or.inr
      exact ⟨2 * (factorContext .odd factor).halfPoints - 1 - k, by omega, by omega⟩
  | even =>
    rw [if_neg (by decide)] at hk ⊢
    rcases Nat.lt_trichotomy k (factorContext .even factor).halfPoints with hlt | heq | hgt
    · exact Or.inl hlt
    · exact Or.inr (Or.inl ⟨rfl, heq⟩)
    · apply Or.inr
      apply Or.inr
      exact ⟨2 * (factorContext .even factor).halfPoints - k, by omega, by omega⟩

theorem edgePoint_le {k : Nat} (hk : k < pointsForFactor parity factor) :
    edgePoint parity factor k ≤ ONE := by
  rcases point_cases h hk with hbefore | ⟨rfl, rfl⟩ | ⟨low, hlow, rfl⟩
  · rw [edgePoint_before hbefore]
    exact Nat.le_trans (factor_location_le h hbefore) (by decide)
  · rw [edgePoint_middle]
    decide
  · rw [edgePoint_mirror h hlow]
    exact Nat.sub_le _ _

/-- Each point's mirror is one minus it. -/
theorem edgePoint_mirrored {k : Nat} (hk : k < pointsForFactor parity factor) :
    edgePoint parity factor (pointsForFactor parity factor - 1 - k) =
      ONE - edgePoint parity factor k := by
  rcases point_cases h hk with hbefore | ⟨rfl, rfl⟩ | ⟨low, hlow, rfl⟩
  · exact edgePoint_mirror h hbefore
  · have hsame : pointsForFactor .even factor - 1 - (factorContext .even factor).halfPoints =
        (factorContext .even factor).halfPoints := by
      rw [pointsForFactor_eq h, if_neg (by decide)]
      omega
    rw [hsame, edgePoint_middle]
    rfl
  · have hlt := before_lt h hlow
    have hback : pointsForFactor parity factor - 1 - (pointsForFactor parity factor - 1 - low) =
        low := by omega
    have hle := edgePoint_le h hlt
    rw [hback, edgePoint_mirror h hlow]
    omega

/-- Before the middle points are in order. -/
theorem edgePoint_mono_before {p q : Nat} (hle : p ≤ q)
    (hq : q < (factorContext parity factor).halfPoints) :
    edgePoint parity factor p ≤ edgePoint parity factor q := by
  rw [edgePoint_before hq, edgePoint_before (Nat.lt_of_le_of_lt hle hq)]
  exact (factor_bounded h).location_mono (factor_small h) hle hq

/-- The step to a point from the one before: in order in the first half, to the middle or across
it, or the mirror of a step of the first half. -/
theorem step_cases {k : Nat} (hk : k + 1 < pointsForFactor parity factor) :
    k + 1 < (factorContext parity factor).halfPoints ∨
      k + 1 = (factorContext parity factor).halfPoints ∨
      parity = .even ∧ k = (factorContext parity factor).halfPoints ∨
      ∃ low, low + 1 < (factorContext parity factor).halfPoints ∧
        k = pointsForFactor parity factor - 1 - (low + 1) ∧
        (parity = .even → (factorContext parity factor).halfPoints < k) := by
  rw [pointsForFactor_eq h] at hk ⊢
  cases parity with
  | odd =>
    rw [if_pos rfl] at hk ⊢
    rcases Nat.lt_trichotomy (k + 1) (factorContext .odd factor).halfPoints with hlt | heq | hgt
    · exact Or.inl hlt
    · exact Or.inr (Or.inl heq)
    · apply Or.inr
      apply Or.inr
      apply Or.inr
      exact ⟨2 * (factorContext .odd factor).halfPoints - 2 - k, by omega, by omega,
        fun heven => nomatch heven⟩
  | even =>
    rw [if_neg (by decide)] at hk ⊢
    rcases Nat.lt_trichotomy (k + 1) (factorContext .even factor).halfPoints with hlt | heq | hgt
    · exact Or.inl hlt
    · exact Or.inr (Or.inl heq)
    · apply Or.inr
      apply Or.inr
      rcases Nat.eq_or_lt_of_le (Nat.le_of_lt_succ hgt) with heq | hlt
      · exact Or.inl ⟨rfl, heq.symm⟩
      · apply Or.inr
        exact ⟨2 * (factorContext .even factor).halfPoints - 1 - k, by omega, by omega,
          fun _ => hlt⟩

theorem half_count :
    pointsForFactor parity factor / 2 = (factorContext parity factor).halfPoints := by
  rw [pointsForFactor_eq h]
  split <;> omega

theorem falls_to_middle {k : Nat} (hk : k + 1 = (factorContext parity factor).halfPoints) :
    edgePoint parity factor (k + 1) < edgePoint parity factor k ↔ PastMiddle parity factor := by
  have hbefore : k < (factorContext parity factor).halfPoints := by omega
  have hlast : k = (factorContext parity factor).halfPoints - 1 := by omega
  have hiff := factor_past_iff h
  rw [← hlast] at hiff
  rw [edgePoint_before hbefore]
  cases parity with
  | odd =>
    have hmirror : k + 1 = pointsForFactor .odd factor - 1 - k := by
      rw [pointsForFactor_eq h, if_pos rfl]
      omega
    rw [hmirror, edgePoint_mirror h hbefore, edgePoint_before hbefore, ← hiff]
    show 65536 - location (factorContext .odd factor) k < location (factorContext .odd factor) k ↔
      32768 < location (factorContext .odd factor) k
    omega
  | even =>
    rw [hk, edgePoint_middle]
    exact hiff

theorem falls_from_middle {k : Nat} (hparity : parity = .even)
    (hk : k = (factorContext parity factor).halfPoints) :
    edgePoint parity factor (k + 1) < edgePoint parity factor k ↔ PastMiddle parity factor := by
  have hpoints := (factor_bounded h).points
  subst hparity
  have hbefore : k - 1 < (factorContext .even factor).halfPoints := by omega
  have hmirror : k + 1 = pointsForFactor .even factor - 1 - (k - 1) := by
    rw [pointsForFactor_eq h, if_neg (by decide)]
    omega
  have hiff := factor_past_iff h
  rw [← hk] at hiff
  have hle := factor_location_le h hbefore
  change location (factorContext .even factor) (k - 1) ≤ 32768 + 7 at hle
  rw [hmirror, edgePoint_mirror h hbefore, edgePoint_before hbefore, hk, edgePoint_middle, ← hk,
    ← hiff]
  show 65536 - location (factorContext .even factor) (k - 1) < 32768 ↔
    32768 < location (factorContext .even factor) (k - 1)
  omega

theorem edgePoint_falls {k : Nat} (hk : k + 1 < pointsForFactor parity factor) :
    edgePoint parity factor (k + 1) < edgePoint parity factor k ↔
      PastMiddle parity factor ∧ (k + 1 = pointsForFactor parity factor / 2 ∨
        k = pointsForFactor parity factor / 2) := by
  rw [half_count h]
  rcases step_cases h hk with hfirst | hto | ⟨hparity, hfrom⟩ | ⟨low, hlow, heq, hpast⟩
  · apply iff_of_false
    · exact Nat.not_lt.mpr (edgePoint_mono_before h (Nat.le_succ k) hfirst)
    · omega
  · rw [falls_to_middle h hto]
    exact ⟨fun hmiddle => ⟨hmiddle, Or.inl hto⟩, And.left⟩
  · rw [falls_from_middle h hparity hfrom]
    exact ⟨fun hmiddle => ⟨hmiddle, Or.inr hfrom⟩, And.left⟩
  · have hlt := before_lt h hlow
    have hnext : k + 1 = pointsForFactor parity factor - 1 - low := by omega
    apply iff_of_false
    · rw [hnext, edgePoint_mirror h (Nat.lt_of_succ_lt hlow), heq, edgePoint_mirror h hlow]
      exact Nat.not_lt.mpr (Nat.sub_le_sub_left (edgePoint_mono_before h (Nat.le_succ low) hlow) _)
    · intro hmiddle
      have := hpast hmiddle.1.1
      omega

theorem edgePoint_fallsLittle {k : Nat} (hk : k + 1 < pointsForFactor parity factor) :
    edgePoint parity factor k ≤ edgePoint parity factor (k + 1) + 7 := by
  by_cases hfalls : edgePoint parity factor (k + 1) < edgePoint parity factor k
  · obtain ⟨hmiddle, hplace⟩ := (edgePoint_falls h hk).mp hfalls
    obtain rfl := hmiddle.1
    rw [half_count h] at hplace
    have hpoints := (factor_bounded h).points
    rcases hplace with hto | hfrom
    · have hbefore : k < (factorContext .even factor).halfPoints := by omega
      rw [hto, edgePoint_middle, edgePoint_before hbefore]
      exact factor_location_le h hbefore
    · have hbefore : k - 1 < (factorContext .even factor).halfPoints := by omega
      have hmirror : k + 1 = pointsForFactor .even factor - 1 - (k - 1) := by
        rw [pointsForFactor_eq h, if_neg (by decide)]
        omega
      have hle := factor_location_le h hbefore
      change location (factorContext .even factor) (k - 1) ≤ 32768 + 7 at hle
      rw [hmirror, edgePoint_mirror h hbefore, edgePoint_before hbefore, hfrom, edgePoint_middle,
        ← hfrom]
      show 32768 ≤ 65536 - location (factorContext .even factor) (k - 1) + 7
      omega
  · omega

theorem edgePoint_first : edgePoint parity factor 0 = 0 := by
  have hpoints := (factor_bounded h).points
  have hunwrapped := (factor_bounded h).unwrapped (factor_small h) hpoints
  have hnot : ¬(factorContext parity factor).splitPointOnFloor < 0 := Nat.not_lt_zero _
  rw [edgePoint_before hpoints, location_of_unwrapped hunwrapped]
  unfold unrounded onFloor
  rw [if_neg hnot, Nat.zero_mul, Nat.zero_mul, Nat.zero_mul, Nat.zero_mul]
  rfl

theorem factor_le : factor ≤ 64 * ONE := by
  cases parity with
  | odd => exact Nat.le_trans h.2 (by decide)
  | even =>
    rcases h with rfl | hbounds
    · decide
    · exact hbounds.2

theorem factor_tables :
    segmentsOf parity (fxpFloor (halfFactor parity factor)) < RECIPROCAL.length ∧
      segmentsOf parity (fxpCeil (halfFactor parity factor)) < RECIPROCAL.length := by
  obtain ⟨hlow, hhigh⟩ := halfFactor_bounds h
  change halfFactor parity factor ≤ 32 * 65536 at hhigh
  have hfloor : fxpFloor (halfFactor parity factor) = halfFactor parity factor / ONE * ONE :=
    fxpFloor_eq (by omega)
  obtain ⟨hceil, hmore⟩ := ceil_of_bounds hhigh
  have hwhole : halfFactor parity factor / ONE + (if halfFactor parity factor % ONE = 0 then 0
      else 1) ≤ 32 := by
    show halfFactor parity factor / 65536 + (if halfFactor parity factor % 65536 = 0 then 0
      else 1) ≤ 32
    split <;> omega
  rw [hfloor, hceil, segmentsOf_mul hmore, segmentsOf_mul (by omega)]
  show _ < 65 ∧ _ < 65
  omega

theorem factor_mirror {k : Nat} (hk : k < pointsForFactor parity factor) :
    k + (if parity = .odd then 1 else 0) ≤ 2 * (factorContext parity factor).halfPoints ∧
      lowPoint parity (factorContext parity factor) k ≤
        (factorContext parity factor).halfPoints := by
  rw [pointsForFactor_eq h] at hk
  unfold lowPoint
  rw [Nat.shiftLeft_eq]
  cases parity with
  | odd =>
    simp only [if_true] at hk ⊢
    split <;> omega
  | even =>
    simp only [reduceCtorEq, if_false] at hk ⊢
    split <;> omega

end Edge

/-- The points along an edge run from zero to one, mirrored about the middle, and are placed
without wrapping; they fall only to the middle and from it, and only where the half passes it. -/
structure EdgePlaced (parity : Parity) (factor : Nat) : Prop where
  first : edgePoint parity factor 0 = 0
  last : edgePoint parity factor (pointsForFactor parity factor - 1) = ONE
  within : ∀ k < pointsForFactor parity factor, edgePoint parity factor k ≤ ONE
  mirrored : ∀ k < pointsForFactor parity factor,
    edgePoint parity factor (pointsForFactor parity factor - 1 - k) =
      ONE - edgePoint parity factor k
  falls : ∀ k, k + 1 < pointsForFactor parity factor →
    (edgePoint parity factor (k + 1) < edgePoint parity factor k ↔
      PastMiddle parity factor ∧ (k + 1 = pointsForFactor parity factor / 2 ∨
        k = pointsForFactor parity factor / 2))
  fallsLittle : ∀ k, k + 1 < pointsForFactor parity factor →
    edgePoint parity factor k ≤ edgePoint parity factor (k + 1) + 7
  factorUnwrapped : factor + 1 < 2 ^ 32 ∧ halfFactor parity factor + ONE < 2 ^ 32 ∧
    2 * fxpCeil (halfFactor parity factor) < 2 ^ 32
  tables : segmentsOf parity (fxpFloor (halfFactor parity factor)) < RECIPROCAL.length ∧
    segmentsOf parity (fxpCeil (halfFactor parity factor)) < RECIPROCAL.length
  mirror : ∀ k < pointsForFactor parity factor,
    k + (if parity = .odd then 1 else 0) ≤ 2 * (factorContext parity factor).halfPoints ∧
      lowPoint parity (factorContext parity factor) k ≤ (factorContext parity factor).halfPoints
  unwrapped : ∀ k < (factorContext parity factor).halfPoints,
    Unwrapped (factorContext parity factor) k ∧ location (factorContext parity factor) k ≤ ONE

theorem edgePlaced {parity : Parity} {factor : Nat} (h : InBounds parity factor) :
    EdgePlaced parity factor := by
  obtain ⟨hlow, hhigh⟩ := halfFactor_bounds h
  obtain ⟨hceil, hmore⟩ := ceil_of_bounds hhigh
  have hpoints := (factor_bounded h).points
  have hlast : 0 < pointsForFactor parity factor := before_lt h hpoints
  exact {
    first := edgePoint_first h
    last := by
      have hmirror := edgePoint_mirrored h hlast
      rw [edgePoint_first h] at hmirror
      exact hmirror
    within := fun k hk => edgePoint_le h hk
    mirrored := fun k hk => edgePoint_mirrored h hk
    falls := fun k hk => edgePoint_falls h hk
    fallsLittle := fun k hk => edgePoint_fallsLittle h hk
    factorUnwrapped := ⟨Nat.lt_of_le_of_lt (Nat.succ_le_succ (factor_le h)) (by decide),
      Nat.lt_of_le_of_lt (Nat.add_le_add_right hhigh ONE) (by decide), by
        rw [hceil]
        exact Nat.lt_of_le_of_lt (Nat.mul_le_mul_left 2 (Nat.mul_le_mul_right ONE hmore))
          (by decide)⟩
    tables := factor_tables h
    mirror := fun k hk => factor_mirror h hk
    unwrapped := by
      intro k hk
      exact ⟨(factor_bounded h).unwrapped (factor_small h) hk,
        Nat.le_trans (factor_location_le h hk) (by decide)⟩ }

end Orbistoun.Gpu.Tessellation
