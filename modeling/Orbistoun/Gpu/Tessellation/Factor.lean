import Orbistoun.Gpu.Tessellation.Edge

/-! # The factor of an edge

A patch's factors are single-precision floats, here their bits. An edge's factor is clamped to its
partitioning's bounds, rounded up by an integer one, and converted to fixed point; whatever float
it was, it then is within the bounds a tessellation needs.
-/

namespace Orbistoun.Gpu.Tessellation

/-! ## Floats by their bits -/

def isNan (bits : Nat) : Bool :=
  bits &&& 0x7f800000 == 0x7f800000 && bits &&& 0x007fffff != 0

/-- A denormal flushed to a zero of its sign. -/
def flush (bits : Nat) : Nat :=
  if bits &&& 0x7fffffff < 0x00800000 then bits &&& 0x80000000 else bits

/-- Where a float that is a number stands among them; both zeros stand at 0. -/
def order (bits : Nat) : Int :=
  if bits < 2 ^ 31 then (bits : Int) else -((bits % 2 ^ 31 : Nat) : Int)

/-- The IEEE comparison, false of a NaN. -/
def less (a b : Nat) : Bool := !isNan a && !isNan b && order a < order b

def isZero (bits : Nat) : Bool := order bits == 0

/-- IEEE 754R minimum: a NaN second operand gives the first. -/
def fmin (a b : Nat) : Nat :=
  let fa := flush a
  let fb := flush b
  if isNan fb then a
  else if isZero fa && isZero fb then (if fa &&& 0x80000000 ≠ 0 then a else b)
  else if less fa fb then a
  else b

/-- IEEE 754R maximum: a NaN second operand gives the first. -/
def fmax (a b : Nat) : Nat :=
  let fa := flush a
  let fb := flush b
  if isNan fb then a
  else if isZero fa && isZero fb then (if fb &&& 0x80000000 ≠ 0 then a else b)
  -- `fa >= fb`, false where the first is a NaN
  else if !isNan fa && order fb ≤ order fa then a
  else b

def exponentField (bits : Nat) : Nat := bits / 2 ^ 23 % 256

/-- The least whole number not below a float. -/
def ceil (bits : Nat) : Nat :=
  if 150 ≤ exponentField bits then bits
  else if exponentField bits < 127 then
    if bits % 2 ^ 31 = 0 then bits else if 2 ^ 31 ≤ bits then 2 ^ 31 else 0x3f800000
  else
    let unit := 2 ^ (150 - exponentField bits)
    if bits < 2 ^ 31 then (bits + (unit - 1)) / unit * unit else bits / unit * unit

/-- A float to a signed thirty-two bit integer, toward zero and saturating. -/
def toInt32 (bits : Nat) : Int :=
  if isNan bits then 0
  else
    let magnitude : Nat :=
      if exponentField bits < 127 then 0
      else (2 ^ 23 + bits % 2 ^ 23) * 2 ^ (exponentField bits - 127) / 2 ^ 23
    if bits < 2 ^ 31 then min (magnitude : Int) (2 ^ 31 - 1) else max (-(magnitude : Int)) (-2 ^ 31)

/-- Whether a float's integer part is even. -/
def isEven (bits : Nat) : Bool := toInt32 bits % 2 == 0

/-- Whether a factor is exactly one. -/
def isOne (bits : Nat) : Bool := bits == 0x3f800000

/-- A float to unsigned 15.16 fixed point, rounding to nearest-even at the last kept bit. -/
def floatToFixed (bits : Nat) : Nat :=
  let exponent : Int := ((bits &&& 0x7f800000) >>> 23 : Nat) - 127
  let negative := bits &&& 0x80000000 ≠ 0
  if exponent = 128 ∧ bits &&& 0x007fffff ≠ 0 then 0
  else if ¬negative ∧ 0x47000000 ≤ bits then 0xffffffff
  else if negative then 0
  else if exponent < -17 then 0
  else
    let output := (bits &&& 0x007fffff) ||| 0x00800000
    let extra := 7 - exponent
    if 0 ≤ extra then
      let lsb := 1 <<< extra.toNat
      let half := lsb >>> 1
      if output &&& lsb ≠ 0 ∨ half < output &&& (lsb - 1) then (output + half) >>> extra.toNat
      else output >>> extra.toNat
    else output <<< (-extra).toNat

/-! ## An edge's factor -/

inductive Partitioning where
  | integer
  | pow2
  | fractionalOdd
  | fractionalEven
  deriving DecidableEq, Repr

def MIN_ODD_FACTOR : Nat := 0x3f800000
def MIN_EVEN_FACTOR : Nat := 0x40000000
def MAX_ODD_FACTOR : Nat := 0x427c0000
def MAX_EVEN_FACTOR : Nat := 0x42800000

def integerPartitioning (partitioning : Partitioning) : Bool :=
  partitioning == .integer || partitioning == .pow2

def originalParity (partitioning : Partitioning) : Parity :=
  match partitioning with
  | .fractionalOdd => .odd
  | .integer | .pow2 | .fractionalEven => .even

/-- The bounds a patch's edge factors are clamped to. -/
def bounds (partitioning : Partitioning) : Nat × Nat :=
  match partitioning with
  | .integer | .pow2 => (MIN_ODD_FACTOR, MAX_EVEN_FACTOR)
  | .fractionalEven => (MIN_EVEN_FACTOR, MAX_EVEN_FACTOR)
  | .fractionalOdd => (MIN_ODD_FACTOR, MAX_ODD_FACTOR)

def clamped (partitioning : Partitioning) (lower upper factor : Nat) : Nat :=
  let within := fmin upper (fmax lower factor)
  if integerPartitioning partitioning then ceil within else within

def outsideParity (partitioning : Partitioning) (factor : Nat) : Parity :=
  if integerPartitioning partitioning then (if isEven factor then .even else .odd)
  else originalParity partitioning

/-- An inside axis' parity: one is tessellated as even. -/
def insideParity (partitioning : Partitioning) (factor : Nat) : Parity :=
  if integerPartitioning partitioning then
    (if isEven factor || isOne factor then .even else .odd)
  else originalParity partitioning

def outsideFactor (partitioning : Partitioning) (factor : Nat) : Nat :=
  clamped partitioning (bounds partitioning).1 (bounds partitioning).2 factor

/-! ## Clamping -/

/-- A positive float that is no denormal, infinity or NaN. -/
structure Normal (bits : Nat) : Prop where
  low : 0x00800000 ≤ bits
  high : bits < 0x7f800000

theorem order_sign (bits : Nat) : order (bits &&& 0x80000000) = 0 := by
  have hrest : (bits &&& 0x80000000) % 2 ^ 31 = 0 := by
    rw [Nat.and_mod_two_pow, show 0x80000000 % 2 ^ 31 = 0 from rfl, Nat.and_zero]
  unfold order
  split
  · rename_i hlt
    rw [Nat.mod_eq_of_lt hlt] at hrest
    rw [hrest]
    rfl
  · rw [hrest]
    rfl

theorem flush_normal {bits : Nat} (h : 0x00800000 ≤ bits) (h' : bits < 2 ^ 31) :
    flush bits = bits := by
  have hmask : bits &&& 0x7fffffff = bits := by
    show bits &&& (2 ^ 31 - 1) = bits
    rw [Nat.and_two_pow_sub_one_eq_mod, Nat.mod_eq_of_lt h']
  unfold flush
  rw [hmask, if_neg (Nat.not_lt_of_le h)]

theorem order_pos {bits : Nat} (h : bits < 2 ^ 31) : order bits = bits := if_pos h

theorem isNan_below {bits : Nat} (h : bits < 0x7f800000) : isNan bits = false := by
  have hmask : (bits &&& 0x7f800000 == 0x7f800000) = false := by
    have hle : bits &&& 0x7f800000 ≤ bits := Nat.and_le_left
    rw [beq_eq_false_iff_ne]
    omega
  unfold isNan
  rw [hmask, Bool.false_and]

theorem above_normal {lower bits : Nat} (h : Normal lower) (hless : order lower < order (flush bits)) :
    flush bits = bits ∧ lower < bits ∧ bits < 2 ^ 31 := by
  have hlow := h.low
  have hhigh := h.high
  rw [order_pos (by omega)] at hless
  have hsmall : ¬bits &&& 0x7fffffff < 0x00800000 := by
    intro hflushed
    unfold flush at hless
    rw [if_pos hflushed, order_sign] at hless
    omega
  have hflush : flush bits = bits := by
    unfold flush
    rw [if_neg hsmall]
  rw [hflush] at hless
  unfold order at hless
  split at hless
  · exact ⟨hflush, by omega, by assumption⟩
  · omega

/-- A float clamped to normal bounds is within them by its bits, whatever it was. -/
theorem clamp_within {lower upper : Nat} (hlower : Normal lower) (hupper : Normal upper)
    (hle : lower ≤ upper) (factor : Nat) :
    lower ≤ fmin upper (fmax lower factor) ∧ fmin upper (fmax lower factor) ≤ upper := by
  have hflush : ∀ {bits}, Normal bits → flush bits = bits := fun hn =>
    flush_normal hn.low (Nat.lt_trans hn.high (by decide))
  have horder : ∀ {bits}, Normal bits → order bits = bits := fun hn =>
    order_pos (Nat.lt_trans hn.high (by decide))
  have hzero : ∀ {bits}, Normal bits → isZero bits = false := by
    intro bits hn
    have hlow := hn.low
    unfold isZero
    rw [horder hn, beq_eq_false_iff_ne]
    omega
  -- the maximum is the lower bound, or a number above it
  have hmax : fmax lower factor = lower ∨ fmax lower factor = factor ∧ flush factor = factor ∧
      isNan factor = false ∧ lower < factor ∧ factor < 2 ^ 31 := by
    unfold fmax
    simp only [hflush hlower, hzero hlower, isNan_below hlower.high, Bool.false_and,
      Bool.not_false, Bool.true_and, Bool.false_eq_true, if_false]
    by_cases hnan : isNan (flush factor) = true
    · exact Or.inl (if_pos hnan)
    · rw [if_neg hnan]
      by_cases hge : order (flush factor) ≤ order lower
      · exact Or.inl (if_pos (decide_eq_true hge))
      · obtain ⟨hself, habove, hpos⟩ := above_normal hlower (Int.lt_of_not_ge hge)
        rw [if_neg (by simpa using hge)]
        rw [hself] at hnan
        exact Or.inr ⟨rfl, hself, Bool.not_eq_true _ ▸ hnan, habove, hpos⟩
  have hmin : ∀ {bits}, flush bits = bits → isNan bits = false → order bits = bits →
      lower ≤ bits → lower ≤ fmin upper bits ∧ fmin upper bits ≤ upper := by
    intro bits hself hnan hbits habove
    unfold fmin less
    simp only [hflush hupper, hself, hnan, hzero hupper, isNan_below hupper.high, horder hupper,
      hbits, Bool.false_and, Bool.not_false, Bool.true_and, Bool.false_eq_true, if_false]
    by_cases hover : (upper : Int) < bits
    · rw [if_pos (decide_eq_true hover)]
      exact ⟨hle, Nat.le_refl _⟩
    · rw [if_neg (by simpa using hover)]
      exact ⟨habove, by omega⟩
  rcases hmax with hmax | ⟨hmax, hself, hnan, habove, hpos⟩
  · rw [hmax]
    exact hmin (hflush hlower) (isNan_below hlower.high) (horder hlower) (Nat.le_refl _)
  · rw [hmax]
    exact hmin hself hnan (order_pos hpos) (Nat.le_of_lt habove)

/-! ## Fixed point -/

theorem and_sign {bits : Nat} (h : bits < 2 ^ 31) : bits &&& 0x80000000 = 0 := by
  have hle : bits &&& 0x80000000 ≤ bits := Nat.and_le_left
  have hrest : (bits &&& 0x80000000) % 2 ^ 31 = 0 := by
    rw [Nat.and_mod_two_pow, show 0x80000000 % 2 ^ 31 = 0 from rfl, Nat.and_zero]
  rw [← hrest, Nat.mod_eq_of_lt (by omega)]

theorem and_exponent (bits : Nat) : (bits &&& 0x7f800000) >>> 23 = bits / 2 ^ 23 % 2 ^ 8 := by
  rw [Nat.shiftRight_and_distrib, Nat.shiftRight_eq_div_pow, ← Nat.and_two_pow_sub_one_eq_mod]
  rfl

theorem and_mantissa (bits : Nat) : bits &&& 0x007fffff = bits % 2 ^ 23 :=
  Nat.and_two_pow_sub_one_eq_mod bits 23

theorem or_hidden {m : Nat} (h : m < 2 ^ 23) : m ||| 0x00800000 = 2 ^ 23 + m := by
  have hsum := Nat.two_pow_add_eq_or_of_lt h 1
  rw [Nat.mul_one] at hsum
  rw [hsum, Nat.or_comm]

/-- The float from one to below 128 of an exponent and a mantissa, in fixed point: the shifted
mantissa, or its successor. -/
theorem rounded_bounds {e m : Nat} (he : e ≤ 6) (hm : m < 2 ^ 23) :
    (2 ^ 23 + m) / 2 ^ (7 - e) ≤ floatToFixed ((127 + e) * 2 ^ 23 + m) ∧
      floatToFixed ((127 + e) * 2 ^ 23 + m) ≤ (2 ^ 23 + m + 2 ^ (6 - e)) / 2 ^ (7 - e) := by
  have hfield : ((127 + e) * 2 ^ 23 + m) / 2 ^ 23 % 2 ^ 8 = 127 + e := by omega
  have hmantissa : ((127 + e) * 2 ^ 23 + m) % 2 ^ 23 = m := by omega
  have hsign : ((127 + e) * 2 ^ 23 + m) &&& 0x80000000 = 0 := and_sign (by omega)
  have hextra : (7 - (((127 + e : Nat) : Int) - 127)).toNat = 7 - e := by omega
  have hhalf : (1 <<< (7 - e)) >>> 1 = 2 ^ (6 - e) := by
    rw [Nat.one_shiftLeft, Nat.shiftRight_eq_div_pow, show 7 - e = (6 - e) + 1 by omega,
      Nat.pow_succ]
    exact Nat.mul_div_cancel _ (by decide)
  unfold floatToFixed
  simp only [and_exponent, and_mantissa, hfield, hmantissa, hsign, or_hidden hm, hextra, hhalf]
  rw [if_neg (by omega), if_neg (by simp only [ne_eq, not_true_eq_false]; omega),
    if_neg (by simp), if_neg (by omega), if_pos (by omega), Nat.shiftRight_eq_div_pow,
    Nat.shiftRight_eq_div_pow]
  have hmono : (2 ^ 23 + m) / 2 ^ (7 - e) ≤ (2 ^ 23 + m + 2 ^ (6 - e)) / 2 ^ (7 - e) :=
    Nat.div_le_div_right (Nat.le_add_right _ _)
  split
  · exact ⟨hmono, Nat.le_refl _⟩
  · exact ⟨Nat.le_refl _, hmono⟩

/-- The exponent and the mantissa of a float within bounds. -/
theorem exists_parts {bits : Nat} (h : MIN_ODD_FACTOR ≤ bits) (h' : bits ≤ MAX_EVEN_FACTOR) :
    ∃ e m, bits = (127 + e) * 2 ^ 23 + m ∧ e ≤ 6 ∧ m < 2 ^ 23 := by
  change 0x3f800000 ≤ bits at h
  change bits ≤ 0x42800000 at h'
  exact ⟨bits / 2 ^ 23 - 127, bits % 2 ^ 23, by omega, by omega, Nat.mod_lt _ (by decide)⟩

theorem floatToFixed_within {bits : Nat} (h : MIN_ODD_FACTOR ≤ bits)
    (h' : bits ≤ MAX_EVEN_FACTOR) :
    ONE ≤ floatToFixed bits ∧ floatToFixed bits ≤ 64 * ONE ∧
      (MIN_EVEN_FACTOR ≤ bits → 2 * ONE ≤ floatToFixed bits) ∧
      (bits ≤ MAX_ODD_FACTOR → floatToFixed bits ≤ 63 * ONE) := by
  obtain ⟨e, m, rfl, he, hm⟩ := exists_parts h h'
  obtain ⟨hlow, hhigh⟩ := rounded_bounds he hm
  show 65536 ≤ _ ∧ _ ≤ 64 * 65536 ∧ (0x40000000 ≤ _ → 2 * 65536 ≤ _) ∧
    (_ ≤ 0x427c0000 → _ ≤ 63 * 65536)
  change (127 + e) * 2 ^ 23 + m ≤ 0x42800000 at h'
  interval_cases e <;> omega

/-! ## Whole factors -/

instance (parity : Parity) (factor : Nat) : Decidable (InBounds parity factor) := by
  cases parity with
  | odd => exact inferInstanceAs (Decidable (_ ∧ _))
  | even => exact inferInstanceAs (Decidable (_ ∨ _))

/-- The whole numbers from one to sixty-four are within the bounds of their own parity. -/
theorem whole_inBounds :
    ∀ e < 7, ∀ j < 2 ^ e + 1, (e = 6 → j = 0) →
      InBounds (if isEven (((127 + e) * 2 ^ e + j) * 2 ^ (23 - e)) then .even else .odd)
        (floatToFixed (((127 + e) * 2 ^ e + j) * 2 ^ (23 - e))) := by
  decide +kernel

/-- A float within bounds rounds up to one of them. -/
theorem ceil_whole {bits : Nat} (h : MIN_ODD_FACTOR ≤ bits) (h' : bits ≤ MAX_EVEN_FACTOR) :
    ∃ e j, ceil bits = ((127 + e) * 2 ^ e + j) * 2 ^ (23 - e) ∧ e < 7 ∧ j < 2 ^ e + 1 ∧
      (e = 6 → j = 0) := by
  obtain ⟨e, m, rfl, he, hm⟩ := exists_parts h h'
  have hfield : exponentField ((127 + e) * 2 ^ 23 + m) = 127 + e := by
    unfold exponentField
    omega
  have hunit : 150 - (127 + e) = 23 - e := by omega
  refine ⟨e, (m + (2 ^ (23 - e) - 1)) / 2 ^ (23 - e), ?_, by omega, ?_, ?_⟩
  · unfold ceil
    simp only [hfield, hunit]
    rw [if_neg (by omega), if_neg (by omega), if_pos (by omega)]
    congr 1
    interval_cases e <;> omega
  · interval_cases e <;> omega
  · intro hsix
    subst hsix
    change (127 + 6) * 2 ^ 23 + m ≤ 0x42800000 at h'
    omega

theorem outsideFactor_inBounds (partitioning : Partitioning) (factor : Nat) :
    InBounds (outsideParity partitioning (outsideFactor partitioning factor))
      (floatToFixed (outsideFactor partitioning factor)) := by
  have hone : Normal MIN_ODD_FACTOR := ⟨by decide, by decide⟩
  have htwo : Normal MIN_EVEN_FACTOR := ⟨by decide, by decide⟩
  have hodd : Normal MAX_ODD_FACTOR := ⟨by decide, by decide⟩
  have heven : Normal MAX_EVEN_FACTOR := ⟨by decide, by decide⟩
  have hwhole : InBounds (if isEven (ceil (fmin MAX_EVEN_FACTOR (fmax MIN_ODD_FACTOR factor)))
      then .even else .odd)
      (floatToFixed (ceil (fmin MAX_EVEN_FACTOR (fmax MIN_ODD_FACTOR factor)))) := by
    obtain ⟨hlow, hhigh⟩ := clamp_within hone heven (by decide) factor
    obtain ⟨e, j, hceil, he, hj, hsix⟩ := ceil_whole hlow hhigh
    rw [hceil]
    exact whole_inBounds e he j hj hsix
  cases partitioning with
  | integer => exact hwhole
  | pow2 => exact hwhole
  | fractionalOdd =>
    obtain ⟨hlow, hhigh⟩ := clamp_within hone hodd (by decide) factor
    have hfixed := floatToFixed_within hlow (Nat.le_trans hhigh (by decide))
    exact ⟨hfixed.1, hfixed.2.2.2 hhigh⟩
  | fractionalEven =>
    obtain ⟨hlow, hhigh⟩ := clamp_within htwo heven (by decide) factor
    have hfixed := floatToFixed_within (Nat.le_trans (by decide) hlow) hhigh
    exact Or.inr ⟨hfixed.2.2.1 hlow, hfixed.2.1⟩

end Orbistoun.Gpu.Tessellation
