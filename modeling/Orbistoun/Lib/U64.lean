import Mathlib.Tactic

/-! # Unsigned 64-bit arithmetic on naturals

A machine word is a natural below `bound`. The checked operations answer nothing and
the saturating one answers the largest word where the exact result does not fit.
-/

namespace Orbistoun.Lib.U64

/-- One past the largest word. -/
def bound : Nat := 2 ^ 64

def checkedAdd (x y : Nat) : Option Nat := if x + y < bound then some (x + y) else none

def saturatingAdd (x y : Nat) : Nat := min (x + y) (bound - 1)

def wrappingAdd (x y : Nat) : Nat := (x + y) % bound

def wrappingSub (x y : Nat) : Nat := (x + (bound - y % bound)) % bound

/-- The least multiple of `align` at or above `x`, when it is a word. -/
def checkedNextMultipleOf (x align : Nat) : Option Nat :=
  if align = 0 then none
  else
    let up := (x + align - 1) / align * align
    if up < bound then some up else none

def isPowerOfTwo (x : Nat) : Bool := x ≠ 0 && x == 2 ^ x.log2

theorem checkedAdd_eq {x y z : Nat} (h : checkedAdd x y = some z) : z = x + y := by
  unfold checkedAdd at h
  split at h
  · cases h
    rfl
  · cases h

theorem wrappingAdd_eq {x y : Nat} (h : x + y < bound) : wrappingAdd x y = x + y :=
  Nat.mod_eq_of_lt h

theorem wrappingSub_eq {x y : Nat} (hle : y ≤ x) (hx : x < bound) : wrappingSub x y = x - y := by
  unfold wrappingSub
  rw [Nat.mod_eq_of_lt (hle.trans_lt hx)]
  have hsum : x + (bound - y) = x - y + bound := by omega
  rw [hsum, Nat.add_mod_right, Nat.mod_eq_of_lt (by omega)]

theorem lt_saturatingAdd {x a b : Nat} (h : x < a + b) (hx : x + 1 < bound) :
    x < saturatingAdd a b :=
  lt_min h (Nat.lt_sub_of_add_lt hx)

theorem checkedNextMultipleOf_lt {x align up : Nat}
    (h : checkedNextMultipleOf x align = some up) : up < bound := by
  unfold checkedNextMultipleOf at h
  split at h
  · cases h
  · dsimp only at h
    split at h
    · next hfits =>
      cases h
      exact hfits
    · cases h

theorem le_checkedNextMultipleOf {x align up : Nat}
    (h : checkedNextMultipleOf x align = some up) : x ≤ up := by
  unfold checkedNextMultipleOf at h
  split at h
  · cases h
  · next hpos =>
    dsimp only at h
    split at h
    · cases h
      have hmod := Nat.div_add_mod (x + align - 1) align
      have hlt := Nat.mod_lt (x + align - 1) (Nat.pos_of_ne_zero hpos)
      rw [Nat.mul_comm] at hmod
      omega
    · cases h

theorem dvd_checkedNextMultipleOf {x align up : Nat}
    (h : checkedNextMultipleOf x align = some up) : align ∣ up := by
  unfold checkedNextMultipleOf at h
  split at h
  · cases h
  · dsimp only at h
    split at h
    · cases h
      exact Dvd.intro_left _ rfl
    · cases h

theorem checkedNextMultipleOf_le {x align up b : Nat} (h : checkedNextMultipleOf x align = some up)
    (hdvd : align ∣ b) (hle : x ≤ b) : up ≤ b := by
  unfold checkedNextMultipleOf at h
  split at h
  · cases h
  · next hpos =>
    dsimp only at h
    split at h
    · cases h
      obtain ⟨k, rfl⟩ := hdvd
      rw [Nat.mul_comm align k]
      apply Nat.mul_le_mul_right
      apply Nat.le_of_lt_succ
      rw [Nat.div_lt_iff_lt_mul (Nat.pos_of_ne_zero hpos), Nat.add_one_mul, Nat.mul_comm k align]
      omega
    · cases h

/-- Where there is no next multiple, every multiple at or above is past the words. -/
theorem bound_le_of_checkedNextMultipleOf_eq_none {x align b : Nat} (hpos : align ≠ 0)
    (h : checkedNextMultipleOf x align = none) (hdvd : align ∣ b) (hle : x ≤ b) : bound ≤ b := by
  unfold checkedNextMultipleOf at h
  rw [if_neg hpos] at h
  dsimp only at h
  split at h
  · cases h
  · next hbound =>
    apply (Nat.not_lt.mp hbound).trans
    obtain ⟨k, rfl⟩ := hdvd
    rw [Nat.mul_comm align k]
    apply Nat.mul_le_mul_right
    apply Nat.le_of_lt_succ
    rw [Nat.div_lt_iff_lt_mul (Nat.pos_of_ne_zero hpos), Nat.add_one_mul, Nat.mul_comm k align]
    omega

end Orbistoun.Lib.U64
