import Mathlib.Tactic

/-! # Signed words whose overflow ends the program

A signed word is an integer of a half range; an operation answers nothing where its result does
not fit. Division truncates towards zero.
-/

namespace Orbistoun.Lib.Signed

/-- Half the range of a thirty-two-bit word, and of a sixty-four-bit one. -/
def I32 : Int := 2147483648

def I64 : Int := 9223372036854775808

def Fits (half x : Int) : Prop := -half ≤ x ∧ x < half

instance (half x : Int) : Decidable (Fits half x) := by
  unfold Fits
  infer_instance

def checked (half x : Int) : Option Int := if Fits half x then some x else none

def add (half x y : Int) : Option Int := checked half (x + y)

def sub (half x y : Int) : Option Int := checked half (x - y)

def mul (half x y : Int) : Option Int := checked half (x * y)

/-- An integer cut to thirty-two bits. -/
def asI32 (x : Int) : Int := x.bmod 4294967296

variable {half x y : Int}

theorem asI32_eq (h : Fits I32 x) : asI32 x = x := by
  unfold Fits I32 at h
  exact Int.bmod_eq_of_le (by omega) (by omega)

theorem add_eq (h : Fits half (x + y)) : add half x y = some (x + y) := if_pos h

theorem sub_eq (h : Fits half (x - y)) : sub half x y = some (x - y) := if_pos h

theorem mul_eq (h : Fits half (x * y)) : mul half x y = some (x * y) := if_pos h

theorem lower_eq {below : Int} (h : Fits half (x - below)) :
    (if x ≥ 0 then some x else sub half x below) = some (if x ≥ 0 then x else x - below) := by
  rw [sub_eq h]
  split <;> rfl

theorem fits_I64 (h : -9223372036854775808 ≤ x) (h' : x < 9223372036854775808) : Fits I64 x :=
  ⟨h, h'⟩

theorem fits_I32 (h : -2147483648 ≤ x) (h' : x < 2147483648) : Fits I32 x := ⟨h, h'⟩

section Words

theorem add_I64 (h : -9223372036854775808 ≤ x + y) (h' : x + y < 9223372036854775808) :
    add I64 x y = some (x + y) := add_eq ⟨h, h'⟩

theorem sub_I64 (h : -9223372036854775808 ≤ x - y) (h' : x - y < 9223372036854775808) :
    sub I64 x y = some (x - y) := sub_eq ⟨h, h'⟩

theorem mul_I64 (h : -9223372036854775808 ≤ x * y) (h' : x * y < 9223372036854775808) :
    mul I64 x y = some (x * y) := mul_eq ⟨h, h'⟩

end Words

/-- Truncating division from one less than a divisor further down is the floor. -/
theorem tdiv_floor {k : Int} (hk : 0 < k) (z : Int) :
    (if z ≥ 0 then z else z - (k - 1)).tdiv k = z / k := by
  split
  · next h => exact Int.tdiv_eq_ediv_of_nonneg h
  · next h =>
    rw [← Int.neg_neg (z - (k - 1)), Int.neg_tdiv, Int.tdiv_eq_ediv_of_nonneg (by omega)]
    have hsplit := Int.emod_add_mul_ediv (-(z - (k - 1))) k
    have hlow := Int.emod_nonneg (-(z - (k - 1))) hk.ne'
    have hhigh := Int.emod_lt_of_pos (-(z - (k - 1))) hk
    symm
    apply (Int.ediv_emod_unique (r := k - 1 - -(z - (k - 1)) % k) hk |>.mpr _).1
    rw [Int.mul_neg]
    omega

end Orbistoun.Lib.Signed
