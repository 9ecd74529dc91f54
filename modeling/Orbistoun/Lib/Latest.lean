import Mathlib.Tactic

/-! # The latest position that meets a test

A scan backwards over the positions below a bound, and how its answer changes as the bound
moves on.
-/

namespace Orbistoun.Lib.Latest

/-- The greatest position below `n` that meets `p`. -/
def lastBelow (p : Nat → Bool) (n : Nat) : Option Nat := (List.range n).reverse.find? p

variable {p q : Nat → Bool}

@[simp] theorem lastBelow_zero (p : Nat → Bool) : lastBelow p 0 = none := rfl

theorem lastBelow_succ (p : Nat → Bool) (n : Nat) :
    lastBelow p (n + 1) = if p n then some n else lastBelow p n := by
  unfold lastBelow
  rw [List.range_succ, List.reverse_append, List.reverse_singleton, List.singleton_append,
    List.find?_cons]
  cases p n <;> rfl

theorem lastBelow_congr {n : Nat} (h : ∀ i < n, p i = q i) : lastBelow p n = lastBelow q n := by
  induction n with
  | zero => rfl
  | succ n ih =>
      rw [lastBelow_succ, lastBelow_succ, h n (Nat.lt_succ_self n),
        ih (fun i hi => h i (Nat.lt_succ_of_lt hi))]

/-- Positions that do not meet the test may be left out at the end. -/
theorem lastBelow_of_le {k n : Nat} (hk : k ≤ n) (h : ∀ i, k ≤ i → i < n → p i = false) :
    lastBelow p n = lastBelow p k := by
  induction n, hk using Nat.le_induction with
  | base => rfl
  | succ n hn ih =>
      have hskip : p n = false := h n hn (Nat.lt_succ_self n)
      rw [lastBelow_succ, hskip, if_neg (by decide)]
      exact ih (fun i hi hlt => h i hi (Nat.lt_succ_of_lt hlt))

end Orbistoun.Lib.Latest
