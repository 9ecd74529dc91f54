import Orbistoun.Lib.Overflow
import Orbistoun.Lib.Trap

/-! # Machine words in a build

Sums, products and differences of machine words in one program built twice: with its overflow
checks, where one past the word stops the run, and without, where it wraps.  One that fits is
exact in either build.
-/

namespace Orbistoun.Lib.Usize

open Orbistoun.Lib.Trap
open Orbistoun.Lib.U64 (bound wrappingSub wrappingSub_eq)

variable {ε α β : Type}

/-- A result as a word. -/
def word (o : Overflow) (n : Nat) : Run ε Nat :=
  if o = .traps ∧ bound ≤ n then fault else .ok (n % bound)

def add (o : Overflow) (a b : Nat) : Run ε Nat := word o (a + b)

def mul (o : Overflow) (a b : Nat) : Run ε Nat := word o (a * b)

def sub (o : Overflow) (a b : Nat) : Run ε Nat :=
  if o = .traps ∧ a < b then fault else .ok (wrappingSub a b)

/-- An optional answer as a run's: `None` is what it refuses with. -/
def orRefuse : Option α → Run Unit α
  | some a => .ok a
  | none => refuse ()

variable {o : Overflow} {a b n : Nat}

theorem word_ok (h : n < bound) : (word o n : Run ε Nat) = .ok n := by
  unfold word
  rw [if_neg (fun hpast => Nat.not_le.mpr h hpast.2), Nat.mod_eq_of_lt h]

theorem add_ok (h : a + b < bound) : (add o a b : Run ε Nat) = .ok (a + b) := word_ok h

theorem mul_ok (h : a * b < bound) : (mul o a b : Run ε Nat) = .ok (a * b) := word_ok h

theorem sub_ok (hle : b ≤ a) (ha : a < bound) : (sub o a b : Run ε Nat) = .ok (a - b) := by
  unfold sub
  rw [if_neg (fun hbelow => Nat.not_lt.mpr hle hbelow.2), wrappingSub_eq hle ha]

theorem mapM_ok (xs : List α) (run : α → Run ε β) (f : α → β) (h : ∀ x ∈ xs, run x = .ok (f x)) :
    xs.mapM run = .ok (xs.map f) := by
  induction xs with
  | nil => rfl
  | cons x xs ih =>
      rw [List.mapM_cons, h x List.mem_cons_self, ih (fun y hy => h y (List.mem_cons_of_mem x hy))]
      rfl

theorem mapM_orRefuse (xs : List α) (run : α → Run Unit β) (plain : α → Option β)
    (h : ∀ x ∈ xs, run x = orRefuse (plain x)) : xs.mapM run = orRefuse (xs.mapM plain) := by
  induction xs with
  | nil => rfl
  | cons x xs ih =>
      rw [List.mapM_cons, List.mapM_cons, h x List.mem_cons_self,
        ih (fun y hy => h y (List.mem_cons_of_mem x hy))]
      cases plain x with
      | none => rfl
      | some b => cases xs.mapM plain <;> rfl

end Orbistoun.Lib.Usize
