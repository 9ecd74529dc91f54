import Mathlib.Tactic

/-! # Items laid end to end

A list of items from one place to another, each starting where the one before it ends.
-/

namespace Orbistoun.Lib

variable {α : Type*} (starts : α → Nat → Prop) (len : α → Nat)

/-- Items each of which starts where the one before ends. -/
def Laid (first : Nat) : List α → Nat → Prop
  | [], last => first = last
  | a :: rest, last => starts a first ∧ Laid (first + len a) rest last

namespace Laid

variable {starts len}

theorem append {l l' : List α} {first mid last : Nat} (h : Laid starts len first l mid)
    (h' : Laid starts len mid l' last) : Laid starts len first (l ++ l') last := by
  induction l generalizing first with
  | nil =>
    cases h
    exact h'
  | cons a l ih => exact ⟨h.1, ih h.2⟩

/-- One more item, from where the last one ends. -/
theorem concat {l : List α} {a : α} {first last : Nat} (h : Laid starts len first l last)
    (ha : starts a last) : Laid starts len first (l ++ [a]) (last + len a) :=
  h.append ⟨ha, rfl⟩

end Laid

end Orbistoun.Lib
