import Mathlib.Tactic

/-! # Slices of a list

Reading and writing a run of a list at an offset, one lemma where the two meet and one where
they do not.
-/

namespace Orbistoun.Lib.Slices

variable {α : Type}

/-- The run of a length at an offset. -/
def slice (s : List α) (at' width : Nat) : List α := (s.drop at').take width

/-- A run written over another at an offset. -/
def put (s : List α) (at' : Nat) (data : List α) : List α :=
  s.take at' ++ data ++ s.drop (at' + data.length)

theorem put_length {s data : List α} {at' : Nat} (h : at' + data.length ≤ s.length) :
    (put s at' data).length = s.length := by
  simp only [put, List.length_append, List.length_take, List.length_drop]
  omega

theorem put_getElem? {s data : List α} {at' : Nat} (h : at' + data.length ≤ s.length) (i : Nat) :
    (put s at' data)[i]? =
      if at' ≤ i ∧ i < at' + data.length then data[i - at']? else s[i]? := by
  have hfront : (s.take at').length = at' := by
    rw [List.length_take]
    omega
  unfold put
  rw [List.append_assoc]
  by_cases hbefore : i < at'
  · rw [List.getElem?_append_left (by omega), List.getElem?_take_of_lt hbefore, if_neg (by omega)]
  · rw [List.getElem?_append_right (by omega), hfront]
    by_cases hinside : i < at' + data.length
    · rw [List.getElem?_append_left (by omega), if_pos (by omega)]
    · rw [List.getElem?_append_right (by omega), List.getElem?_drop, if_neg (by omega)]
      congr 1
      omega

end Orbistoun.Lib.Slices
