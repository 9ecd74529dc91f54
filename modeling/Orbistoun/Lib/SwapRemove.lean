import Mathlib.Data.List.Perm.Basic
import Mathlib.Tactic

/-! # Removal by swapping

Taking an element out of a list where the last takes its place: what is left is the rest,
in another order.
-/

namespace Orbistoun.Lib

def swapRemove {α : Type*} (l : List α) (i : Nat) : List α :=
  match l.getLast? with
  | none => l
  | some last => (l.set i last).dropLast

theorem swapRemove_perm {α : Type*} {l : List α} {i : Nat} {x : α} (h : l[i]? = some x) :
    (x :: swapRemove l i).Perm l := by
  obtain ⟨hi, rfl⟩ := List.getElem?_eq_some_iff.mp h
  rcases List.eq_nil_or_concat l with rfl | ⟨front, last, rfl⟩
  · exact absurd hi (Nat.not_lt_zero _)
  · simp only [List.concat_eq_append] at hi ⊢
    have hswap : swapRemove (front ++ [last]) i = ((front ++ [last]).set i last).dropLast := by
      simp [swapRemove]
    rw [hswap]
    by_cases hfront : i < front.length
    · rw [List.set_append_left _ _ hfront, List.dropLast_concat, List.getElem_append_left hfront,
        List.set_eq_take_cons_drop _ hfront]
      calc front[i] :: (front.take i ++ last :: front.drop (i + 1))
          _ |>.Perm (front[i] :: last :: front.eraseIdx i) := by
            rw [List.eraseIdx_eq_take_drop_succ]
            exact List.Perm.cons _ List.perm_middle
          _ |>.Perm (last :: front[i] :: front.eraseIdx i) := List.Perm.swap _ _ _
          _ |>.Perm (last :: front) := (List.getElem_cons_eraseIdx_perm hfront).cons _
          _ |>.Perm (front ++ [last]) := (List.perm_append_singleton _ _).symm
    · have heq : i = front.length := by
        rw [List.length_append, List.length_singleton] at hi
        omega
      subst heq
      simpa using (List.perm_append_singleton last front).symm

end Orbistoun.Lib
