import Mathlib.Data.List.Perm.Basic
import Mathlib.Tactic
import Orbistoun.Lib.Nearest

/-! # Totals over an ordered map

The sum of a quantity over the entries of a map from naturals, and how it changes with
the map.
-/

namespace Orbistoun.Lib

open Std (TreeMap)

namespace MapTotal

variable {β : Type*} {t : TreeMap Nat β} {k : Nat} {v : β}

theorem toList_nodup (t : TreeMap Nat β) : t.toList.Nodup :=
  (Nearest.toList_sorted t).imp (fun {x y} hlt heq => by
    rw [heq] at hlt
    exact Nat.lt_irrefl _ hlt)

theorem toList_perm_erase (h : t[k]? = some v) : t.toList.Perm ((k, v) :: (t.erase k).toList) := by
  have hget : ∀ a : Nat, (t.erase k)[a]? = if k = a then none else t[a]? := by
    intro a
    simp only [TreeMap.getElem?_erase, Nat.compare_eq_eq]
  have hnot : (k, v) ∉ (t.erase k).toList := by
    rw [Nearest.mem_toList, hget, if_pos rfl]
    exact fun hnone => by cases hnone
  rw [List.perm_ext_iff_of_nodup (toList_nodup t) (List.nodup_cons.mpr ⟨hnot, toList_nodup _⟩)]
  rintro ⟨a, b⟩
  rw [List.mem_cons, Nearest.mem_toList, Nearest.mem_toList, hget, Prod.mk.injEq]
  by_cases hk : k = a
  · subst hk
    rw [if_pos rfl, h]
    simp [eq_comm]
  · rw [if_neg hk]
    exact ⟨.inr, fun hor => hor.resolve_left (fun heq => hk heq.1.symm)⟩

theorem toList_perm_insert (h : t[k]? = none) (v : β) :
    (t.insert k v).toList.Perm ((k, v) :: t.toList) := by
  have hget : ∀ a : Nat, (t.insert k v)[a]? = if k = a then some v else t[a]? := by
    intro a
    simp only [TreeMap.getElem?_insert, Nat.compare_eq_eq]
  have hnot : (k, v) ∉ t.toList := by
    rw [Nearest.mem_toList, h]
    exact fun hnone => by cases hnone
  rw [List.perm_ext_iff_of_nodup (toList_nodup _) (List.nodup_cons.mpr ⟨hnot, toList_nodup t⟩)]
  rintro ⟨a, b⟩
  rw [List.mem_cons, Nearest.mem_toList, Nearest.mem_toList, hget, Prod.mk.injEq]
  by_cases hk : k = a
  · subst hk
    rw [if_pos rfl, h]
    simp [eq_comm]
  · rw [if_neg hk]
    exact ⟨.inr, fun hor => hor.resolve_left (fun heq => hk heq.1.symm)⟩

def total (f : β → Nat) (t : TreeMap Nat β) : Nat := (t.toList.map (fun e => f e.2)).sum

@[simp] theorem total_empty (f : β → Nat) : total f (∅ : TreeMap Nat β) = 0 := rfl

theorem total_insert (f : β → Nat) (h : t[k]? = none) (v : β) :
    total f (t.insert k v) = f v + total f t := by
  rw [total, ((toList_perm_insert h v).map _).sum_eq]
  rfl

theorem total_erase (f : β → Nat) (h : t[k]? = some v) :
    total f t = f v + total f (t.erase k) := by
  rw [total, ((toList_perm_erase h).map _).sum_eq]
  rfl

theorem total_congr (f : β → Nat) {t' : TreeMap Nat β} (h : ∀ a : Nat, t[a]? = t'[a]?) :
    total f t = total f t' := by
  have hperm : t.toList.Perm t'.toList := by
    rw [List.perm_ext_iff_of_nodup (toList_nodup t) (toList_nodup t')]
    intro e
    rw [Nearest.mem_toList, Nearest.mem_toList, h]
  exact (hperm.map _).sum_eq

/-- A value put in place of another. -/
theorem total_replace (f : β → Nat) (h : t[k]? = some v) (v' : β) :
    total f (t.insert k v') + f v = total f t + f v' := by
  have hnew : (t.insert k v')[k]? = some v' := by simp
  have hrest : ∀ a : Nat, ((t.insert k v').erase k)[a]? = (t.erase k)[a]? := by
    intro a
    simp only [TreeMap.getElem?_erase, TreeMap.getElem?_insert, Nat.compare_eq_eq]
    split
    · rfl
    · rfl
  rw [total_erase f hnew, total_erase f h, total_congr f hrest]
  omega

end MapTotal

end Orbistoun.Lib
