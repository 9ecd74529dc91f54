import Mathlib.Data.List.Basic
import Mathlib.Tactic

/-! # The nearest entry of an ordered map

The last entry of a map from naturals whose key meets a test, in key order: what a range
of the map up to a key hands out when it is read from its back.
-/

namespace Orbistoun.Lib

open Std (TreeMap)

namespace Nearest

variable {β : Type*}

/-- The last entry whose key meets `p`. -/
def last (t : TreeMap Nat β) (p : Nat → Bool) : Option (Nat × β) :=
  (t.toList.filter (fun e => p e.1)).getLast?

def lastLE (t : TreeMap Nat β) (k : Nat) : Option (Nat × β) := last t (fun a => a ≤ k)

def lastLT (t : TreeMap Nat β) (k : Nat) : Option (Nat × β) := last t (fun a => a < k)

variable {t : TreeMap Nat β} {p : Nat → Bool}

theorem toList_sorted (t : TreeMap Nat β) : t.toList.Pairwise (fun x y => x.1 < y.1) := by
  have hord := t.ordered_keys_toList
  simp only [Nat.compare_eq_lt] at hord
  exact hord

theorem mem_toList {a : Nat} {b : β} : (a, b) ∈ t.toList ↔ t[a]? = some b :=
  TreeMap.mem_toList_iff_getElem?_eq_some

/-- In a list sorted by key the last element is above every other. -/
theorem le_of_getLast? {l : List (Nat × β)} (h : l.Pairwise (fun x y => x.1 < y.1))
    {e e' : Nat × β} (hlast : l.getLast? = some e) (he' : e' ∈ l) : e'.1 ≤ e.1 := by
  obtain ⟨front, rfl⟩ := List.getLast?_eq_some_iff.mp hlast
  rcases List.mem_append.mp he' with hmem | hmem
  · exact Nat.le_of_lt ((List.pairwise_append.mp h).2.2 e' hmem e List.mem_cons_self)
  · rw [List.mem_singleton.mp hmem]

theorem last_mem {a : Nat} {b : β} (h : last t p = some (a, b)) :
    t[a]? = some b ∧ p a = true := by
  have hmem := List.mem_of_getLast? h
  obtain ⟨hin, hp⟩ := List.mem_filter.mp hmem
  exact ⟨mem_toList.mp hin, hp⟩

theorem le_last {a a' : Nat} {b b' : β} (h : last t p = some (a, b)) (ha' : t[a']? = some b')
    (hp : p a' = true) : a' ≤ a :=
  le_of_getLast? ((toList_sorted t).filter _) h
    (List.mem_filter.mpr ⟨mem_toList.mpr ha', hp⟩)

theorem not_of_last_none {a : Nat} {b : β} (h : last t p = none) (ha : t[a]? = some b) :
    p a = false := by
  have hnil := List.getLast?_eq_none_iff.mp h
  have hnot := (List.filter_eq_nil_iff.mp hnil) (a, b) (mem_toList.mpr ha)
  simpa using hnot

/-- An entry that meets `p` with none after it is the last. -/
theorem last_eq_some {a : Nat} {b : β} (ha : t[a]? = some b) (hp : p a = true)
    (hmax : ∀ a' b', t[a']? = some b' → p a' = true → a' ≤ a) : last t p = some (a, b) := by
  cases hl : last t p with
  | none =>
      rw [not_of_last_none hl ha] at hp
      cases hp
  | some e =>
      obtain ⟨a', b'⟩ := e
      obtain ⟨ha', hp'⟩ := last_mem hl
      have heq : a' = a := le_antisymm (hmax a' b' ha' hp') (le_last hl ha hp)
      subst heq
      rw [ha] at ha'
      cases ha'
      rfl

/-! ## The search of the map itself -/

section Tree

open Std.DTreeMap.Internal (Impl)

/-- The entries of a tree below `k`, last first as a search from its root finds them. -/
theorem getEntryLT_go {t : Impl Nat (fun _ => β)} (h : t.Ordered) (k : Nat)
    (best : Option (Nat × β)) : Impl.Const.getEntryLT?.go k best t =
      (((t.toListModel.map (fun e => (e.1, e.2))).filter (fun e => e.1 < k)).getLast?).or best := by
  induction t generalizing best with
  | leaf => rfl
  | inner size ky y l r ihl ihr =>
      have hord : (l.toListModel ++ ⟨ky, y⟩ :: r.toListModel).Pairwise
        (fun a b => compare a.1 b.1 = .lt) := h
      obtain ⟨hl, hr, hlr⟩ := List.pairwise_append.mp hord
      obtain ⟨hky, hr⟩ := List.pairwise_cons.mp hr
      rw [Impl.Const.getEntryLT?.go, Impl.toListModel_inner, List.map_append, List.filter_append]
      by_cases hlt : ky < k
      · have hcmp : compare k ky = .gt := Nat.compare_eq_gt.mpr hlt
        rw [hcmp]
        dsimp only
        rw [ihr hr, List.map_cons, List.filter_cons_of_pos (by simpa using hlt), List.getLast?_append,
          List.getLast?_cons]
        cases ((r.toListModel.map (fun e => (e.1, e.2))).filter (fun e => e.1 < k)).getLast? <;> rfl
      · have hnone : (((⟨ky, y⟩ : (_ : Nat) × β) :: r.toListModel).map
            (fun e => (e.1, e.2))).filter (fun e => decide (e.1 < k)) = [] := by
          rw [List.filter_eq_nil_iff]
          intro e he
          obtain ⟨d, hd, rfl⟩ := List.mem_map.mp he
          rcases List.mem_cons.mp hd with rfl | hd
          · simpa using hlt
          · have hbelow : ky < d.1 := Nat.compare_eq_lt.mp (hky d hd)
            simp only [decide_eq_true_eq]
            omega
        rw [hnone, List.append_nil]
        have hgo := ihl hl best
        cases hcmp : compare k ky with
        | lt => exact hgo
        | eq => exact hgo
        | gt => exact absurd (Nat.compare_eq_gt.mp hcmp) hlt

end Tree

theorem getEntryLT?_eq_lastLT (t : TreeMap Nat β) (k : Nat) : t.getEntryLT? k = lastLT t k := by
  have hgo := getEntryLT_go (t := t.inner.inner) t.inner.wf.ordered k none
  rw [Option.or_none] at hgo
  have hlist : t.toList = t.inner.inner.toListModel.map (fun e => (e.1, e.2)) :=
    Std.DTreeMap.Internal.Impl.Const.toList_eq_toListModel_map
  rw [lastLT, last, hlist, ← hgo]
  rfl

end Nearest

end Orbistoun.Lib
