import Mathlib.Data.List.Basic
import Mathlib.Tactic
import Orbistoun.Lib.Spans

/-! # Interval maps

An ordered map from the start of a span to its end and a value. A sound one has no
empty and no overlapping spans; it is read byte by byte, and erasing or inserting a
span changes the bytes of that span only.
-/

namespace Orbistoun.Lib

open Std (TreeMap)

/-- Each span's start, to its end and its value. -/
abbrev IntervalMap (τ : Type*) := TreeMap Nat (Nat × τ)

namespace IntervalMap

variable {τ : Type*}

/-- The byte `x` lies in a span with value `w`. -/
def Holds (t : IntervalMap τ) (x : Nat) (w : τ) : Prop :=
  ∃ lo hi, t[lo]? = some (hi, w) ∧ lo ≤ x ∧ x < hi

/-- No span is empty and none overlaps another. -/
structure Sound (t : IntervalMap τ) : Prop where
  proper : ∀ {lo hi : Nat} {w : τ}, t[lo]? = some (hi, w) → lo < hi
  apart : ∀ {lo hi lo' hi' : Nat} {w w' : τ}, t[lo]? = some (hi, w) → t[lo']? = some (hi', w') →
    lo < lo' → hi ≤ lo'

theorem getElem?_insert_nat (t : IntervalMap τ) (k a : Nat) (v : Nat × τ) :
    (t.insert k v)[a]? = if k = a then some v else t[a]? := by
  rw [TreeMap.getElem?_insert]
  simp

theorem getElem?_erase_nat (t : IntervalMap τ) (k a : Nat) :
    (t.erase k)[a]? = if k = a then none else t[a]? := by
  rw [TreeMap.getElem?_erase]
  simp

/-- A byte lies in one span only. -/
theorem Sound.span_unique {t : IntervalMap τ} (h : Sound t) {lo hi lo' hi' x : Nat} {w w' : τ}
    (hs : t[lo]? = some (hi, w)) (hs' : t[lo']? = some (hi', w')) (hx : lo ≤ x ∧ x < hi)
    (hx' : lo' ≤ x ∧ x < hi') : lo = lo' := by
  rcases Nat.lt_trichotomy lo lo' with hlt | heq | hgt
  · have := h.apart hs hs' hlt
    omega
  · exact heq
  · have := h.apart hs' hs hgt
    omega

theorem Sound.value_unique {t : IntervalMap τ} (h : Sound t) {x : Nat} {w w' : τ}
    (hw : Holds t x w) (hw' : Holds t x w') : w = w' := by
  obtain ⟨lo, hi, hs, hx⟩ := hw
  obtain ⟨lo', hi', hs', hx'⟩ := hw'
  have heq := h.span_unique hs hs' hx hx'
  subst heq
  rw [hs] at hs'
  cases hs'
  rfl

theorem Sound.erase {t : IntervalMap τ} (h : Sound t) (k : Nat) : Sound (t.erase k) where
  proper hs := by
    rw [getElem?_erase_nat] at hs
    split at hs
    · cases hs
    · exact h.proper hs
  apart hs hs' := by
    rw [getElem?_erase_nat] at hs hs'
    split at hs
    · cases hs
    · split at hs'
      · cases hs'
      · exact h.apart hs hs'

/-- Erasing a span takes its bytes out, and no others. -/
theorem Sound.holds_erase {t : IntervalMap τ} (h : Sound t) {lo hi : Nat} {v : τ}
    (hs : t[lo]? = some (hi, v)) (x : Nat) (w : τ) :
    Holds (t.erase lo) x w ↔ Holds t x w ∧ ¬ (lo ≤ x ∧ x < hi) := by
  constructor
  · rintro ⟨lo', hi', hs', hx'⟩
    rw [getElem?_erase_nat] at hs'
    split at hs'
    · cases hs'
    · next hne => exact ⟨⟨lo', hi', hs', hx'⟩, fun hx => hne (h.span_unique hs hs' hx hx')⟩
  · rintro ⟨⟨lo', hi', hs', hx'⟩, hx⟩
    refine ⟨lo', hi', ?_, hx'⟩
    rw [getElem?_erase_nat, if_neg]
    · exact hs'
    · rintro rfl
      rw [hs] at hs'
      cases hs'
      exact hx hx'

/-- A span over bytes no other span holds. -/
def Fresh (t : IntervalMap τ) (lo hi : Nat) : Prop := ∀ x w, lo ≤ x → x < hi → ¬ Holds t x w

theorem Sound.none_of_fresh {t : IntervalMap τ} (h : Sound t) {lo hi : Nat} (hlt : lo < hi)
    (hf : Fresh t lo hi) : t[lo]? = none := by
  cases hs : t[lo]? with
  | none => rfl
  | some span =>
      obtain ⟨e, w⟩ := span
      exact absurd ⟨lo, e, hs, Nat.le_refl _, h.proper hs⟩ (hf lo w (Nat.le_refl _) hlt)

theorem Sound.insert {t : IntervalMap τ} (h : Sound t) {lo hi : Nat} (v : τ) (hlt : lo < hi)
    (hf : Fresh t lo hi) : Sound (t.insert lo (hi, v)) where
  proper hs := by
    rw [getElem?_insert_nat] at hs
    split at hs
    · next heq =>
      subst heq
      cases hs
      exact hlt
    · exact h.proper hs
  apart {a b a' b' w w'} hs hs' hab := by
    rw [getElem?_insert_nat] at hs hs'
    split at hs
    · next heq =>
      subst heq
      cases hs
      rw [if_neg (by omega)] at hs'
      by_contra hn
      exact hf a' w' (by omega) (by omega) ⟨a', b', hs', Nat.le_refl _, h.proper hs'⟩
    · split at hs'
      · next heq =>
        subst heq
        cases hs'
        by_contra hn
        exact hf lo w (Nat.le_refl _) hlt ⟨a, b, hs, by omega, by omega⟩
      · exact h.apart hs hs' hab

theorem Sound.holds_insert {t : IntervalMap τ} (h : Sound t) {lo hi : Nat} (v : τ)
    (hlt : lo < hi) (hf : Fresh t lo hi) (x : Nat) (w : τ) :
    Holds (t.insert lo (hi, v)) x w ↔ (lo ≤ x ∧ x < hi ∧ w = v) ∨ Holds t x w := by
  constructor
  · rintro ⟨a, b, hs, hx⟩
    rw [getElem?_insert_nat] at hs
    split at hs
    · next heq =>
      subst heq
      cases hs
      exact .inl ⟨hx.1, hx.2, rfl⟩
    · exact .inr ⟨a, b, hs, hx⟩
  · rintro (⟨hlo, hhi, rfl⟩ | ⟨a, b, hs, hx⟩)
    · exact ⟨lo, hi, by rw [getElem?_insert_nat, if_pos rfl], hlo, hhi⟩
    · refine ⟨a, b, ?_, hx⟩
      rw [getElem?_insert_nat, if_neg]
      · exact hs
      · rintro rfl
        rw [h.none_of_fresh hlt hf] at hs
        cases hs

/-! ## The spans in order -/

theorem mem_toList {t : IntervalMap τ} {lo hi : Nat} {w : τ} :
    (lo, (hi, w)) ∈ t.toList ↔ t[lo]? = some (hi, w) :=
  TreeMap.mem_toList_iff_getElem?_eq_some

theorem Sound.ordered_toList {t : IntervalMap τ} (h : Sound t) :
    Spans.Ordered Prod.fst (fun e : Nat × (Nat × τ) => e.2.1) t.toList := by
  refine TreeMap.ordered_keys_toList.imp_of_mem (fun {a b} ha hb hlt => ?_)
  obtain ⟨lo, hi, w⟩ := a
  obtain ⟨lo', hi', w'⟩ := b
  exact h.apart (mem_toList.mp ha) (mem_toList.mp hb) (Nat.compare_eq_lt.mp hlt)

theorem Sound.proper_toList {t : IntervalMap τ} (h : Sound t) :
    Spans.Proper Prod.fst (fun e : Nat × (Nat × τ) => e.2.1) t.toList := by
  rintro ⟨lo, hi, w⟩ hm
  exact h.proper (mem_toList.mp hm)

theorem holds_iff_mem {t : IntervalMap τ} {x : Nat} {w : τ} :
    Holds t x w ↔ ∃ e ∈ t.toList, e.2.2 = w ∧ e.1 ≤ x ∧ x < e.2.1 := by
  constructor
  · rintro ⟨lo, hi, hs, hx⟩
    exact ⟨_, mem_toList.mpr hs, rfl, hx⟩
  · rintro ⟨⟨lo, hi, v⟩, hm, rfl, hx⟩
    exact ⟨lo, hi, mem_toList.mp hm, hx⟩

end IntervalMap

end Orbistoun.Lib
