import Orbistoun.Lib.Nearest
import Orbistoun.Lib.Spans

/-! # Sets of bytes kept as spans

An ordered map from the start of a span to its end. A range put in is joined with every span it
overlaps or touches, so the spans stay apart with a gap between any two, and one lookup tells
whether a whole range is in.
-/

namespace Orbistoun.Lib

open Std (TreeMap)
open Nearest (lastLE)

abbrev SpanSet := TreeMap Nat Nat

namespace SpanSet

def covers (t : SpanSet) (lo hi : Nat) : Bool :=
  hi ≤ lo ||
    match lastLE t lo with
    | some (_, stop) => hi ≤ stop
    | none => false

def widened (t : SpanSet) (lo hi : Nat) : Nat × Nat :=
  match lastLE t lo with
  | some (start, stop) => if lo ≤ stop then (start, max hi stop) else (lo, hi)
  | none => (lo, hi)

/-- The spans that start in a closed range. -/
def within (t : SpanSet) (lo hi : Nat) : List (Nat × Nat) :=
  t.toList.filter (fun e => lo ≤ e.1 ∧ e.1 ≤ hi)

def swallow (acc : SpanSet × Nat) (joined : List (Nat × Nat)) : SpanSet × Nat :=
  joined.foldl (fun acc e => (acc.1.erase e.1, max acc.2 e.2)) acc

/-- Adds `[lo, hi)`, joining every span it overlaps or touches. -/
def insert (t : SpanSet) (lo hi : Nat) : SpanSet :=
  if hi ≤ lo then t
  else
    let (lo, hi) := widened t lo hi
    let (t, hi) := swallow (t, hi) (within t lo hi)
    TreeMap.insert t lo hi

/-- The byte lies in a span. -/
def Holds (t : SpanSet) (x : Nat) : Prop := ∃ lo hi : Nat, t[lo]? = some hi ∧ lo ≤ x ∧ x < hi

/-- No span is empty, and there is a gap between any two. -/
structure Sound (t : SpanSet) : Prop where
  proper : ∀ {lo hi : Nat}, t[lo]? = some hi → lo < hi
  apart : ∀ {lo hi lo' hi' : Nat}, t[lo]? = some hi → t[lo']? = some hi' → lo < lo' → hi < lo'

theorem sound_empty : Sound ∅ := by
  constructor
  · intro lo hi hget
    simp at hget
  · intro lo hi lo' hi' hget
    simp at hget

theorem not_holds_empty (x : Nat) : ¬ Holds ∅ x := by
  intro hx
  obtain ⟨lo, hi, hget, -⟩ := hx
  simp at hget

variable {t : SpanSet}

/-! ## Lookups -/

theorem Sound.lastLE_eq (h : Sound t) {k e x : Nat} (hk : t[k]? = some e) (hle : k ≤ x)
    (hlt : x < e) : lastLE t x = some (k, e) := by
  apply Nearest.last_eq_some hk (decide_eq_true hle)
  intro k' e' hk' hle'
  by_contra hgt
  have := h.apart hk hk' (Nat.not_le.mp hgt)
  have := of_decide_eq_true hle'
  omega

/-- One span holds a range exactly when the spans hold each of its bytes: they leave gaps. -/
theorem Sound.covers_iff (h : Sound t) (lo hi : Nat) :
    covers t lo hi = true ↔ ∀ x, lo ≤ x → x < hi → Holds t x := by
  unfold covers
  rw [Bool.or_eq_true, decide_eq_true_eq]
  constructor
  · intro hcov x hle hlt
    rcases hcov with hempty | hcov
    · omega
    · cases hlast : lastLE t lo with
      | none =>
        rw [hlast] at hcov
        cases hcov
      | some entry =>
        obtain ⟨k, e⟩ := entry
        rw [hlast] at hcov
        obtain ⟨hk, hkl⟩ := Nearest.last_mem hlast
        have hkl := of_decide_eq_true hkl
        have hstop := of_decide_eq_true hcov
        exact ⟨k, e, hk, by omega, by omega⟩
  · intro hall
    by_cases hempty : hi ≤ lo
    · exact Or.inl hempty
    · apply Or.inr
      obtain ⟨k, e, hk, hle, hlt⟩ := hall lo (Nat.le_refl _) (by omega)
      rw [h.lastLE_eq hk hle hlt]
      apply decide_eq_true
      -- a range running past the span would need its end, which lies in a gap
      by_contra hpast
      obtain ⟨k', e', hk', hle', hlt'⟩ := hall e (by omega) (by omega)
      rcases Nat.lt_trichotomy k k' with hbelow | heq | habove
      · have := h.apart hk hk' hbelow
        omega
      · subst heq
        rw [hk] at hk'
        cases hk'
        omega
      · have := h.apart hk' hk habove
        omega

/-! ## Putting a range in -/

/-- What widening gives: the range and at most one span that meets its start. -/
structure Widened (t : SpanSet) (lo hi lo' hi' : Nat) : Prop where
  start_le : lo' ≤ lo
  le_stop : hi ≤ hi'
  below : ∀ {k e : Nat}, t[k]? = some e → k < lo' → e < lo'
  old : ∀ x, lo' ≤ x → x < hi' → (lo ≤ x ∧ x < hi) ∨ Holds t x

theorem Sound.widened (h : Sound t) (lo hi : Nat) :
    Widened t lo hi (widened t lo hi).1 (widened t lo hi).2 := by
  have hsame : (∀ {k e : Nat}, t[k]? = some e → k < lo → e < lo) → Widened t lo hi lo hi := by
    intro hbelow
    constructor
    · exact Nat.le_refl _
    · exact Nat.le_refl _
    · exact hbelow
    · intro x hle hlt
      exact Or.inl ⟨hle, hlt⟩
  unfold SpanSet.widened
  cases hlast : lastLE t lo with
  | none =>
    apply hsame
    intro k e hk hlt
    have := Nearest.not_of_last_none hlast hk
    simp at this
    omega
  | some entry =>
    obtain ⟨start, stop⟩ := entry
    obtain ⟨hstart, hle⟩ := Nearest.last_mem hlast
    have hle := of_decide_eq_true hle
    dsimp only
    by_cases htouch : lo ≤ stop
    · rw [if_pos htouch]
      constructor
      · exact hle
      · exact Nat.le_max_left _ _
      · intro k e hk hlt
        exact h.apart hk hstart hlt
      · intro x hxs hxh
        by_cases hin : lo ≤ x ∧ x < hi
        · exact Or.inl hin
        · exact Or.inr ⟨start, stop, hstart, hxs, by dsimp only at hxh; omega⟩
    · rw [if_neg htouch]
      apply hsame
      intro k e hk hkl
      have hmax : k ≤ start := Nearest.le_last hlast hk (decide_eq_true hkl.le)
      rcases Nat.eq_or_lt_of_le hmax with heq | hbelow
      · subst heq
        rw [hstart] at hk
        cases hk
        omega
      · have := h.apart hk hstart hbelow
        omega

theorem mem_within {lo hi k e : Nat} :
    (k, e) ∈ within t lo hi ↔ t[k]? = some e ∧ lo ≤ k ∧ k ≤ hi := by
  unfold within
  rw [List.mem_filter, Nearest.mem_toList, decide_eq_true_eq]

/-- The spans swallowed are taken out, and the end is the last of theirs and the range's. -/
theorem swallow_spec (joined : List (Nat × Nat)) (t : SpanSet) (hi : Nat) :
    (∀ k : Nat, (swallow (t, hi) joined).1[k]? =
        if k ∈ joined.map Prod.fst then none else t[k]?) ∧
      hi ≤ (swallow (t, hi) joined).2 ∧
      (∀ e ∈ joined, e.2 ≤ (swallow (t, hi) joined).2) ∧
      ((swallow (t, hi) joined).2 = hi ∨ ∃ e ∈ joined, (swallow (t, hi) joined).2 = e.2) := by
  induction joined generalizing t hi with
  | nil => simp [swallow]
  | cons first joined ih =>
    obtain ⟨hget, hle, hall, hlast⟩ := ih (t.erase first.1) (max hi first.2)
    have hstep : swallow (t, hi) (first :: joined) =
      swallow (t.erase first.1, max hi first.2) joined := rfl
    rw [hstep]
    constructor
    · intro k
      rw [hget, TreeMap.getElem?_erase]
      simp only [List.map_cons, List.mem_cons, Nat.compare_eq_eq]
      by_cases hk : first.1 = k
      · simp [hk]
      · have hk' : ¬ k = first.1 := fun heq => hk heq.symm
        simp only [hk, hk', false_or, if_false]
    constructor
    · omega
    constructor
    · intro e he
      rcases List.mem_cons.mp he with heq | he
      · subst heq
        omega
      · exact hall e he
    · rcases hlast with heq | hex
      · rcases Nat.le_total hi first.2 with hmax | hmax
        · exact Or.inr ⟨first, List.mem_cons_self, by omega⟩
        · exact Or.inl (by omega)
      · obtain ⟨e, he, heq⟩ := hex
        exact Or.inr ⟨e, List.mem_cons_of_mem _ he, heq⟩

/-- The spans after a range is put in: one over it and what it joined, and the others. -/
structure Joined (t t' : SpanSet) (lo hi lo' hi' : Nat) : Prop where
  widened : Widened t lo hi lo' hi'
  get : ∀ k : Nat, t'[k]? = if k = lo' then some hi' else if lo' ≤ k ∧ k ≤ hi' then none else t[k]?
  joins : ∀ {k e : Nat}, t[k]? = some e → lo' ≤ k → k ≤ hi' → e ≤ hi'

theorem Sound.joined (h : Sound t) {lo hi : Nat} (hlt : lo < hi) :
    ∃ lo' hi', Joined t (insert t lo hi) lo hi lo' hi' := by
  have hwide := h.widened lo hi
  unfold SpanSet.insert
  rw [if_neg (by omega)]
  generalize SpanSet.widened t lo hi = wide at hwide
  obtain ⟨lo', mid⟩ := wide
  dsimp only at hwide ⊢
  obtain ⟨hget, hle, hall, hlast⟩ := swallow_spec (within t lo' mid) t mid
  generalize swallow (t, mid) (within t lo' mid) = rest at hget hle hall hlast
  obtain ⟨rest, hi'⟩ := rest
  dsimp only at hget hle hall hlast ⊢
  have hmem : ∀ {k : Nat}, k ∈ (within t lo' mid).map Prod.fst ↔
      ∃ e, t[k]? = some e ∧ lo' ≤ k ∧ k ≤ mid := by
    intro k
    simp only [List.mem_map, Prod.exists, mem_within]
    grind
  have hpast : ∀ {k e : Nat}, t[k]? = some e → mid < k → hi' < k := by
    intro k e hk hgt
    rcases hlast with heq | hex
    · omega
    · obtain ⟨⟨k', e'⟩, hin, heq⟩ := hex
      obtain ⟨hk', -, hkm⟩ := mem_within.mp hin
      have := h.apart hk' hk (by omega)
      dsimp only at heq
      omega
  refine ⟨lo', hi', ?_, ?_, ?_⟩
  · constructor
    · exact hwide.start_le
    · exact hwide.le_stop.trans hle
    · exact hwide.below
    · intro x hxl hxh
      by_cases hmid : x < mid
      · exact hwide.old x hxl hmid
      · rcases hlast with heq | hex
        · omega
        · obtain ⟨⟨k, e⟩, hin, heq⟩ := hex
          obtain ⟨hk, -, hkm⟩ := mem_within.mp hin
          dsimp only at heq
          exact Or.inr ⟨k, e, hk, by omega, by omega⟩
  · intro k
    rw [TreeMap.getElem?_insert, hget]
    simp only [Nat.compare_eq_eq]
    by_cases hkl : lo' = k
    · rw [if_pos hkl, if_pos hkl.symm]
    · rw [if_neg hkl, if_neg (Ne.symm hkl)]
      by_cases hin : k ∈ (within t lo' mid).map Prod.fst
      · obtain ⟨e, hk, hlk, hkm⟩ := hmem.mp hin
        rw [if_pos hin, if_pos ⟨hlk, by omega⟩]
      · rw [if_neg hin]
        by_cases hbounds : lo' ≤ k ∧ k ≤ hi'
        · rw [if_pos hbounds]
          cases hk : t[k]? with
          | none => rfl
          | some e =>
            by_cases hkm : k ≤ mid
            · exact absurd (hmem.mpr ⟨e, hk, hbounds.1, hkm⟩) hin
            · have := hpast hk (by omega)
              omega
        · rw [if_neg hbounds]
  · intro k e hk hlk hkh
    by_cases hkm : k ≤ mid
    · exact hall (k, e) (mem_within.mpr ⟨hk, hlk, hkm⟩)
    · have := hpast hk (by omega)
      omega

theorem Joined.get_iff {t' : SpanSet} {lo hi lo' hi' : Nat} (h : Joined t t' lo hi lo' hi')
    (hlt : lo < hi) {k e : Nat} :
    t'[k]? = some e ↔ (k = lo' ∧ e = hi') ∨ ((k < lo' ∨ hi' < k) ∧ t[k]? = some e) := by
  have hstart := h.widened.start_le
  have hstop := h.widened.le_stop
  rw [h.get]
  by_cases hk : k = lo'
  · rw [if_pos hk]
    simp only [Option.some.injEq]
    omega
  · rw [if_neg hk]
    by_cases hin : lo' ≤ k ∧ k ≤ hi'
    · rw [if_pos hin]
      simp only [reduceCtorEq, false_iff]
      omega
    · rw [if_neg hin]
      constructor
      · intro hget
        exact Or.inr ⟨by omega, hget⟩
      · intro hor
        rcases hor with hspan | hold
        · exact absurd hspan.1 hk
        · exact hold.2

theorem Sound.insert (h : Sound t) (lo hi : Nat) : Sound (insert t lo hi) := by
  by_cases hlt : lo < hi
  · obtain ⟨lo', hi', hjoin⟩ := h.joined hlt
    have hstart := hjoin.widened.start_le
    have hstop := hjoin.widened.le_stop
    constructor
    · intro k e hk
      rcases (hjoin.get_iff hlt).mp hk with hnew | hold
      · omega
      · exact h.proper hold.2
    · intro k e k' e' hk hk' hkk
      rcases (hjoin.get_iff hlt).mp hk with hnew | ⟨hout, hold⟩ <;>
      rcases (hjoin.get_iff hlt).mp hk' with hnew' | ⟨hout', hold'⟩
      · omega
      · omega
      · have := hjoin.widened.below hold (by omega)
        omega
      · exact h.apart hold hold' hkk
  · unfold SpanSet.insert
    rw [if_pos (Nat.not_lt.mp hlt)]
    exact h

/-- Putting a range in adds its bytes and no others. -/
theorem Sound.holds_insert (h : Sound t) (lo hi x : Nat) :
    Holds (SpanSet.insert t lo hi) x ↔ (lo ≤ x ∧ x < hi) ∨ Holds t x := by
  by_cases hlt : lo < hi
  · obtain ⟨lo', hi', hjoin⟩ := h.joined hlt
    have hstart := hjoin.widened.start_le
    have hstop := hjoin.widened.le_stop
    have hspan : lo' ≤ x → x < hi' → Holds (SpanSet.insert t lo hi) x := by
      intro hle hxh
      exact ⟨lo', hi', (hjoin.get_iff hlt).mpr (Or.inl ⟨rfl, rfl⟩), hle, hxh⟩
    constructor
    · intro hx
      obtain ⟨k, e, hk, hle, hxe⟩ := hx
      rcases (hjoin.get_iff hlt).mp hk with hnew | hold
      · exact hjoin.widened.old x (by omega) (by omega)
      · exact Or.inr ⟨k, e, hold.2, hle, hxe⟩
    · intro hx
      rcases hx with hnew | hold
      · exact hspan (by omega) (by omega)
      · obtain ⟨k, e, hk, hle, hxe⟩ := hold
        by_cases hout : k < lo' ∨ hi' < k
        · exact ⟨k, e, (hjoin.get_iff hlt).mpr (Or.inr ⟨hout, hk⟩), hle, hxe⟩
        · have := hjoin.joins hk (by omega) (by omega)
          exact hspan (by omega) (by omega)
  · unfold SpanSet.insert
    rw [if_pos (Nat.not_lt.mp hlt)]
    constructor
    · exact Or.inr
    · intro hx
      rcases hx with hnew | hold
      · omega
      · exact hold

/-! ## The spans in order -/

theorem Sound.gaps_toList (h : Sound t) : t.toList.Pairwise (fun e e' => e.2 < e'.1) := by
  apply (Nearest.toList_sorted t).imp_of_mem
  intro e e' he he' hlt
  exact h.apart (Nearest.mem_toList.mp he) (Nearest.mem_toList.mp he') hlt

theorem Sound.proper_toList (h : Sound t) : Spans.Proper Prod.fst Prod.snd t.toList := by
  intro e he
  exact h.proper (Nearest.mem_toList.mp he)

theorem holds_iff_covers {x : Nat} : Holds t x ↔ Spans.Covers Prod.fst Prod.snd t.toList x := by
  constructor
  · intro hx
    obtain ⟨lo, hi, hget, hbounds⟩ := hx
    exact ⟨(lo, hi), Nearest.mem_toList.mpr hget, hbounds⟩
  · intro hx
    obtain ⟨e, he, hbounds⟩ := hx
    exact ⟨e.1, e.2, Nearest.mem_toList.mp he, hbounds⟩

end SpanSet

end Orbistoun.Lib
