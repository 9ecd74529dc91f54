import Orbistoun.Mem.Mappings.Basic

/-! # One reservation's stretches

`set` over a range with bytes in it keeps the stretches sound and changes the bytes
of the range only. Over an empty range strictly inside a stretch it does not: the
stretch it puts in holds no byte and takes the place of the one that starts there.
-/

namespace Orbistoun.Mem.Mappings

open Orbistoun.Lib
open Orbistoun.Lib.IntervalMap

/-! ## Cutting one stretch -/

section Cut

variable {t : Stretches} {base stop start stretchEnd : Nat} {was : Bool}

theorem cutStretch_spec (h : Sound t) (hlt : base < stop) (hs : t[start]? = some (stretchEnd, was))
    (hstart : start < stop) (hend : base < stretchEnd) :
    Sound (cutStretch base stop t (start, (stretchEnd, was))) ∧
      ∀ x w, Holds (cutStretch base stop t (start, (stretchEnd, was))) x w ↔
        Holds t x w ∧ ¬ (start ≤ x ∧ x < stretchEnd ∧ base ≤ x ∧ x < stop) := by
  have herase := h.erase start
  have hbytes := h.holds_erase hs
  have hvalue : ∀ x w, start ≤ x → x < stretchEnd → (Holds t x w ↔ w = was) := by
    intro x w hlo hhi
    have hheld : Holds t x was := ⟨start, stretchEnd, hs, hlo, hhi⟩
    exact ⟨fun hw => h.value_unique hw hheld, fun hw => hw ▸ hheld⟩
  -- The left part goes back under the stretch's own start.
  have hleft : Sound (if start < base then (t.erase start).insert start (base, was)
        else t.erase start) ∧
      ∀ x w, Holds (if start < base then (t.erase start).insert start (base, was)
        else t.erase start) x w ↔
          Holds t x w ∧ ¬ (start ≤ x ∧ x < stretchEnd ∧ base ≤ x) := by
    by_cases hb : start < base
    · have hfresh : Fresh (t.erase start) start base := by
        intro x w hlo hhi hheld
        exact ((hbytes x w).mp hheld).2 ⟨hlo, by omega⟩
      simp only [if_pos hb]
      refine ⟨herase.insert was hb hfresh, fun x w => ?_⟩
      rw [herase.holds_insert was hb hfresh, hbytes]
      by_cases hx : start ≤ x ∧ x < stretchEnd
      · have := hvalue x w hx.1 hx.2
        constructor
        · rintro (⟨-, hlt', rfl⟩ | ⟨-, hn⟩)
          · exact ⟨this.mpr rfl, by omega⟩
          · exact absurd hx hn
        · rintro ⟨hw, hn⟩
          exact .inl ⟨hx.1, by omega, this.mp hw⟩
      · constructor
        · rintro (⟨hlo, hhi, -⟩ | ⟨hw, -⟩)
          · exact absurd ⟨hlo, by omega⟩ hx
          · exact ⟨hw, by omega⟩
        · rintro ⟨hw, -⟩
          exact .inr ⟨hw, hx⟩
    · simp only [if_neg hb]
      refine ⟨herase, fun x w => ?_⟩
      rw [hbytes]
      constructor
      · rintro ⟨hw, hn⟩
        exact ⟨hw, by omega⟩
      · rintro ⟨hw, hn⟩
        exact ⟨hw, by omega⟩
  -- The right part starts at `stop`, which no other stretch holds.
  simp only [cutStretch]
  by_cases he : stretchEnd > stop
  · have hfresh : Fresh (if start < base then (t.erase start).insert start (base, was)
        else t.erase start) stop stretchEnd := by
      intro x w hlo hhi hheld
      exact ((hleft.2 x w).mp hheld).2 ⟨by omega, hhi, by omega⟩
    rw [if_pos he]
    refine ⟨hleft.1.insert was he hfresh, fun x w => ?_⟩
    rw [hleft.1.holds_insert was he hfresh, hleft.2]
    by_cases hx : start ≤ x ∧ x < stretchEnd
    · have := hvalue x w hx.1 hx.2
      constructor
      · rintro (⟨hlo, -, rfl⟩ | ⟨hw, hn⟩)
        · exact ⟨this.mpr rfl, by omega⟩
        · exact ⟨hw, by omega⟩
      · rintro ⟨hw, hn⟩
        by_cases hxs : stop ≤ x
        · exact .inl ⟨hxs, hx.2, this.mp hw⟩
        · exact .inr ⟨hw, by omega⟩
    · constructor
      · rintro (⟨hlo, hhi, -⟩ | ⟨hw, -⟩)
        · exact absurd ⟨by omega, hhi⟩ hx
        · exact ⟨hw, by omega⟩
      · rintro ⟨hw, -⟩
        exact .inr ⟨hw, by omega⟩
  · rw [if_neg he]
    refine ⟨hleft.1, fun x w => ?_⟩
    rw [hleft.2]
    constructor
    · rintro ⟨hw, hn⟩
      exact ⟨hw, by omega⟩
    · rintro ⟨hw, hn⟩
      exact ⟨hw, by omega⟩

theorem cutStretch_of_ne {k : Nat} (hk : k < stop) (hne : start ≠ k) :
    (cutStretch base stop t (start, (stretchEnd, was)))[k]? = t[k]? := by
  simp only [cutStretch]
  split <;> split <;>
    simp [getElem?_insert_nat, getElem?_erase_nat, hne, Nat.ne_of_gt hk]

end Cut

/-! ## Cutting them all -/

/-- The stretches still to cut are those of the map that overlap the range; once they
are cut the range holds no byte and the rest is as it was. -/
theorem foldl_cutStretch_spec {base stop : Nat} (hlt : base < stop)
    (cuts : List (Nat × (Nat × Bool))) {t : Stretches} (h : Sound t)
    (hmem : ∀ e ∈ cuts, t[e.1]? = some e.2 ∧ e.1 < stop ∧ base < e.2.1)
    (hnodup : (cuts.map Prod.fst).Nodup) :
    Sound (cuts.foldl (cutStretch base stop) t) ∧
      ∀ x w, Holds (cuts.foldl (cutStretch base stop) t) x w ↔
        Holds t x w ∧ ¬ ∃ e ∈ cuts, e.1 ≤ x ∧ x < e.2.1 ∧ base ≤ x ∧ x < stop := by
  induction cuts generalizing t with
  | nil => exact ⟨h, fun x w => by simp⟩
  | cons e cuts ih =>
      obtain ⟨start, stretchEnd, was⟩ := e
      obtain ⟨hs, hstart, hend⟩ := hmem (start, (stretchEnd, was)) (by simp)
      obtain ⟨hsound, hbytes⟩ := cutStretch_spec h hlt hs hstart hend
      rw [List.map_cons, List.nodup_cons] at hnodup
      have hrest : ∀ e ∈ cuts, (cutStretch base stop t (start, (stretchEnd, was)))[e.1]? = some e.2 ∧
          e.1 < stop ∧ base < e.2.1 := by
        intro e he
        obtain ⟨hse, hlo, hhi⟩ := hmem e (List.mem_cons_of_mem _ he)
        have hne : start ≠ e.1 := by
          intro heq
          exact hnodup.1 (List.mem_map.mpr ⟨e, he, heq.symm⟩)
        exact ⟨by rw [cutStretch_of_ne hlo hne]; exact hse, hlo, hhi⟩
      obtain ⟨hsound', hbytes'⟩ := ih hsound hrest hnodup.2
      refine ⟨hsound', fun x w => ?_⟩
      rw [List.foldl_cons, hbytes', hbytes]
      simp only [List.exists_mem_cons_iff, not_or]
      tauto

theorem nodup_cutBy (base stop : Nat) (t : Stretches) : ((cutBy base stop t).map Prod.fst).Nodup := by
  have hdistinct := Std.TreeMap.distinct_keys_toList (t := t)
  have hpair : t.toList.Pairwise (fun a b => a.1 ≠ b.1) :=
    hdistinct.imp (fun hab heq => hab (by rw [heq]; exact Nat.compare_eq_eq.mpr rfl))
  rw [List.Nodup, List.pairwise_map]
  exact hpair.filter _

theorem mem_cutBy {base stop start stretchEnd : Nat} {was : Bool} {t : Stretches} :
    (start, (stretchEnd, was)) ∈ cutBy base stop t ↔
      t[start]? = some (stretchEnd, was) ∧ start < stop ∧ base < stretchEnd := by
  simp [cutBy, List.mem_filter]

/-- `set` over a range with bytes: they take the new readability, the others keep theirs. -/
theorem set_spec {t : Stretches} (h : Sound t) {base stop : Nat} (hlt : base < stop)
    (readable : Bool) :
    Sound (t.set base stop readable) ∧
      ∀ x w, Holds (t.set base stop readable) x w ↔
        if base ≤ x ∧ x < stop then w = readable else Holds t x w := by
  obtain ⟨hsound, hbytes⟩ := foldl_cutStretch_spec hlt (cutBy base stop t) h
    (fun e he => by
      obtain ⟨start, stretchEnd, was⟩ := e
      exact mem_cutBy.mp he) (nodup_cutBy base stop t)
  -- Every stretch holding a byte of the range was cut.
  have hfresh : Fresh ((cutBy base stop t).foldl (cutStretch base stop) t) base stop := by
    intro x w hlo hhi hheld
    obtain ⟨⟨start, stretchEnd, hs, hx⟩, hn⟩ := (hbytes x w).mp hheld
    exact hn ⟨(start, (stretchEnd, w)), mem_cutBy.mpr ⟨hs, by omega, by omega⟩, hx.1, hx.2, hlo, hhi⟩
  refine ⟨hsound.insert readable hlt hfresh, fun x w => ?_⟩
  rw [Stretches.set, hsound.holds_insert readable hlt hfresh, hbytes]
  split
  · next hx =>
    constructor
    · rintro (⟨-, -, hw⟩ | hheld)
      · exact hw
      · exact absurd ((hbytes x w).mpr hheld) (hfresh x w hx.1 hx.2)
    · intro hw
      exact .inl ⟨hx.1, hx.2, hw⟩
  · next hx =>
    constructor
    · rintro (⟨hlo, hhi, -⟩ | ⟨hw, -⟩)
      · exact absurd ⟨hlo, hhi⟩ hx
      · exact hw
    · intro hw
      exact .inr ⟨hw, fun ⟨_, _, _, _, hlo, hhi⟩ => hx ⟨hlo, hhi⟩⟩

/-! ## The empty range -/

theorem foldl_cutStretch_empty {point : Nat} (cuts : List (Nat × (Nat × Bool))) {t : Stretches}
    (h : ∀ (k e : Nat) (w : Bool), k < point → t[k]? = some (e, w) →
      e ≤ point ∨ (k, (e, w)) ∈ cuts) :
    ∀ (k e : Nat) (w : Bool), k < point →
      (cuts.foldl (cutStretch point point) t)[k]? = some (e, w) → e ≤ point := by
  induction cuts generalizing t with
  | nil =>
      intro k e w hk hs
      simpa using h k e w hk hs
  | cons c cuts ih =>
      obtain ⟨start, stretchEnd, was⟩ := c
      refine ih (fun k e w hk hs => ?_)
      by_cases hne : start = k
      · subst hne
        left
        have hcut : (cutStretch point point t (start, (stretchEnd, was)))[start]? =
            some (point, was) := by
          simp only [cutStretch, if_pos hk]
          split
          · rw [getElem?_insert_nat, if_neg (Nat.ne_of_gt hk), getElem?_insert_nat, if_pos rfl]
          · rw [getElem?_insert_nat, if_pos rfl]
        rw [hcut] at hs
        cases hs
        exact Nat.le_refl _
      · rw [cutStretch_of_ne hk hne] at hs
        rcases h k e w hk hs with hle | hm
        · exact .inl hle
        · rcases List.mem_cons.mp hm with heq | hm
          · cases heq
            exact absurd rfl hne
          · exact .inr hm

theorem set_empty_loses (t : Stretches) (point : Nat) (readable : Bool) (w : Bool) :
    ¬ Holds (t.set point point readable) point w := by
  rintro ⟨lo, hi, hs, hlo, hhi⟩
  rw [Stretches.set, getElem?_insert_nat] at hs
  split at hs
  · cases hs
    omega
  · next hne =>
    have hle := foldl_cutStretch_empty (cutBy point point t) (t := t)
      (fun k e w hk hs => by
        by_cases he : e ≤ point
        · exact .inl he
        · exact .inr (mem_cutBy.mpr ⟨hs, hk, by omega⟩)) lo hi w (by omega) hs
    omega

end Orbistoun.Mem.Mappings
