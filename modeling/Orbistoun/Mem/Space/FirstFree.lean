import Orbistoun.Mem.Space

/-! # Where a hint lands

`first_free_at_or_above`: the search upward from a hint for an aligned start where a range meets
no region. The walk steps from region to region; nothing it steps over would have done.
-/

namespace Orbistoun.Mem.Space

open Std (TreeMap)
open Orbistoun.Lib
open Orbistoun.Lib.Nearest (lastLE)
open Orbistoun.Lib.U64 (saturatingAdd checkedAdd checkedNextMultipleOf bound)

namespace AddressSpace

/-- The walk over the regions in order from one at or below `start`: the start it comes to. -/
def firstFreeFrom (len align : Nat) : Nat → List Region → Option Nat
  | start, [] => some start
  | start, region :: regions =>
      match checkedAdd start len with
      | none => none
      | some stop =>
          if stop ≤ region.base then some start
          else if start < region.stop then
            match checkedNextMultipleOf region.stop align with
            | none => none
            | some start => firstFreeFrom len align start regions
          else firstFreeFrom len align start regions

def firstFreeAtOrAbove (s : AddressSpace) (hint len align : Nat) : Option Nat :=
  let align := max align 1
  match checkedNextMultipleOf hint align with
  | none => none
  | some start =>
      -- a region starting below `start` may still reach into it
      let first := (lastLE s.regions start).elim start Prod.fst
      match firstFreeFrom len align start (s.regionList.filter (fun r => first ≤ r.base)) with
      | none => none
      | some start => (checkedAdd start len).map (fun _ => start)

/-- The `len` bytes from `start` meet a region. An empty range meets one it lies inside. -/
def Meets (len start : Nat) (r : Region) : Prop := r.base < start + len ∧ start < r.stop

/-- The `len` bytes from `start` end below the last address and meet none of the regions. -/
def Free (len : Nat) (regions : List Region) (start : Nat) : Prop :=
  start + len < bound ∧ ∀ r ∈ regions, ¬ Meets len start r

theorem firstFreeFrom_some {len align start a : Nat} {regions : List Region}
    (hordered : regions.Pairwise (fun r r' => r.base ≤ r'.base ∧ r.stop ≤ r'.base))
    (hdvd : align ∣ start) (h : firstFreeFrom len align start regions = some a) :
    start ≤ a ∧ align ∣ a ∧ (∀ r ∈ regions, ¬ Meets len a r) ∧
      ∀ b, align ∣ b → start ≤ b → b < a → ¬ Free len regions b := by
  induction regions generalizing start with
  | nil =>
    cases h
    refine ⟨Nat.le_refl _, hdvd, by simp, ?_⟩
    intro b _ hle hlt
    omega
  | cons region regions ih =>
    obtain ⟨hnext, hordered⟩ := List.pairwise_cons.mp hordered
    unfold firstFreeFrom at h
    cases hstop : checkedAdd start len with
    | none =>
      rw [hstop] at h
      cases h
    | some stop =>
      rw [hstop] at h
      have hstopEq := U64.checkedAdd_eq hstop
      dsimp only at h
      by_cases hbelow : stop ≤ region.base
      · rw [if_pos hbelow] at h
        cases h
        refine ⟨Nat.le_refl _, hdvd, ?_, ?_⟩
        · intro r hr hmeet
          unfold Meets at hmeet
          rcases List.mem_cons.mp hr with heq | hr
          · subst heq
            omega
          · have := hnext r hr
            omega
        · intro b _ hle hlt
          omega
      · rw [if_neg hbelow] at h
        by_cases hreach : start < region.stop
        · rw [if_pos hreach] at h
          cases hup : checkedNextMultipleOf region.stop align with
          | none =>
            rw [hup] at h
            cases h
          | some up =>
            rw [hup] at h
            have hupLe := U64.le_checkedNextMultipleOf hup
            obtain ⟨hle, hdvd', hfree, hleast⟩ :=
              ih hordered (U64.dvd_checkedNextMultipleOf hup) h
            refine ⟨by omega, hdvd', ?_, ?_⟩
            · intro r hr hmeet
              rcases List.mem_cons.mp hr with heq | hr
              · subst heq
                unfold Meets at hmeet
                omega
              · exact hfree r hr hmeet
            · intro b hb hlb hba hbfree
              by_cases hstep : b < up
              · -- between the start and the region's end every multiple meets the region
                have hin : b < region.stop := by
                  by_contra hpast
                  have := U64.checkedNextMultipleOf_le hup hb (Nat.not_lt.mp hpast)
                  omega
                exact hbfree.2 region List.mem_cons_self ⟨by omega, hin⟩
              · apply hleast b hb (Nat.not_lt.mp hstep) hba
                exact ⟨hbfree.1, fun r hr => hbfree.2 r (List.mem_cons_of_mem _ hr)⟩
        · rw [if_neg hreach] at h
          obtain ⟨hle, hdvd', hfree, hleast⟩ := ih hordered hdvd h
          refine ⟨hle, hdvd', ?_, ?_⟩
          · intro r hr hmeet
            rcases List.mem_cons.mp hr with heq | hr
            · subst heq
              unfold Meets at hmeet
              omega
            · exact hfree r hr hmeet
          · intro b hb hlb hba hbfree
            apply hleast b hb hlb hba
            exact ⟨hbfree.1, fun r hr => hbfree.2 r (List.mem_cons_of_mem _ hr)⟩

theorem firstFreeFrom_none {len align start : Nat} {regions : List Region} (hpos : align ≠ 0)
    (h : firstFreeFrom len align start regions = none) :
    ∀ b, align ∣ b → start ≤ b → ¬ Free len regions b := by
  induction regions generalizing start with
  | nil => cases h
  | cons region regions ih =>
    intro b hb hle hfree
    have hrest : Free len regions b :=
      ⟨hfree.1, fun r hr => hfree.2 r (List.mem_cons_of_mem _ hr)⟩
    unfold firstFreeFrom at h
    cases hstop : checkedAdd start len with
    | none =>
      unfold checkedAdd at hstop
      split at hstop
      · cases hstop
      · have := hfree.1
        omega
    | some stop =>
      rw [hstop] at h
      have hstopEq := U64.checkedAdd_eq hstop
      dsimp only at h
      by_cases hbelow : stop ≤ region.base
      · rw [if_pos hbelow] at h
        cases h
      · rw [if_neg hbelow] at h
        by_cases hreach : start < region.stop
        · rw [if_pos hreach] at h
          by_cases hin : b < region.stop
          · exact hfree.2 region List.mem_cons_self ⟨by omega, hin⟩
          · cases hup : checkedNextMultipleOf region.stop align with
            | none =>
              have := U64.bound_le_of_checkedNextMultipleOf_eq_none hpos hup hb (Nat.not_lt.mp hin)
              have := hfree.1
              omega
            | some up =>
              rw [hup] at h
              exact ih h b hb (U64.checkedNextMultipleOf_le hup hb (Nat.not_lt.mp hin)) hrest
        · rw [if_neg hreach] at h
          exact ih h b hb hle hrest

section Search

variable {s : AddressSpace}

theorem Sound.regionList_ordered (h : Sound s) :
    s.regionList.Pairwise (fun r r' => r.base ≤ r'.base ∧ r.stop ≤ r'.base) := by
  unfold regionList
  apply List.pairwise_map.mpr
  apply (Nearest.toList_sorted s.regions).imp_of_mem
  intro e e' he he' hlt
  have hr := Nearest.mem_toList.mp he
  have hr' := Nearest.mem_toList.mp he'
  rw [h.keyed hr, h.keyed hr']
  exact ⟨hlt.le, h.stop_le hr hr' hlt⟩

theorem Sound.stop_le_of_skipped (h : Sound s) {start : Nat} {r : Region} (hr : r ∈ s.regionList)
    (hskip : r.base < (lastLE s.regions start).elim start Prod.fst) : r.stop ≤ start := by
  obtain ⟨k, hk⟩ := mem_regionList.mp hr
  have hkey := h.keyed hk
  cases hlast : lastLE s.regions start with
  | none =>
    rw [hlast] at hskip
    have := Nearest.not_of_last_none hlast hk
    simp only [decide_eq_false_iff_not, Option.elim_none] at this hskip
    omega
  | some entry =>
    obtain ⟨k', r'⟩ := entry
    rw [hlast] at hskip
    obtain ⟨hk', hle⟩ := Nearest.last_mem hlast
    have hle := of_decide_eq_true hle
    have hskip : r.base < k' := hskip
    exact (h.stop_le hk hk' (by omega)).trans hle

/-- The regions the walk sees decide: none it leaves out meets a range from its start on. -/
theorem Sound.free_iff_seen (h : Sound s) {len start b : Nat} (hle : start ≤ b) :
    Free len s.regionList b ↔ Free len (s.regionList.filter (fun r =>
      (lastLE s.regions start).elim start Prod.fst ≤ r.base)) b := by
  constructor
  · intro hfree
    exact ⟨hfree.1, fun r hr => hfree.2 r (List.mem_filter.mp hr).1⟩
  · intro hfree
    apply And.intro hfree.1
    intro r hr hmeet
    by_cases hseen : (lastLE s.regions start).elim start Prod.fst ≤ r.base
    · exact hfree.2 r (List.mem_filter.mpr ⟨hr, decide_eq_true hseen⟩) hmeet
    · have := h.stop_le_of_skipped hr (Nat.not_le.mp hseen)
      have := hmeet.2
      omega

theorem Sound.firstFree_some (h : Sound s) {hint len align a : Nat}
    (ha : s.firstFreeAtOrAbove hint len align = some a) :
    max align 1 ∣ a ∧ hint ≤ a ∧ Free len s.regionList a ∧
      ∀ b, max align 1 ∣ b → hint ≤ b → b < a → ¬ Free len s.regionList b := by
  unfold firstFreeAtOrAbove at ha
  dsimp only at ha
  cases hup : checkedNextMultipleOf hint (max align 1) with
  | none =>
    rw [hup] at ha
    cases ha
  | some start =>
    rw [hup] at ha
    have hstart := U64.le_checkedNextMultipleOf hup
    dsimp only at ha
    split at ha
    · cases ha
    · next a' hwalk =>
      obtain ⟨stop, hstop, rfl⟩ := Option.map_eq_some_iff.mp ha
      obtain ⟨hle, hdvd, hfree, hleast⟩ := firstFreeFrom_some (h.regionList_ordered.filter _)
        (U64.dvd_checkedNextMultipleOf hup) hwalk
      have hbound : a' + len < bound := by
        unfold checkedAdd at hstop
        split at hstop
        · assumption
        · cases hstop
      refine ⟨hdvd, by omega, (h.free_iff_seen hle).mpr ⟨hbound, hfree⟩, ?_⟩
      intro b hb hhint hba hbfree
      have hsb := U64.checkedNextMultipleOf_le hup hb hhint
      exact hleast b hb hsb hba ((h.free_iff_seen hsb).mp hbfree)

theorem Sound.firstFree_none (h : Sound s) {hint len align : Nat}
    (hnone : s.firstFreeAtOrAbove hint len align = none) :
    ∀ b, max align 1 ∣ b → hint ≤ b → ¬ Free len s.regionList b := by
  intro b hb hhint hfree
  unfold firstFreeAtOrAbove at hnone
  dsimp only at hnone
  have hpos : max align 1 ≠ 0 := by omega
  cases hup : checkedNextMultipleOf hint (max align 1) with
  | none =>
    have := U64.bound_le_of_checkedNextMultipleOf_eq_none hpos hup hb hhint
    have := hfree.1
    omega
  | some start =>
    rw [hup] at hnone
    have hsb := U64.checkedNextMultipleOf_le hup hb hhint
    have hseen := (h.free_iff_seen hsb).mp hfree
    dsimp only at hnone
    split at hnone
    · next hwalk => exact firstFreeFrom_none hpos hwalk b hb hsb hseen
    · next a hwalk =>
      -- the walk's start runs past the last address, and so does every one from it on
      rw [Option.map_eq_none_iff] at hnone
      obtain ⟨hle, -, -, hleast⟩ := firstFreeFrom_some (h.regionList_ordered.filter _)
        (U64.dvd_checkedNextMultipleOf hup) hwalk
      by_cases hba : b < a
      · exact hleast b hb hsb hba hseen
      · unfold checkedAdd at hnone
        split at hnone
        · cases hnone
        · have := hfree.1
          omega

theorem Sound.meets_iff (h : Sound s) {len a : Nat} (hpos : 0 < len) (hbound : a + len < bound)
    {r : Region} (hr : r ∈ s.regionList) :
    Meets len a r ↔ ∃ x, (a ≤ x ∧ x < a + len) ∧ r.base ≤ x ∧ x < r.base + r.len := by
  obtain ⟨k, hk⟩ := mem_regionList.mp hr
  obtain ⟨-, -, hlen, -⟩ := h.paged hk
  unfold Meets Region.stop saturatingAdd
  constructor
  · intro hmeet
    exact ⟨max a r.base, by omega, by omega, by omega⟩
  · intro hx
    obtain ⟨x, hx, hle, hlt⟩ := hx
    omega

end Search

/-- After any run of calls the search answers the least aligned start at or above the hint whose
bytes end below the last address and meet no region, and nothing exactly when there is none. An
empty range counts as meeting a region it lies inside. -/
theorem firstFree_least {calls : List Call} (hw : ∀ c ∈ calls, c.Word) (hint len align : Nat) :
    let s := space.after new calls
    (∀ a, s.firstFreeAtOrAbove hint len align = some a ↔
      (max align 1 ∣ a ∧ hint ≤ a ∧ Free len s.regionList a ∧
        ∀ b, max align 1 ∣ b → hint ≤ b → b < a → ¬ Free len s.regionList b)) ∧
      (s.firstFreeAtOrAbove hint len align = none ↔
        ∀ b, max align 1 ∣ b → hint ≤ b → ¬ Free len s.regionList b) ∧
      (0 < len → ∀ a, a + len < bound → ∀ r ∈ s.regionList,
        (Meets len a r ↔ ∃ x, (a ≤ x ∧ x < a + len) ∧ r.base ≤ x ∧ x < r.base + r.len)) := by
  intro s
  have hs : Sound s := run_sound hw
  constructor
  · intro a
    constructor
    · exact hs.firstFree_some
    · intro ha
      obtain ⟨hdvd, hle, hfree, hleast⟩ := ha
      cases hfound : s.firstFreeAtOrAbove hint len align with
      | none => exact absurd hfree (hs.firstFree_none hfound a hdvd hle)
      | some a' =>
        obtain ⟨hdvd', hle', hfree', hleast'⟩ := hs.firstFree_some hfound
        rcases Nat.lt_trichotomy a a' with hlt | heq | hgt
        · exact absurd hfree (hleast' a hdvd hle hlt)
        · rw [heq]
        · exact absurd hfree' (hleast a' hdvd' hle' hgt)
  constructor
  · constructor
    · exact hs.firstFree_none
    · intro hall
      cases hfound : s.firstFreeAtOrAbove hint len align with
      | none => rfl
      | some a =>
        obtain ⟨hdvd, hle, hfree, -⟩ := hs.firstFree_some hfound
        exact absurd hfree (hall a hdvd hle)
  · intro hpos a hbound r hr
    exact hs.meets_iff hpos hbound hr

/-- A hint in the way of a region moves past it. -/
theorem firstFree_least_past :
    let s := space.after new [.reserve 0x10000 0x2000 ⟨true, true, false⟩ (.ok ())]
    s.firstFreeAtOrAbove 0x11000 0x1000 0x1000 = some 0x12000 ∧
      Free 0x1000 s.regionList 0x12000 := by
  intro s
  have hw : ∀ c ∈ [Call.reserve 0x10000 0x2000 ⟨true, true, false⟩ (.ok ())], c.Word := by
    simp [Call.Word, bound]
  have hfound : s.firstFreeAtOrAbove 0x11000 0x1000 0x1000 = some 0x12000 := by decide +kernel
  exact ⟨hfound, (((firstFree_least hw 0x11000 0x1000 0x1000).1 0x12000).mp hfound).2.2.1⟩

/-- No bytes at a hint inside a region overlap it, yet the search moves past the region; and the
last page of all is refused though it is free. -/
theorem firstFree_moves_empty :
    let s := space.after new [.reserve 0x10000 0x2000 ⟨true, true, false⟩ (.ok ())]
    (s.firstFreeAtOrAbove 0x11000 0 0x1000 = some 0x12000 ∧
        ∀ r ∈ s.regionList, ¬ ∃ x, (0x11000 ≤ x ∧ x < 0x11000 + 0) ∧ r.base ≤ x ∧
          x < r.base + r.len) ∧
      new.firstFreeAtOrAbove (2 ^ 64 - 0x1000) 0x1000 0x1000 = none := by
  intro s
  constructor
  constructor
  · decide +kernel
  · intro r _ hx
    obtain ⟨x, hx, -⟩ := hx
    omega
  · decide +kernel

end AddressSpace

end Orbistoun.Mem.Space
