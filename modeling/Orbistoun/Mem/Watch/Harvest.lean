import Orbistoun.Mem.Watch.Basic

/-! # Harvests of the host's watch

What a walk of the host's pages does, whatever batches, runs and reservations cut it
into: the pages it is handed are the ones the host forgets, and where it is whole no page
it was asked about stays written.
-/

namespace Orbistoun.Mem.Watch

open Std (TreeMap TreeSet)
open Orbistoun.Lib
open Orbistoun.Lib.U64 (saturatingAdd checkedAdd)

theorem pageBytes_pos : 0 < pageBytes := by decide

@[simp] theorem touches_iff {first stop n : Nat} : touches first stop n = true ↔
    first < stop ∧ n * pageBytes < stop ∧ first < n * pageBytes + pageBytes := by
  simp [touches, and_assoc]

/-- A page of a range cut in two is a page of one of the parts. -/
theorem touches_split {first mid stop n : Nat} (hmid : first ≤ mid)
    (h : touches first stop n = true) :
    touches first mid n = true ∨ touches mid stop n = true := by
  simp only [touches_iff] at h ⊢
  by_cases hn : n * pageBytes < mid
  · by_cases hlt : first < mid
    · exact .inl ⟨hlt, hn, h.2.2⟩
    · have hmid' : mid = first := by omega
      subst hmid'
      exact .inr h
  · have hpos := pageBytes_pos
    exact .inr ⟨by omega, h.2.1, by omega⟩

theorem mem_foldl_erase {t : TreeSet Nat} {l : List Nat} {n : Nat} :
    n ∈ l.foldl TreeSet.erase t ↔ n ∈ t ∧ n ∉ l := by
  induction l generalizing t with
  | nil => simp
  | cons k l ih =>
      simp only [List.foldl_cons, ih, TreeSet.mem_erase, List.mem_cons, ne_eq, Nat.compare_eq_eq]
      constructor
      · rintro ⟨⟨hne, ht⟩, hl⟩
        exact ⟨ht, by rintro (rfl | h); exacts [hne rfl, hl h]⟩
      · rintro ⟨ht, hl⟩
        exact ⟨⟨fun heq => hl (.inl heq.symm), ht⟩, fun h => hl (.inr h)⟩

theorem size_foldl_erase_le (t : TreeSet Nat) (l : List Nat) :
    (l.foldl TreeSet.erase t).size ≤ t.size := by
  induction l generalizing t with
  | nil => exact le_refl _
  | cons k l ih => exact le_trans (ih _) TreeSet.size_erase_le

theorem size_foldl_erase_lt {t : TreeSet Nat} {k : Nat} (hk : k ∈ t) (l : List Nat) :
    ((k :: l).foldl TreeSet.erase t).size < t.size := by
  have hle := size_foldl_erase_le (t.erase k) l
  have herase : (t.erase k).size = t.size - 1 := by
    rw [TreeSet.size_erase, if_pos (TreeSet.mem_iff_contains.mp hk)]
  have hpos : 0 < t.size := by
    have hne : t.isEmpty = false := TreeSet.isEmpty_eq_false_iff_exists_mem.mpr ⟨k, hk⟩
    rw [TreeSet.isEmpty_eq_size_eq_zero] at hne
    simp at hne
    omega
  rw [List.foldl_cons]
  omega

namespace Host

variable {h h' : Host} {first stop : Nat} {found : List Nat}

theorem mem_written {n : Nat} : n ∈ h.dirty.toList.filter (touches first stop) ↔
    n ∈ h.dirty ∧ touches first stop n = true := by
  rw [List.mem_filter, TreeSet.mem_toList]

theorem written_sorted (h : Host) (first stop : Nat) :
    (h.dirty.toList.filter (touches first stop)).Pairwise (· < ·) := by
  have hord := h.dirty.ordered_toList
  simp only [Nat.compare_eq_lt] at hord
  exact hord.filter _

theorem getWriteWatch_eq_some (hw : h.getWriteWatch first stop = some (found, h')) :
    found = (h.dirty.toList.filter (touches first stop)).take batch ∧
      h' = { h with dirty := found.foldl TreeSet.erase h.dirty } := by
  unfold getWriteWatch at hw
  split at hw
  · cases hw
    exact ⟨rfl, rfl⟩
  · cases hw

end Host

/-- What a walk over `[first, stop)` does: nothing but the host's record of written pages
changes, which loses the pages handed over, and no written page of a range that is
watched whole stays behind. -/
structure Walk.Harvests (h : Host) (first stop : Nat) (w : Walk) : Prop where
  frame : w.host = { h with dirty := w.host.dirty }
  dirty : ∀ n, n ∈ w.host.dirty ↔ n ∈ h.dirty ∧ n ∉ w.found
  clear : w.whole = true → ∀ n, touches first stop n = true → n ∉ w.host.dirty

namespace Walk

variable {h : Host} {first mid stop : Nat} {w : Walk}

theorem harvests_refused (h : Host) (first stop : Nat) : Harvests h first stop ⟨false, [], h⟩ :=
  ⟨rfl, by simp, by simp⟩

theorem harvests_nothing (h : Host) (hle : stop ≤ first) :
    Harvests h first stop ⟨true, [], h⟩ := by
  refine ⟨rfl, by simp, fun _ n ht => ?_⟩
  have := (touches_iff.mp ht).1
  omega

/-- Two walks one after the other are one over both ranges. -/
theorem Harvests.andThen {next : Host → Walk} (hw : Harvests h first mid w) (hmid : first ≤ mid)
    (hnext : Harvests w.host mid stop (next w.host)) :
    Harvests h first stop (w.andThen next) := by
  unfold Walk.andThen
  by_cases hwhole : w.whole = true
  · rw [if_pos hwhole]
    refine ⟨?_, fun n => ?_, fun hn n ht => ?_⟩
    · show (next w.host).host = { h with dirty := (next w.host).host.dirty }
      rw [hnext.frame, hw.frame]
    · show n ∈ (next w.host).host.dirty ↔ n ∈ h.dirty ∧ n ∉ w.found ++ (next w.host).found
      rw [hnext.dirty, hw.dirty, List.mem_append]
      tauto
    · rcases touches_split hmid ht with hl | hr
      · intro hmem
        exact hw.clear hwhole n hl ((hnext.dirty n).mp hmem).1
      · exact hnext.clear hn n hr
  · rw [if_neg hwhole]
    exact ⟨hw.frame, hw.dirty, fun hn => absurd hn hwhole⟩

end Walk

namespace Host

variable {first stop : Nat}

/-- A batch that is not full took every written page of the range. -/
theorem getWriteWatch_clear {h h' : Host} {found : List Nat}
    (hw : h.getWriteWatch first stop = some (found, h')) (hshort : found.length < batch) (n : Nat)
    (ht : touches first stop n = true) : n ∉ h'.dirty := by
  obtain ⟨hfound, rfl⟩ := getWriteWatch_eq_some hw
  intro hmem
  obtain ⟨hd, hnot⟩ := mem_foldl_erase.mp hmem
  have hall : h.dirty.toList.filter (touches first stop) = found := by
    rw [hfound, List.length_take] at hshort
    rw [hfound, List.take_of_length_le (by omega)]
  exact hnot (hall ▸ mem_written.mpr ⟨hd, ht⟩)

theorem getWriteWatch_dirty {h h' : Host} {found : List Nat}
    (hw : h.getWriteWatch first stop = some (found, h')) (n : Nat) :
    n ∈ h'.dirty ↔ n ∈ h.dirty ∧ n ∉ found := by
  obtain ⟨-, rfl⟩ := getWriteWatch_eq_some hw
  exact mem_foldl_erase

theorem getWriteWatch_fewer {h h' : Host} {found : List Nat}
    (hw : h.getWriteWatch first stop = some (found, h')) (hfull : ¬ found.length < batch) :
    h'.dirty.size < h.dirty.size := by
  obtain ⟨hfound, rfl⟩ := getWriteWatch_eq_some hw
  cases found with
  | nil => exact absurd (show 0 < batch by decide) hfull
  | cons k found =>
      have hk : k ∈ (h.dirty.toList.filter (touches first stop)).take batch := by
        rw [← hfound]
        exact List.mem_cons_self
      exact size_foldl_erase_lt (mem_written.mp (List.mem_of_mem_take hk)).1 found

/-- The pages a full batch left in the range come after all it handed over. -/
theorem lt_of_left {h h' : Host} {found : List Nat}
    (hw : h.getWriteWatch first stop = some (found, h')) {n k : Nat}
    (ht : touches first stop n = true) (hn : n ∈ h'.dirty) (hk : k ∈ found) : k < n := by
  obtain ⟨hd, hnot⟩ := (getWriteWatch_dirty hw n).mp hn
  obtain ⟨hfound, -⟩ := getWriteWatch_eq_some hw
  have hsorted := written_sorted h first stop
  rw [← List.take_append_drop batch (h.dirty.toList.filter (touches first stop)),
    ← hfound, List.pairwise_append] at hsorted
  have hmem : n ∈ h.dirty.toList.filter (touches first stop) := mem_written.mpr ⟨hd, ht⟩
  rw [← List.take_append_drop batch (h.dirty.toList.filter (touches first stop)),
    ← hfound, List.mem_append] at hmem
  exact hsorted.2.2 k hk n (hmem.resolve_left hnot)

/-- `next` goes on at or before the first page a full batch left behind. -/
def GoesOn (next : Nat → List Nat → Nat) : Prop :=
  ∀ h h' first stop found n, getWriteWatch h first stop = some (found, h') →
    ¬ found.length < batch → touches first stop n = true → n ∈ h'.dirty →
      touches (next first found) stop n = true

theorem batches_harvests {next : Nat → List Nat → Nat} (hnext : GoesOn next) {turns : Nat}
    {h : Host} {first : Nat} (hturns : h.dirty.size < turns) :
    Walk.Harvests h first stop (batches next turns h first stop) := by
  induction turns generalizing h first with
  | zero => omega
  | succ turns ih =>
      unfold batches
      by_cases hlt : first < stop
      · rw [if_pos hlt]
        cases hw : h.getWriteWatch first stop with
        | none => exact Walk.harvests_refused h first stop
        | some p =>
            obtain ⟨found, h'⟩ := p
            have hframe : h' = { h with dirty := h'.dirty } := by
              rw [(getWriteWatch_eq_some hw).2]
            simp only [Walk.andThen, if_true]
            by_cases hshort : found.length < batch
            · rw [if_pos hshort]
              refine ⟨hframe, fun n => ?_, fun _ => getWriteWatch_clear hw hshort⟩
              rw [List.append_nil]
              exact getWriteWatch_dirty hw n
            · rw [if_neg hshort]
              have hfewer := getWriteWatch_fewer hw hshort
              have hrest : Walk.Harvests h' (next first found) stop
                  (batches next turns h' (next first found) stop) := ih (by omega)
              refine ⟨?_, fun n => ?_, fun hwhole n ht hmem => ?_⟩
              · show (batches next turns h' (next first found) stop).host = _
                rw [hrest.frame, hframe]
              · show n ∈ (batches next turns h' (next first found) stop).host.dirty ↔ _
                rw [hrest.dirty, getWriteWatch_dirty hw, List.mem_append]
                tauto
              · have hleft : n ∈ h'.dirty := ((hrest.dirty n).mp hmem).1
                exact hrest.clear hwhole n (hnext h h' first stop found n hw hshort ht hleft) hmem
      · rw [if_neg hlt]
        exact Walk.harvests_nothing h (by omega)

theorem harvestSpan_harvests (h : Host) (first stop : Nat) :
    Walk.Harvests h first stop (h.harvestSpan first stop) := by
  refine batches_harvests (fun h h' first stop found n hw hfull ht hn => ?_) (Nat.lt_succ_self _)
  have hne : found ≠ [] := by
    rintro rfl
    exact hfull (show 0 < batch by decide)
  have hlast : found.getLast hne < n := lt_of_left hw ht hn (List.getLast_mem hne)
  rw [List.getLastD_eq_getLast?, List.getLast?_eq_some_getLast hne]
  have hnext : saturatingAdd (found.getLast hne * pageBytes) pageBytes ≤ n * pageBytes := by
    have hmul : (found.getLast hne + 1) * pageBytes ≤ n * pageBytes :=
      Nat.mul_le_mul_right _ hlast
    rw [Nat.add_mul, Nat.one_mul] at hmul
    exact le_trans (Nat.min_le_left _ _) hmul
  simp only [touches_iff] at ht ⊢
  have hpos := pageBytes_pos
  exact ⟨lt_of_le_of_lt hnext ht.2.1, ht.2.1, by simp only [Option.getD_some]; omega⟩

theorem harvestSegment_harvests (h : Host) (first stop : Nat) :
    Walk.Harvests h first stop (h.harvestSegment first stop) :=
  batches_harvests (fun _ _ _ _ _ _ _ _ ht _ => ht) (Nat.lt_succ_self _)

theorem harvestRegions_harvests {turns : Nat} {h : Host} {first : Nat}
    (hturns : stop - first ≤ turns) :
    Walk.Harvests h first stop (harvestRegions turns h first stop) := by
  induction turns generalizing h first with
  | zero => exact Walk.harvests_nothing h (by omega)
  | succ turns ih =>
      unfold harvestRegions
      by_cases hlt : first < stop
      · rw [if_pos hlt]
        cases h.regionEnd first with
        | none => exact Walk.harvests_refused h first stop
        | some runEnd =>
            by_cases hrun : runEnd ≤ first
            · simp only [hrun, if_true]
              exact Walk.harvests_refused h first stop
            · simp only [hrun, if_false]
              exact (harvestSegment_harvests h first _).andThen (by omega) (ih (by omega))
      · rw [if_neg hlt]
        exact Walk.harvests_nothing h (by omega)

theorem harvest_harvests (h : Host) (base len : Nat) :
    Walk.Harvests h base (base + len) (h.harvest base len) := by
  unfold harvest
  cases hadd : checkedAdd base len with
  | none => exact Walk.harvests_refused h base (base + len)
  | some stop =>
      rw [U64.checkedAdd_eq hadd]
      exact harvestRegions_harvests (by omega)

end Host

theorem lt_of_reservationOf {registry : Mappings.Registry} {x held heldLen : Nat}
    (h : reservationOf registry x = some (held, heldLen)) : x < saturatingAdd held heldLen := by
  unfold reservationOf at h
  split at h
  · cases h
  · split at h
    · next hlt =>
      cases h
      exact hlt
    · cases h

theorem harvestPieces_harvests {registry : Mappings.Registry} {turns stop : Nat} {h : Host}
    {first : Nat} (hturns : stop - first ≤ turns) :
    Walk.Harvests h first stop (harvestPieces registry turns h first stop) := by
  induction turns generalizing h first with
  | zero => exact Walk.harvests_nothing h (by omega)
  | succ turns ih =>
      unfold harvestPieces
      by_cases hlt : first < stop
      · rw [if_pos hlt]
        cases hof : reservationOf registry first with
        | none =>
            have hh := h.harvest_harvests first (stop - first)
            rwa [show first + (stop - first) = stop by omega] at hh
        | some p =>
            obtain ⟨held, heldLen⟩ := p
            have hin := lt_of_reservationOf hof
            exact (h.harvestSpan_harvests first _).andThen (by omega) (ih (by omega))
      · rw [if_neg hlt]
        exact Walk.harvests_nothing h (by omega)

theorem harvestByReservation_harvests (registry : Mappings.Registry) (h : Host)
    (base len : Nat) : Walk.Harvests h base (saturatingAdd base len)
      (harvestByReservation registry h base len) :=
  harvestPieces_harvests (le_refl _)

end Orbistoun.Mem.Watch
