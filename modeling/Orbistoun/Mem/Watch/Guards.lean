import Orbistoun.Mem.Watch.Invariant

/-! # Guards and the operations that ask

Releasing guards, marks, the harvest of many ranges, and the two questions: each keeps
the invariant and what was seen written, and an answer that nothing was written is given
only where no page of the range is with the host.
-/

namespace Orbistoun.Mem.Watch

open Std (TreeMap TreeSet)
open Orbistoun.Lib
open Orbistoun.Lib.U64 (saturatingAdd bound)

theorem Guard.meets_comm (g g' : Guard) :
    g.meets g'.first g'.stop = g'.meets g.first g.stop := by
  simp only [Guard.meets]
  rw [Bool.and_comm]

/-- Guards apart share no page. -/
theorem Guard.Has.meets {g g' : Guard} {n : Nat} (h : g.Has n) (h' : g'.Has n) :
    g.meets g'.first g'.stop = true := by
  simp only [Guard.meets, Bool.and_eq_true, decide_eq_true_eq]
  exact ⟨lt_of_le_of_lt h.1 h'.2, lt_of_le_of_lt h'.1 h.2⟩

namespace State

variable {s s' : State}

/-! ## Releases -/

section Release

variable {i : Nat} {g : Guard}

theorem release_eq (hg : s.record.guards[i]? = some g) :
    s.release i = { s with
      guardCount := s.guardCount - 1
      host := s.host.unguard g.first g.stop
      record := { s.record with guards := swapRemove s.record.guards i }.noteAll
        (Record.steps g.first g.stop) } := by
  simp only [release, hg]

theorem release_kept (hg : s.record.guards[i]? = some g) : Kept s (s.release i) := by
  rw [release_eq hg]
  have hguards : Kept s { s with
      record := { s.record with guards := swapRemove s.record.guards i } } :=
    ⟨le_refl _, fun _ h => .inl h, fun _ e h => ⟨e, h, .inl rfl⟩⟩
  exact hguards.trans (kept_of_noted rfl (fun _ h => .inl h))

theorem release_guards_perm (hg : s.record.guards[i]? = some g) :
    (g :: (s.release i).record.guards).Perm s.record.guards := by
  rw [release_eq hg]
  simp only [Record.noteAll_guards]
  exact swapRemove_perm hg

theorem Inv.release (h : Inv s) (hg : s.record.guards[i]? = some g) : Inv (s.release i) := by
  have hperm := release_guards_perm hg
  have hsub : ∀ g' ∈ (s.release i).record.guards, g' ∈ s.record.guards := fun g' hg' =>
    hperm.mem_iff.mp (List.mem_cons_of_mem _ hg')
  have hapart : (g :: (s.release i).record.guards).Pairwise
      (fun g g' => g.meets g'.first g'.stop = false) :=
    (hperm.pairwise_iff (fun {x y} hxy => by rw [Guard.meets_comm]; exact hxy)).mpr h.apart
  have hgmem : g ∈ s.record.guards := hperm.mem_iff.mp List.mem_cons_self
  have hro : (s.release i).host.readOnly = fun n =>
      if touches g.first g.stop n then false else s.host.readOnly n := by
    rw [release_eq hg]
    rfl
  have hdirty : (s.release i).host.dirty = s.host.dirty := by
    rw [release_eq hg]
    rfl
  refine ⟨fun g' hg' => h.aligned g' (hsub g' hg'), (List.pairwise_cons.mp hapart).2,
    fun g' hg' n hn => ?_, ?_, ?_, ?_⟩
  · -- the pages made writable are none of another guard's
    obtain ⟨hread, hclean⟩ := h.quiet g' (hsub g' hg') n hn
    have hother : ¬ touches g.first g.stop n = true := by
      intro ht
      have hmeet := ((h.aligned g hgmem).has_iff.mp ht).meets hn
      rw [(List.pairwise_cons.mp hapart).1 g' hg'] at hmeet
      exact Bool.false_ne_true hmeet
    rw [hro, hdirty]
    simp only [if_neg hother]
    exact ⟨hread, hclean⟩
  · rw [release_eq hg]
    have hindexed : Record.Indexed { s.record with guards := swapRemove s.record.guards i } :=
      h.indexed
    exact hindexed.noteAll _
  · have hlen := hperm.length_eq
    rw [List.length_cons] at hlen
    have hcount : (s.release i).guardCount = s.guardCount - 1 := by rw [release_eq hg]
    have hcounted := h.counted
    omega
  · rw [release_eq hg]
    exact h.bounded

theorem releaseMeeting_spec {first stop turns : Nat} (h : Inv s)
    (hturns : s.record.guards.length ≤ turns) :
    Inv (releaseMeeting first stop turns s) ∧ Kept s (releaseMeeting first stop turns s) ∧
      ∀ g ∈ (releaseMeeting first stop turns s).record.guards, g.meets first stop = false := by
  induction turns generalizing s with
  | zero =>
      have hnil : s.record.guards = [] := List.length_eq_zero_iff.mp (Nat.le_zero.mp hturns)
      refine ⟨h, Kept.refl s, fun g hg => ?_⟩
      rw [releaseMeeting, hnil] at hg
      cases hg
  | succ turns ih =>
      unfold releaseMeeting
      cases hfind : s.record.guards.findIdx? (fun g => g.meets first stop) with
      | none => exact ⟨h, Kept.refl s, List.findIdx?_eq_none_iff.mp hfind⟩
      | some i =>
          obtain ⟨hi, -⟩ := List.findIdx?_eq_some_iff_getElem.mp hfind
          have hg : s.record.guards[i]? = some (s.record.guards[i]) :=
            List.getElem?_eq_getElem hi
          have hlen := (release_guards_perm hg).length_eq
          rw [List.length_cons] at hlen
          obtain ⟨hinv, hkept, hmeet⟩ := ih (h.release hg) (by omega)
          exact ⟨hinv, (release_kept hg).trans hkept, hmeet⟩

variable (base len : Nat)

theorem releaseGuards_spec (h : Inv s) :
    Inv (s.releaseGuards base len) ∧ Kept s (s.releaseGuards base len) ∧
      ∀ g ∈ (s.releaseGuards base len).record.guards,
        g.meets (pagesOf base len).1 (pagesOf base len).2 = false := by
  unfold releaseGuards
  by_cases hcount : s.guardCount = 0
  · rw [if_pos (by simp [hcount])]
    have hnil : s.record.guards = [] := List.length_eq_zero_iff.mp (h.counted ▸ hcount)
    refine ⟨h, Kept.refl s, fun g hg => ?_⟩
    rw [hnil] at hg
    cases hg
  · rw [if_neg (by simp [hcount])]
    exact releaseMeeting_spec h (le_refl _)

end Release

theorem not_has_of_released {base len n : Nat} {g : Guard} (hg : g.Aligned)
    (hmeet : g.meets (pagesOf base len).1 (pagesOf base len).2 = false)
    (ht : touches base (base + len) n = true) : ¬ g.Has n := by
  intro hn
  obtain ⟨⟨i, hi⟩, ⟨j, hj⟩, hbound⟩ := hg
  rw [touches_iff] at ht
  simp only [Guard.meets, Bool.and_eq_false_iff, decide_eq_false_iff_not] at hmeet
  simp only [Guard.Has, hi, hj, pagesOf, pageFloor, saturatingAdd, bound, pageBytes] at *
  omega

theorem writeFaulted_spec (h : Inv s) (address : Nat) :
    Inv (s.writeFaulted address).2 ∧ Kept s (s.writeFaulted address).2 := by
  unfold writeFaulted
  split
  · exact ⟨h, Kept.refl s⟩
  · cases hfind : s.record.guards.findIdx? (fun g => g.first ≤ address && address < g.stop) with
    | none => exact ⟨h, Kept.refl s⟩
    | some i =>
        obtain ⟨hi, -⟩ := List.findIdx?_eq_some_iff_getElem.mp hfind
        have hg := List.getElem?_eq_getElem hi
        exact ⟨h.release hg, release_kept hg⟩

theorem Inv.noteAll (h : Inv s) (pages : List Nat) :
    Inv { s with record := s.record.noteAll pages } where
  aligned := by simpa using h.aligned
  apart := by simpa using h.apart
  quiet := by simpa using h.quiet
  indexed := h.indexed.noteAll pages
  counted := by simpa using h.counted
  bounded := h.bounded

theorem noteWritten_spec (h : Inv s) (base len : Nat) :
    Inv (s.noteWritten base len) ∧ Kept s (s.noteWritten base len) := by
  obtain ⟨hinv, hkept, -⟩ := releaseGuards_spec base len h
  exact ⟨hinv.noteAll _, hkept.trans (kept_of_noted rfl (fun _ h => .inl h))⟩

theorem noteWritten_recorded (h : Inv s) {base len x m : Nat} (hbase : base ≤ x)
    (hlen : x < base + len) (hx : x < userEnd) (hm : m < s.record.epoch) :
    (s.noteWritten base len).Recorded (x / pageBytes) m := by
  obtain ⟨-, hkept, -⟩ := releaseGuards_spec base len h
  obtain ⟨hfirst, hstop⟩ := page_mem_pagesOf hbase hlen hx
  refine ⟨(s.releaseGuards base len).record.epoch, ?_, lt_of_lt_of_le hm hkept.epoch⟩
  have hmem : x / pageBytes * pageBytes ∈
      Record.steps (pagesOf base len).1 (pagesOf base len).2 :=
    mem_steps (dvd_pageFloor base) hfirst hstop
  show ((s.releaseGuards base len).record.noteAll _).written[_]? = _
  rw [Record.noteAll_written, if_pos hmem]

end State

end Orbistoun.Mem.Watch
