import Orbistoun.Mem.Watch.Record

/-! # What the watch keeps

The invariant of the record, its guards and the host, and what every operation keeps of
the pages seen written: a page the host holds as written goes into the record at the
current epoch or later, and a page the record holds stays in it, at its epoch or a later
one. Each operation gives both; what a page's writer is promised follows from them alone.
-/

namespace Orbistoun.Mem.Watch

open Std (TreeMap TreeSet)
open Orbistoun.Lib
open Orbistoun.Lib.U64 (saturatingAdd bound)

def Guard.Has (g : Guard) (n : Nat) : Prop := g.first ≤ n * pageBytes ∧ n * pageBytes < g.stop

/-- Guards are whole pages below the last of the address space. -/
def Guard.Aligned (g : Guard) : Prop := pageBytes ∣ g.first ∧ pageBytes ∣ g.stop ∧ g.stop < bound

theorem Guard.Aligned.has_iff {g : Guard} (h : g.Aligned) {n : Nat} :
    touches g.first g.stop n = true ↔ g.Has n := by
  obtain ⟨⟨i, hi⟩, ⟨j, hj⟩, -⟩ := h
  rw [touches_iff, Has, hi, hj]
  simp only [pageBytes]
  omega

theorem pagesOf_aligned (base len : Nat) :
    Guard.Aligned ⟨(pagesOf base len).1, (pagesOf base len).2⟩ := by
  refine ⟨dvd_pageFloor _, dvd_pageFloor _, lt_of_le_of_lt (pageFloor_le _) ?_⟩
  exact lt_of_le_of_lt (min_le_right _ _) (by decide)

namespace State

variable {s s' s'' : State}

structure Inv (s : State) : Prop where
  aligned : ∀ g ∈ s.record.guards, g.Aligned
  apart : s.record.guards.Pairwise (fun g g' => g.meets g'.first g'.stop = false)
  quiet : ∀ g ∈ s.record.guards, ∀ n, g.Has n → s.host.readOnly n = true ∧ n ∉ s.host.dirty
  indexed : s.record.Indexed
  counted : s.guardCount = s.record.guards.length
  bounded : ∀ r ∈ s.host.held, r.1 + r.2 ≤ userEnd

/-- What an operation keeps of the pages seen written. -/
structure Kept (s s' : State) : Prop where
  epoch : s.record.epoch ≤ s'.record.epoch
  dirty : ∀ n, n ∈ s.host.dirty → n ∈ s'.host.dirty ∨
    ∃ e, s'.record.written[n * pageBytes]? = some e ∧ s.record.epoch ≤ e
  written : ∀ a e : Nat, s.record.written[a]? = some e →
    ∃ e' : Nat, s'.record.written[a]? = some e' ∧ (e' = e ∨ s.record.epoch ≤ e')

def Recorded (s : State) (n m : Nat) : Prop :=
  ∃ e, s.record.written[n * pageBytes]? = some e ∧ m < e

/-- Page `n` was written after `m`, and the host or the record has it so. -/
def Seen (s : State) (n m : Nat) : Prop := n ∈ s.host.dirty ∨ s.Recorded n m

theorem Kept.refl (s : State) : Kept s s :=
  ⟨le_refl _, fun _ h => .inl h, fun _ e h => ⟨e, h, .inl rfl⟩⟩

theorem Kept.trans (h : Kept s s') (h' : Kept s' s'') : Kept s s'' := by
  have hpage : ∀ a e : Nat, s'.record.written[a]? = some e → s.record.epoch ≤ e →
      ∃ e', s''.record.written[a]? = some e' ∧ s.record.epoch ≤ e' := by
    intro a e ha hle
    obtain ⟨e', he', rfl | hge⟩ := h'.written a e ha
    · exact ⟨e', he', hle⟩
    · exact ⟨e', he', le_trans h.epoch hge⟩
  refine ⟨le_trans h.epoch h'.epoch, fun n hn => ?_, fun a e ha => ?_⟩
  · rcases h.dirty n hn with hn' | ⟨e, he, hle⟩
    · rcases h'.dirty n hn' with hn'' | ⟨e, he, hle⟩
      · exact .inl hn''
      · exact .inr ⟨e, he, le_trans h.epoch hle⟩
    · exact .inr (hpage _ e he hle)
  · obtain ⟨e', he', rfl | hge⟩ := h.written a e ha
    · obtain ⟨e'', he'', rfl | hge'⟩ := h'.written a e' he'
      · exact ⟨e'', he'', .inl rfl⟩
      · exact ⟨e'', he'', .inr (le_trans h.epoch hge')⟩
    · obtain ⟨e'', he'', hge'⟩ := hpage a e' he' hge
      exact ⟨e'', he'', .inr hge'⟩

theorem Kept.recorded (h : Kept s s') {n m : Nat} (hm : m < s.record.epoch)
    (hr : s.Recorded n m) : s'.Recorded n m := by
  obtain ⟨e, he, hlt⟩ := hr
  obtain ⟨e', he', rfl | hge⟩ := h.written _ e he
  · exact ⟨e', he', hlt⟩
  · exact ⟨e', he', by omega⟩

theorem Kept.seen (h : Kept s s') {n m : Nat} (hm : m < s.record.epoch) (hseen : s.Seen n m) :
    s'.Seen n m := by
  rcases hseen with hn | hr
  · rcases h.dirty n hn with hn' | ⟨e, he, hge⟩
    · exact .inl hn'
    · exact .inr ⟨e, he, by omega⟩
  · exact .inr (h.recorded hm hr)

/-! ## Notes and harvests -/

theorem kept_of_noted {pages : List Nat} (hrecord : s'.record = s.record.noteAll pages)
    (hdirty : ∀ n, n ∈ s.host.dirty → n ∈ s'.host.dirty ∨ n * pageBytes ∈ pages) : Kept s s' := by
  refine ⟨by rw [hrecord, Record.noteAll_epoch], fun n hn => ?_, fun a e ha => ?_⟩
  · rcases hdirty n hn with h | h
    · exact .inl h
    · refine .inr ⟨s.record.epoch, ?_, le_refl _⟩
      rw [hrecord, Record.noteAll_written, if_pos h]
  · rw [hrecord, Record.noteAll_written]
    by_cases hmem : a ∈ pages
    · exact ⟨_, if_pos hmem, .inr (le_refl _)⟩
    · exact ⟨e, by rw [if_neg hmem, ha], .inl rfl⟩

variable {w : Walk} {first stop base len : Nat}

theorem take_kept (hw : w.Harvests s.host first stop) : Kept s (s.take w) := by
  refine kept_of_noted rfl (fun n hn => ?_)
  by_cases hmem : n ∈ w.found
  · exact .inr (List.mem_map_of_mem hmem)
  · exact .inl ((hw.dirty n).mpr ⟨hn, hmem⟩)

@[simp] theorem take_guards (s : State) (w : Walk) :
    (s.take w).record.guards = s.record.guards := by
  rw [take, Record.noteAll_guards]

@[simp] theorem take_epoch (s : State) (w : Walk) : (s.take w).record.epoch = s.record.epoch := by
  rw [take, Record.noteAll_epoch]

@[simp] theorem take_registry (s : State) (w : Walk) : (s.take w).registry = s.registry := rfl

theorem Inv.take (h : Inv s) (hw : w.Harvests s.host first stop) : Inv (s.take w) where
  aligned := by simpa using h.aligned
  apart := by simpa using h.apart
  quiet := by
    intro g hg n hn
    rw [take_guards] at hg
    obtain ⟨hro, hclean⟩ := h.quiet g hg n hn
    refine ⟨?_, fun hmem => hclean ((hw.dirty n).mp hmem).1⟩
    show w.host.readOnly n = true
    rw [hw.frame]
    exact hro
  indexed := h.indexed.noteAll _
  counted := by
    rw [take_guards]
    exact h.counted
  bounded := by
    intro r hr
    have hheld : w.host.held = s.host.held := by rw [hw.frame]
    exact h.bounded r (hheld ▸ hr)

theorem harvest_walk (s : State) (base len : Nat) :
    (harvestByReservation s.registry s.host base len).Harvests s.host base
      (saturatingAdd base len) :=
  harvestByReservation_harvests _ _ _ _

theorem harvest_kept (s : State) (base len : Nat) : Kept s (s.harvest base len).2 :=
  take_kept (s.harvest_walk base len)

theorem Inv.harvest (h : Inv s) (base len : Nat) : Inv (s.harvest base len).2 :=
  h.take (s.harvest_walk base len)

/-- A harvest that answers leaves no written page of its range with the host. -/
theorem harvest_clear {b : Bool} (h : (s.harvest base len).1 = some b) {n : Nat}
    (ht : touches base (saturatingAdd base len) n = true) :
    n ∉ (s.harvest base len).2.host.dirty := by
  refine (s.harvest_walk base len).clear ?_ n ht
  simp only [State.harvest] at h
  split at h
  · assumption
  · cases h

/-- A harvest that found nothing changed nothing a page of its range is seen by. -/
theorem harvest_unfound (h : (s.harvest base len).1 = some false) {n : Nat}
    (ht : touches base (saturatingAdd base len) n = true) : n ∉ s.host.dirty := by
  have hfound : (harvestByReservation s.registry s.host base len).found = [] := by
    simp only [State.harvest] at h
    split at h
    · simpa using h
    · cases h
  intro hn
  refine harvest_clear h ht (((s.harvest_walk base len).dirty n).mpr ⟨hn, ?_⟩)
  rw [hfound]
  exact List.not_mem_nil

theorem Seen.recorded {n m : Nat} (h : s.Seen n m) (hn : n ∉ s.host.dirty) : s.Recorded n m :=
  h.resolve_left hn

end State

end Orbistoun.Mem.Watch
