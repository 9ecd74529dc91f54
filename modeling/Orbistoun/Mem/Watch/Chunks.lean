import Orbistoun.Mem.Watch.Guards

/-! # The chunks against the pages

A question of a range reads each chunk's latest epoch before any page's. Where no page is noted at an
older epoch than the one it has, the answer is the one every page's own epoch gives.
-/

namespace Orbistoun.Mem.Watch

open Std (TreeMap)
open Orbistoun.Lib
open Orbistoun.Lib.U64 (saturatingAdd bound)

namespace Record

variable {r : Record}

/-- Whether any page whose start lies in `[first, stop)` has an epoch after `since`, every page
read. -/
def scan (r : Record) (first stop since : Nat) : Bool :=
  r.written.toList.any (fun (page, harvested) => first ≤ page && page < stop && since < harvested)

/-- Pages are whole, each chunk's latest epoch is at least that of each of its pages, and is that of
one of them. -/
structure Exact (r : Record) : Prop where
  pages : ∀ a e : Nat, r.written[a]? = some e → pageBytes ∣ a ∧ a < bound
  indexed : r.Indexed
  attained : ∀ c latest, r.chunks[c]? = some latest →
    ∃ a, r.written[a]? = some latest ∧ chunkFloor a = c

theorem scan_iff {first stop since : Nat} : r.scan first stop since = true ↔
    ∃ a e, r.written[a]? = some e ∧ first ≤ a ∧ a < stop ∧ since < e := by
  rw [scan, List.any_eq_true]
  constructor
  · intro ⟨⟨a, e⟩, hmem, hae⟩
    simp only [Bool.and_eq_true, decide_eq_true_eq] at hae
    exact ⟨a, e, TreeMap.mem_toList_iff_getElem?_eq_some.mp hmem, hae.1.1, hae.1.2, hae.2⟩
  · intro ⟨a, e, ha, hfirst, hstop, hsince⟩
    refine ⟨(a, e), TreeMap.mem_toList_iff_getElem?_eq_some.mpr ha, ?_⟩
    simp only [Bool.and_eq_true, decide_eq_true_eq]
    exact ⟨⟨hfirst, hstop⟩, hsince⟩

theorem page_succ_lt_bound {a : Nat} (hpage : pageBytes ∣ a) (ha : a < bound) : a + 1 < bound := by
  obtain ⟨k, rfl⟩ := hpage
  simp only [pageBytes, bound] at *
  omega

/-- A chunk wholly in the range answers for the page its latest epoch is of. -/
theorem scan_of_writtenAfter (h : r.Exact) {first stop since : Nat}
    (hafter : r.writtenAfter first stop since = true) : r.scan first stop since = true := by
  rw [writtenAfter, List.any_eq_true] at hafter
  obtain ⟨⟨c, latest⟩, hmem, hchunk⟩ := hafter
  rw [List.mem_filter] at hmem
  have hc := TreeMap.mem_toList_iff_getElem?_eq_some.mp hmem.1
  have hsince : since < latest := by
    have := hmem.2
    simp only [Bool.and_eq_true, decide_eq_true_eq] at this
    exact this.2
  rw [scan_iff]
  simp only [Bool.or_eq_true, Bool.and_eq_true, beq_iff_eq] at hchunk
  rcases hchunk with ⟨hfrom, hto⟩ | hpages
  · obtain ⟨a, ha, hfloor⟩ := h.attained c latest hc
    obtain ⟨hpage, hbound⟩ := h.pages a latest ha
    have hbelow : chunkFloor a ≤ a := Nat.div_mul_le_self _ _
    have habove : a < saturatingAdd c chunkBytes := by
      rw [← hfloor]
      exact U64.lt_saturatingAdd (lt_chunkFloor_add a) (page_succ_lt_bound hpage hbound)
    exact ⟨a, latest, ha, by omega, by omega, hsince⟩
  · rw [List.any_eq_true] at hpages
    obtain ⟨⟨a, e⟩, hmem, hae⟩ := hpages
    simp only [Bool.and_eq_true, decide_eq_true_eq] at hae
    exact ⟨a, e, TreeMap.mem_toList_iff_getElem?_eq_some.mp hmem, by omega, by omega, hae.2⟩

theorem writtenAfter_eq_scan (h : r.Exact) (first stop since : Nat) :
    r.writtenAfter first stop since = r.scan first stop since := by
  rw [Bool.eq_iff_iff]
  constructor
  · exact scan_of_writtenAfter h
  · intro hscan
    obtain ⟨a, e, ha, hfirst, hstop, hsince⟩ := scan_iff.mp hscan
    obtain ⟨hpage, hbound⟩ := h.pages a e ha
    exact writtenAfter_of_written h.indexed ha hsince hfirst hstop (page_succ_lt_bound hpage hbound)

/-! ## Notes -/

/-- A note of a whole page no older than what the page has. -/
structure Newer (r : Record) (page epoch : Nat) : Prop where
  whole : pageBytes ∣ page
  bounded : page < bound
  newer : ∀ e, r.written[page]? = some e → e ≤ epoch

theorem Exact.note (h : r.Exact) {page epoch : Nat} (hnew : r.Newer page epoch) :
    (r.note page epoch).Exact := by
  constructor
  · intro a e ha
    rw [note_written] at ha
    split at ha
    · rename_i heq
      rw [← heq]
      exact ⟨hnew.whole, hnew.bounded⟩
    · exact h.pages a e ha
  · exact h.indexed.note page epoch
  · intro c latest hc
    rw [note_chunks] at hc
    by_cases hchunk : chunkFloor page = c
    · rw [if_pos hchunk, Option.some_inj] at hc
      rw [TreeMap.getD_eq_getD_getElem?] at hc
      -- the chunk's epoch is the one noted, or the one it had, which a page other than this has
      by_cases hle : (r.chunks[chunkFloor page]?).getD 0 ≤ epoch
      · rw [max_eq_right hle] at hc
        exact ⟨page, by rw [note_written, if_pos rfl, hc], hchunk⟩
      · rw [max_eq_left (by omega)] at hc
        cases hhad : r.chunks[chunkFloor page]? with
        | none =>
            rw [hhad] at hle
            exact absurd (Nat.zero_le epoch) hle
        | some had =>
            rw [hhad] at hc hle
            obtain ⟨a, ha, hfloor⟩ := h.attained _ _ hhad
            have hne : page ≠ a := by
              intro heq
              subst heq
              exact hle (hnew.newer had ha)
            refine ⟨a, ?_, hfloor.trans hchunk⟩
            rw [note_written, if_neg hne, ha, ← hc]
            rfl
    · rw [if_neg hchunk] at hc
      obtain ⟨a, ha, hfloor⟩ := h.attained c latest hc
      have hne : page ≠ a := by
        intro heq
        subst heq
        exact hchunk hfloor
      exact ⟨a, by rw [note_written, if_neg hne, ha], hfloor⟩

theorem Exact.noteAll (h : r.Exact) {pages : List Nat} (hnew : ∀ page ∈ pages, r.Newer page r.epoch) :
    (r.noteAll pages).Exact := by
  induction pages generalizing r with
  | nil => exact h
  | cons page pages ih =>
      apply ih (h.note (hnew page List.mem_cons_self))
      intro other hother
      have hthere := hnew other (List.mem_cons_of_mem _ hother)
      constructor
      · exact hthere.whole
      · exact hthere.bounded
      · intro e he
        rw [note_written] at he
        rw [note_epoch]
        split at he
        · cases he
          exact le_refl _
        · exact hthere.newer e he

end Record

/-! ## Histories -/

/-- What a history of the record is of: a page noted at any epoch, a guard put over a range, a guard
released, and the epoch moved on. -/
inductive Happening where
  | note (page epoch : Nat)
  | guard (base len : Nat)
  | release (i : Nat)
  | next

namespace State

def happen (s : State) : Happening → State
  | .note page epoch => { s with record := s.record.note page epoch }
  | .guard base len => s.recordGuard base len
  | .release i => s.release i
  | .next => s.nextEpoch

def history (s : State) (events : List Happening) : State := events.foldl happen s

def noted (s : State) : Happening → List (Nat × Nat)
  | .note page epoch => [(page, epoch)]
  | .release i =>
      match s.record.guards[i]? with
      | none => []
      | some g => (Record.steps g.first g.stop).map (fun page => (page, s.record.epoch))
  | _ => []

/-- Every page noted is whole, and none at an older epoch than the one it has. -/
def Forward (s : State) : List Happening → Prop
  | [] => True
  | event :: events =>
      (∀ p ∈ s.noted event, s.record.Newer p.1 p.2) ∧ (s.happen event).Forward events

variable {s : State}

theorem Exact.happen (h : s.record.Exact) {event : Happening}
    (hnew : ∀ p ∈ s.noted event, s.record.Newer p.1 p.2) : (s.happen event).record.Exact := by
  cases event with
  | note page epoch => exact h.note (hnew (page, epoch) List.mem_cons_self)
  | guard base len => exact ⟨h.pages, h.indexed, h.attained⟩
  | next => exact ⟨h.pages, h.indexed, h.attained⟩
  | release i =>
      cases hg : s.record.guards[i]? with
      | none =>
          show (s.release i).record.Exact
          simp only [State.release, hg]
          exact h
      | some g =>
          show (s.release i).record.Exact
          rw [release_eq hg]
          have hbase : Record.Exact { s.record with guards := swapRemove s.record.guards i } :=
            ⟨h.pages, h.indexed, h.attained⟩
          apply hbase.noteAll
          intro page hpage
          have hthere := hnew (page, s.record.epoch) (by
            simp only [noted, hg]
            exact List.mem_map_of_mem hpage)
          exact ⟨hthere.whole, hthere.bounded, hthere.newer⟩

theorem Exact.history (h : s.record.Exact) {events : List Happening} (hforward : s.Forward events) :
    (s.history events).record.Exact := by
  induction events generalizing s with
  | nil => exact h
  | cons event events ih => exact ih (Exact.happen h hforward.1) hforward.2

theorem exact_start : start.record.Exact := by
  constructor
  · intro a e ha
    simp [start] at ha
  · intro a e ha
    simp [start] at ha
  · intro c latest hc
    simp [start] at hc

end State

namespace State

variable {s : State}

def Current (s : State) : List Happening → Prop
  | [] => True
  | event :: events =>
      (∀ page epoch, event = .note page epoch →
        epoch = s.record.epoch ∧ pageBytes ∣ page ∧ page < bound) ∧ (s.happen event).Current events

/-- What a history of such notes keeps. -/
structure Behind (s : State) : Prop where
  stamped : ∀ a e : Nat, s.record.written[a]? = some e → e ≤ s.record.epoch
  aligned : ∀ g ∈ s.record.guards, g.Aligned

theorem step_whole {g : Guard} (hg : g.Aligned) {page : Nat}
    (hpage : page ∈ Record.steps g.first g.stop) : pageBytes ∣ page ∧ page < bound := by
  obtain ⟨⟨i, hi⟩, ⟨j, hj⟩, hbound⟩ := hg
  rw [Record.steps, List.mem_range'] at hpage
  obtain ⟨k, hk, hpage⟩ := hpage
  constructor
  · exact ⟨i + k, by rw [hpage, hi, Nat.mul_add]⟩
  · rw [hi, hj] at hk
    rw [hj] at hbound
    rw [hpage, hi]
    simp only [pageBytes, bound] at *
    omega

theorem Behind.newer (h : s.Behind) {event : Happening}
    (hevent : ∀ page epoch, event = .note page epoch →
      epoch = s.record.epoch ∧ pageBytes ∣ page ∧ page < bound) :
    ∀ p ∈ s.noted event, s.record.Newer p.1 p.2 := by
  intro p hp
  cases event with
  | note page epoch =>
      obtain ⟨hepoch, hpage, hbound⟩ := hevent page epoch rfl
      rw [noted, List.mem_singleton] at hp
      subst hp
      exact ⟨hpage, hbound, fun e he => hepoch ▸ h.stamped page e he⟩
  | guard base len => cases hp
  | next => cases hp
  | release i =>
      cases hg : s.record.guards[i]? with
      | none =>
          simp only [noted, hg] at hp
          cases hp
      | some g =>
          simp only [noted, hg, List.mem_map] at hp
          obtain ⟨page, hpage, rfl⟩ := hp
          obtain ⟨hwhole, hbound⟩ := step_whole (h.aligned g (List.mem_of_getElem? hg)) hpage
          exact ⟨hwhole, hbound, h.stamped page⟩

theorem Behind.happen (h : s.Behind) {event : Happening}
    (hevent : ∀ page epoch, event = .note page epoch →
      epoch = s.record.epoch ∧ pageBytes ∣ page ∧ page < bound) : (s.happen event).Behind := by
  cases event with
  | note page epoch =>
      obtain ⟨hepoch, -, -⟩ := hevent page epoch rfl
      constructor
      · intro a e ha
        show e ≤ s.record.epoch
        have ha' : (s.record.note page epoch).written[a]? = some e := ha
        rw [Record.note_written] at ha'
        split at ha'
        · cases ha'
          exact le_of_eq hepoch
        · exact h.stamped a e ha'
      · exact h.aligned
  | guard base len =>
      constructor
      · exact h.stamped
      · intro g hg
        rcases List.mem_append.mp hg with hg | hg
        · exact h.aligned g hg
        · rw [List.mem_singleton.mp hg]
          exact pagesOf_aligned base len
  | next =>
      constructor
      · intro a e ha
        exact Nat.le_succ_of_le (h.stamped a e ha)
      · exact h.aligned
  | release i =>
      show (s.release i).Behind
      cases hg : s.record.guards[i]? with
      | none =>
          simp only [State.release, hg]
          exact h
      | some g =>
          constructor
          · intro a e ha
            rw [release_eq hg] at ha ⊢
            rw [Record.noteAll_epoch]
            rw [Record.noteAll_written] at ha
            split at ha
            · cases ha
              exact le_refl _
            · exact h.stamped a e ha
          · intro g' hg'
            exact h.aligned g' ((release_guards_perm hg).mem_iff.mp (List.mem_cons_of_mem _ hg'))

theorem Behind.forward (h : s.Behind) {events : List Happening} (hcurrent : s.Current events) :
    s.Forward events := by
  induction events generalizing s with
  | nil => trivial
  | cons event events ih =>
      constructor
      · exact h.newer hcurrent.1
      · exact ih (h.happen hcurrent.1) hcurrent.2

theorem behind_start : start.Behind := by
  constructor
  · intro a e ha
    simp [start] at ha
  · exact List.forall_mem_nil _

end State

/-- After any history in which no page is noted at an older epoch than the one it has, as in every
history whose notes are at the record's own epoch, a question that skips whole chunks by their latest
epoch answers as reading every page's own does. -/
theorem writtenAfter_after_history (events : List Happening) :
    (State.start.Current events → State.start.Forward events) ∧
    (State.start.Forward events → ∀ first stop since,
      (State.start.history events).record.writtenAfter first stop since =
        (State.start.history events).record.scan first stop since) := by
  constructor
  · exact State.behind_start.forward
  · intro hforward first stop since
    exact Record.writtenAfter_eq_scan (State.Exact.history State.exact_start hforward) first stop since

/-- Two pages of a chunk noted, the second at a later epoch. -/
theorem writtenAfter_after_two_notes :
    (State.start.history [.note 0 1, .next, .note 4096 2]).record.writtenAfter 0 chunkBytes 1 =
      (State.start.history [.note 0 1, .next, .note 4096 2]).record.scan 0 chunkBytes 1 :=
  have h := writtenAfter_after_history [.note 0 1, .next, .note 4096 2]
  h.2 (h.1 ⟨fun _ _ h => by cases h; decide, fun _ _ h => (by cases h),
    fun _ _ h => by cases h; decide, trivial⟩) 0 chunkBytes 1

/-- A page noted at an older epoch than it had leaves its chunk at the later one. -/
theorem note_back_stays :
    ¬ ∀ (events : List Happening) (first stop since : Nat),
      (State.start.history events).record.writtenAfter first stop since =
        (State.start.history events).record.scan first stop since := by
  intro h
  have hback := h [.note 0 5, .note 0 3] 0 chunkBytes 4
  revert hback
  decide +kernel

end Orbistoun.Mem.Watch
