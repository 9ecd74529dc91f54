import Orbistoun.Mem.Watch.Harvest

/-! # The record of written pages

A page noted is at the epoch it was noted in, and every chunk's latest epoch is at least
that of each of its pages, so a question that reads chunks first misses no page.
-/

namespace Orbistoun.Mem.Watch

open Std (TreeMap TreeSet)
open Orbistoun.Lib
open Orbistoun.Lib.U64 (saturatingAdd bound)

theorem chunkBytes_pos : 0 < chunkBytes := by decide

theorem lt_chunkFloor_add (a : Nat) : a < chunkFloor a + chunkBytes := by
  unfold chunkFloor
  exact Nat.lt_div_mul_add chunkBytes_pos

namespace Record

variable {r : Record} {a e page : Nat}

/-- Every page noted is behind its chunk's latest epoch. -/
def Indexed (r : Record) : Prop :=
  ∀ a e, r.written[a]? = some e → ∃ latest, r.chunks[chunkFloor a]? = some latest ∧ e ≤ latest

@[simp] theorem note_epoch (r : Record) (page e : Nat) : (r.note page e).epoch = r.epoch := rfl

@[simp] theorem note_guards (r : Record) (page e : Nat) : (r.note page e).guards = r.guards := rfl

theorem note_written (r : Record) (page e a : Nat) :
    (r.note page e).written[a]? = if page = a then some e else r.written[a]? := by
  simp only [note, TreeMap.getElem?_insert, Nat.compare_eq_eq]

theorem note_chunks (r : Record) (page e c : Nat) : (r.note page e).chunks[c]? =
    if chunkFloor page = c then some (max (r.chunks.getD (chunkFloor page) 0) e)
    else r.chunks[c]? := by
  simp only [note, TreeMap.getElem?_insert, Nat.compare_eq_eq]

theorem Indexed.note (h : r.Indexed) (page e : Nat) : (r.note page e).Indexed := by
  intro a e' ha
  rw [note_written] at ha
  rw [note_chunks]
  by_cases hpage : page = a
  · subst hpage
    rw [if_pos rfl] at ha
    cases ha
    exact ⟨_, if_pos rfl, le_max_right _ _⟩
  · rw [if_neg hpage] at ha
    obtain ⟨latest, hlatest, hle⟩ := h a e' ha
    by_cases hchunk : chunkFloor page = chunkFloor a
    · rw [if_pos hchunk, hchunk, TreeMap.getD_eq_getD_getElem?, hlatest]
      exact ⟨_, rfl, le_trans hle (le_max_left _ _)⟩
    · rw [if_neg hchunk]
      exact ⟨latest, hlatest, hle⟩

@[simp] theorem noteAll_epoch (r : Record) (pages : List Nat) :
    (r.noteAll pages).epoch = r.epoch := by
  induction pages generalizing r with
  | nil => rfl
  | cons page pages ih => exact ih _

@[simp] theorem noteAll_guards (r : Record) (pages : List Nat) :
    (r.noteAll pages).guards = r.guards := by
  induction pages generalizing r with
  | nil => rfl
  | cons page pages ih => exact ih _

theorem noteAll_written (r : Record) (pages : List Nat) (a : Nat) :
    (r.noteAll pages).written[a]? = if a ∈ pages then some r.epoch else r.written[a]? := by
  induction pages generalizing r with
  | nil => simp [noteAll]
  | cons page pages ih =>
      show ((r.note page r.epoch).noteAll pages).written[a]? = _
      rw [ih, note_written, note_epoch]
      by_cases hmem : a ∈ pages
      · rw [if_pos hmem, if_pos (List.mem_cons_of_mem _ hmem)]
      · rw [if_neg hmem]
        by_cases hpage : page = a
        · rw [if_pos hpage, if_pos (by rw [hpage]; exact List.mem_cons_self)]
        · rw [if_neg hpage, if_neg]
          intro h
          rcases List.mem_cons.mp h with rfl | h
          · exact hpage rfl
          · exact hmem h

theorem Indexed.noteAll (h : r.Indexed) (pages : List Nat) : (r.noteAll pages).Indexed := by
  induction pages generalizing r with
  | nil => exact h
  | cons page pages ih => exact ih (h.note page r.epoch)

/-- A page recorded after `since` is answered for by every range its start lies in. -/
theorem writtenAfter_of_written (h : r.Indexed) {first stop since : Nat}
    (ha : r.written[a]? = some e) (hsince : since < e) (hfirst : first ≤ a) (hstop : a < stop)
    (hfits : a + 1 < bound) : r.writtenAfter first stop since = true := by
  obtain ⟨latest, hlatest, hle⟩ := h a e ha
  have hchunk : chunkFloor first ≤ chunkFloor a :=
    Nat.mul_le_mul_right _ (Nat.div_le_div_right hfirst)
  have hbelow : chunkFloor a ≤ a := Nat.div_mul_le_self _ _
  have habove : a < chunkFloor a + chunkBytes := lt_chunkFloor_add a
  have hend : a < saturatingAdd (chunkFloor a) chunkBytes :=
    U64.lt_saturatingAdd habove hfits
  unfold writtenAfter
  rw [List.any_eq_true]
  refine ⟨(chunkFloor a, latest), List.mem_filter.mpr ⟨?_, ?_⟩, ?_⟩
  · exact TreeMap.mem_toList_iff_getElem?_eq_some.mpr hlatest
  · simp only [Bool.and_eq_true, decide_eq_true_eq]
    omega
  · dsimp only
    rw [Bool.or_eq_true]
    refine .inr (List.any_eq_true.mpr ⟨(a, e), TreeMap.mem_toList_iff_getElem?_eq_some.mpr ha, ?_⟩)
    simp only [Bool.and_eq_true, decide_eq_true_eq]
    exact ⟨⟨max_le hbelow hfirst, lt_min hend hstop⟩, hsince⟩

end Record

/-! ## Pages of a range -/

theorem pageFloor_le (x : Nat) : pageFloor x ≤ x := Nat.div_mul_le_self _ _

theorem dvd_pageFloor (x : Nat) : pageBytes ∣ pageFloor x := Dvd.intro_left _ rfl

/-- The page of an address of user space lies in the pages of every range that has the
address. -/
theorem page_mem_pagesOf {base len x : Nat} (hbase : base ≤ x) (hlen : x < base + len)
    (hx : x < userEnd) : (pagesOf base len).1 ≤ x / pageBytes * pageBytes ∧
      x / pageBytes * pageBytes < (pagesOf base len).2 := by
  simp only [pagesOf, pageFloor, saturatingAdd, bound, pageBytes, userEnd] at *
  omega

theorem touches_of_mem_pagesOf {base len n : Nat} (hlen : 0 < len)
    (hfirst : (pagesOf base len).1 ≤ n * pageBytes) (hstop : n * pageBytes < (pagesOf base len).2) :
    touches base (saturatingAdd base len) n = true := by
  rw [touches_iff]
  simp only [pagesOf, pageFloor, saturatingAdd, bound, pageBytes] at *
  omega

theorem touches_of_mem {base len x : Nat} (hbase : base ≤ x) (hlen : x < base + len)
    (hx : x < userEnd) : touches base (saturatingAdd base len) (x / pageBytes) = true :=
  touches_of_mem_pagesOf (by omega) (page_mem_pagesOf hbase hlen hx).1 (page_mem_pagesOf hbase hlen hx).2

theorem mem_steps {first stop n : Nat} (hfirst : pageBytes ∣ first) (hle : first ≤ n * pageBytes)
    (hlt : n * pageBytes < stop) : n * pageBytes ∈ Record.steps first stop := by
  obtain ⟨k, rfl⟩ := hfirst
  rw [Record.steps, List.mem_range']
  refine ⟨n - k, ?_, ?_⟩
  · simp only [pageBytes] at *
    omega
  · simp only [pageBytes] at *
    omega

end Orbistoun.Mem.Watch
