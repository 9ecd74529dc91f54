import Mathlib.Tactic

/-! # Runs of marked elements

A list with some elements marked and some that cut: the marked ones fall into runs, from a
marked element to the last one before the next cut.
-/

namespace Orbistoun.Lib.Runs

variable {α : Type} {mark cuts : α → Bool}

/-- From a marked element to a marked element with nothing that cuts between. -/
structure IsRun (mark cuts : α → Bool) (run : List α) : Prop where
  first : ∃ a, run.head? = some a ∧ mark a = true
  last : ∃ a, run.getLast? = some a ∧ mark a = true
  uncut : ∀ a ∈ run, cuts a = false

/-- A list taken apart into runs, each with the gap before it, and what follows the last. -/
structure Division (mark cuts : α → Bool) (list : List α) (parts : List (List α × List α))
    (tail : List α) : Prop where
  whole : list = parts.flatMap (fun part => part.1 ++ part.2) ++ tail
  gaps : ∀ part ∈ parts, ∀ a ∈ part.1, mark a = false
  tailGap : ∀ a ∈ tail, mark a = false
  runs : ∀ part ∈ parts, IsRun mark cuts part.2
  apart : ∀ part ∈ parts.tail, ∃ a ∈ part.1, cuts a = true

/-- Something that cuts stands between two marked elements. -/
def Parted (mark cuts : α → Bool) (list : List α) : Prop :=
  ∃ before a after, list = before ++ a :: after ∧ cuts a = true ∧
    (∃ b ∈ before, mark b = true) ∧ ∃ b ∈ after, mark b = true

theorem division_nil : Division mark cuts [] [] [] :=
  ⟨rfl, by simp, by simp, by simp, by simp⟩

variable {list tail : List α} {parts : List (List α × List α)} {a : α}

theorem Division.skip (h : Division mark cuts list parts tail) (ha : mark a = false) :
    Division mark cuts (list ++ [a]) parts (tail ++ [a]) := by
  refine ⟨by rw [h.whole, List.append_assoc], h.gaps, fun b hb => ?_, h.runs, h.apart⟩
  rcases List.mem_append.mp hb with hb | hb
  · exact h.tailGap b hb
  · rw [List.mem_singleton.mp hb]
    exact ha

theorem isRun_singleton (ha : mark a = true) (hc : cuts a = false) : IsRun mark cuts [a] := by
  refine ⟨⟨a, rfl, ha⟩, ⟨a, rfl, ha⟩, fun b hb => ?_⟩
  rw [List.mem_singleton.mp hb]
  exact hc

theorem Division.start (h : Division mark cuts list parts tail) (ha : mark a = true)
    (hc : cuts a = false) (hcut : parts ≠ [] → ∃ b ∈ tail, cuts b = true) :
    Division mark cuts (list ++ [a]) (parts ++ [(tail, [a])]) [] := by
  refine ⟨by rw [h.whole]; simp, ?_, by simp, ?_, ?_⟩
  · intro part hpart
    rcases List.mem_append.mp hpart with hpart | hpart
    · exact h.gaps part hpart
    · rw [List.mem_singleton.mp hpart]
      exact h.tailGap
  · intro part hpart
    rcases List.mem_append.mp hpart with hpart | hpart
    · exact h.runs part hpart
    · rw [List.mem_singleton.mp hpart]
      exact isRun_singleton ha hc
  · intro part hpart
    cases hparts : parts with
    | nil =>
        rw [hparts] at hpart
        cases hpart
    | cons first rest =>
        rw [hparts, List.cons_append, List.tail_cons] at hpart
        rcases List.mem_append.mp hpart with hpart | hpart
        · exact h.apart part (by rw [hparts]; exact hpart)
        · rw [List.mem_singleton.mp hpart]
          exact hcut (by simp [hparts])

theorem IsRun.extend {run : List α} (h : IsRun mark cuts run) (htail : ∀ b ∈ tail, cuts b = false)
    (ha : mark a = true) (hc : cuts a = false) : IsRun mark cuts (run ++ tail ++ [a]) := by
  obtain ⟨⟨first, hfirst, hmark⟩, -, huncut⟩ := h
  refine ⟨⟨first, by simp [hfirst], hmark⟩, ⟨a, by simp, ha⟩, fun b hb => ?_⟩
  rcases List.mem_append.mp hb with hb | hb
  · rcases List.mem_append.mp hb with hb | hb
    · exact huncut b hb
    · exact htail b hb
  · rw [List.mem_singleton.mp hb]
    exact hc

theorem Division.extend {gap run : List α}
    (h : Division mark cuts list (parts ++ [(gap, run)]) tail)
    (htail : ∀ b ∈ tail, cuts b = false) (ha : mark a = true) (hc : cuts a = false) :
    Division mark cuts (list ++ [a]) (parts ++ [(gap, run ++ tail ++ [a])]) [] := by
  refine ⟨by rw [h.whole]; simp, ?_, by simp, ?_, ?_⟩
  · intro part hpart
    rcases List.mem_append.mp hpart with hpart | hpart
    · exact h.gaps part (List.mem_append_left _ hpart)
    · rw [List.mem_singleton.mp hpart]
      exact h.gaps (gap, run) (by simp)
  · intro part hpart
    rcases List.mem_append.mp hpart with hpart | hpart
    · exact h.runs part (List.mem_append_left _ hpart)
    · rw [List.mem_singleton.mp hpart]
      exact (h.runs (gap, run) (by simp)).extend htail ha hc
  · intro part hpart
    cases parts with
    | nil => cases hpart
    | cons first rest =>
        rw [List.cons_append, List.tail_cons] at hpart
        rcases List.mem_append.mp hpart with hpart | hpart
        · exact h.apart part (by simp [hpart])
        · rw [List.mem_singleton.mp hpart]
          exact h.apart (gap, run) (by simp)

theorem IsRun.mark_mem {run : List α} (h : IsRun mark cuts run) : ∃ a ∈ run, mark a = true := by
  obtain ⟨a, ha, hmark⟩ := h.first
  exact ⟨a, List.mem_of_mem_head? ha, hmark⟩

/-- Without a run there is nothing marked. -/
theorem Division.unmarked (h : Division mark cuts list [] tail) : ∀ b ∈ list, mark b = false := by
  intro b hb
  rw [h.whole] at hb
  exact h.tailGap b (by simpa using hb)

/-- Two runs have something that cuts between them. -/
theorem Division.parted {first second : List α × List α}
    (h : Division mark cuts list (first :: second :: parts) tail) : Parted mark cuts list := by
  obtain ⟨a, ha, hcut⟩ := h.apart second (by simp)
  obtain ⟨b, hb, hbmark⟩ := (h.runs first (by simp)).mark_mem
  obtain ⟨c, hc, hcmark⟩ := (h.runs second (by simp)).mark_mem
  obtain ⟨s, t, hsplit⟩ := List.append_of_mem ha
  refine ⟨first.1 ++ first.2 ++ s, a,
    t ++ second.2 ++ parts.flatMap (fun part => part.1 ++ part.2) ++ tail, ?_, hcut,
    ⟨b, by simp [hb], hbmark⟩, ⟨c, by simp [hc], hcmark⟩⟩
  rw [h.whole]
  simp [hsplit]

/-- A single run has nothing that cuts between two marked elements. -/
theorem Division.not_parted {part : List α × List α} (h : Division mark cuts list [part] tail) :
    ¬ Parted mark cuts list := by
  rintro ⟨before, a, after, hlist, hcut, ⟨b, hb, hbmark⟩, ⟨c, hc, hcmark⟩⟩
  have hgap := h.gaps part (by simp)
  have hwhole : part.1 ++ (part.2 ++ tail) = before ++ a :: after := by
    rw [← hlist, h.whole]
    simp
  rcases List.append_eq_append_iff.mp hwhole with ⟨s, hs, ht⟩ | ⟨s, hs, -⟩
  · rcases List.append_eq_append_iff.mp ht with ⟨t, -, htail⟩ | ⟨t, hrun, htail⟩
    · -- What cuts stands behind the run, and so does the second marked element.
      have hmem : c ∈ tail := by
        rw [htail]
        simp [hc]
      rw [h.tailGap c hmem] at hcmark
      cases hcmark
    · cases t with
      | nil =>
          have hmem : c ∈ tail := by
            rw [List.nil_append] at htail
            rw [← htail]
            simp [hc]
          rw [h.tailGap c hmem] at hcmark
          cases hcmark
      | cons t0 t =>
          have ha : a = t0 := by
            rw [List.cons_append] at htail
            exact (List.cons.inj htail).1
          have hmem : a ∈ part.2 := by
            rw [hrun, ha]
            simp
          rw [(h.runs part (by simp)).uncut a hmem] at hcut
          cases hcut
  · have hmem : b ∈ part.1 := by
      rw [hs]
      simp [hb]
    rw [hgap b hmem] at hbmark
    cases hbmark

theorem Division.marked_in_run {part : List α × List α}
    (h : Division mark cuts list [part] tail) :
    list = part.1 ++ part.2 ++ tail ∧ ∀ b ∈ part.1 ++ tail, mark b = false := by
  refine ⟨by rw [h.whole]; simp, fun b hb => ?_⟩
  rcases List.mem_append.mp hb with hb | hb
  · exact h.gaps part (by simp) b hb
  · exact h.tailGap b hb

theorem Division.one_run (h : Division mark cuts list parts tail)
    (hmark : ∃ b ∈ list, mark b = true) (hparted : ¬ Parted mark cuts list) :
    ∃ part, parts = [part] := by
  match parts, h with
  | [], h =>
      obtain ⟨b, hb, hbmark⟩ := hmark
      rw [h.unmarked b hb] at hbmark
      cases hbmark
  | [part], _ => exact ⟨part, rfl⟩
  | _ :: _ :: _, h => exact absurd h.parted hparted

end Orbistoun.Lib.Runs
