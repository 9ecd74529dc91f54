import Orbistoun.Mem.Mappings.Stretches

/-! # The readable runs of one reservation

The loop that gathers them joins a readable stretch to the run before it when they
touch, so what it gathers are the maximal runs.
-/

namespace Orbistoun.Mem.Mappings

open Orbistoun.Lib
open Orbistoun.Lib.IntervalMap
open Orbistoun.Lib.Spans (Ordered Proper Covers)

def runEnd (run : Nat × Nat) : Nat := run.1 + run.2

def stretchEnd (e : Nat × (Nat × Bool)) : Nat := e.2.1

structure Gathered (seen rest : List (Nat × (Nat × Bool))) (runs : List (Nat × Nat)) : Prop where
  apart : runs.Pairwise (fun a b => runEnd a < b.1)
  proper : Proper Prod.fst runEnd runs
  exact : ∀ x, Covers Prod.fst runEnd runs x ↔
    ∃ e ∈ seen, e.2.2 = true ∧ e.1 ≤ x ∧ x < stretchEnd e
  before : ∀ run ∈ runs, ∀ e ∈ rest, runEnd run ≤ e.1

theorem gathered_skip {seen rest : List (Nat × (Nat × Bool))} {runs : List (Nat × Nat)}
    {e : Nat × (Nat × Bool)} (h : Gathered seen (e :: rest) runs) (he : e.2.2 = false) :
    Gathered (seen ++ [e]) rest runs where
  apart := h.apart
  proper := h.proper
  exact x := by
    rw [h.exact]
    constructor
    · rintro ⟨d, hd, hx⟩
      exact ⟨d, by simp [hd], hx⟩
    · rintro ⟨d, hd, hr, hx⟩
      rcases List.mem_append.mp hd with hd | hd
      · exact ⟨d, hd, hr, hx⟩
      · rw [List.mem_singleton.mp hd, he] at hr
        cases hr
  before run hrun d hd := h.before run hrun d (List.mem_cons_of_mem _ hd)

theorem gathered_push {seen rest : List (Nat × (Nat × Bool))} {runs : List (Nat × Nat)}
    {e : Nat × (Nat × Bool)} (h : Gathered seen (e :: rest) runs) (he : e.2.2 = true)
    (hlt : e.1 < stretchEnd e) (hrest : ∀ d ∈ rest, stretchEnd e ≤ d.1)
    (hpast : ∀ run ∈ runs, runEnd run < e.1) :
    Gathered (seen ++ [e]) rest (runs ++ [(e.1, stretchEnd e - e.1)]) where
  apart := by
    rw [List.pairwise_append]
    refine ⟨h.apart, by simp, ?_⟩
    intro a ha b hb
    rw [List.mem_singleton.mp hb]
    exact hpast a ha
  proper := by
    intro run hrun
    rcases List.mem_append.mp hrun with hrun | hrun
    · exact h.proper run hrun
    · rw [List.mem_singleton.mp hrun]
      simp only [runEnd]
      omega
  exact x := by
    have hend : e.1 + (stretchEnd e - e.1) = stretchEnd e := by omega
    rw [Spans.covers_append, h.exact, Spans.covers_cons]
    simp only [runEnd, hend, Spans.not_covers_nil, or_false, List.mem_append, List.mem_singleton,
      or_and_right, exists_or, exists_eq_left, he, true_and]
  before run hrun d hd := by
    rcases List.mem_append.mp hrun with hrun | hrun
    · exact h.before run hrun d (List.mem_cons_of_mem _ hd)
    · have := hrest d hd
      rw [List.mem_singleton.mp hrun]
      simp only [runEnd]
      omega

/-- A readable stretch that starts where the last run ends makes that run longer. -/
theorem gathered_extend {seen rest : List (Nat × (Nat × Bool))} {init : List (Nat × Nat)}
    {first len : Nat} {e : Nat × (Nat × Bool)}
    (h : Gathered seen (e :: rest) (init ++ [(first, len)])) (he : e.2.2 = true)
    (hlt : e.1 < stretchEnd e) (hrest : ∀ d ∈ rest, stretchEnd e ≤ d.1)
    (htouch : first + len = e.1) :
    Gathered (seen ++ [e]) rest (init ++ [(first, stretchEnd e - first)]) where
  apart := by
    have hold := List.pairwise_append.mp h.apart
    rw [List.pairwise_append]
    refine ⟨hold.1, by simp, ?_⟩
    intro a ha b hb
    rw [List.mem_singleton.mp hb]
    exact hold.2.2 a ha (first, len) (by simp)
  proper := by
    intro run hrun
    rcases List.mem_append.mp hrun with hrun | hrun
    · exact h.proper run (by simp [hrun])
    · rw [List.mem_singleton.mp hrun]
      simp only [runEnd]
      omega
  exact x := by
    have hlast := h.proper (first, len) (by simp)
    have hend : first + (stretchEnd e - first) = stretchEnd e := by omega
    have hexact := h.exact x
    simp only [Spans.covers_append, Spans.covers_cons, runEnd, Spans.not_covers_nil, or_false,
      htouch] at hexact
    simp only [runEnd] at hlast
    rw [Spans.covers_append, Spans.covers_cons]
    simp only [runEnd, hend, Spans.not_covers_nil, or_false, List.mem_append, List.mem_singleton,
      or_and_right, exists_or, exists_eq_left, he, true_and, ← hexact]
    by_cases hx : x < e.1
    · constructor
      · rintro (hc | hc)
        · exact .inl (.inl hc)
        · exact .inl (.inr ⟨hc.1, hx⟩)
      · rintro ((hc | hc) | hc)
        · exact .inl hc
        · exact .inr (by omega)
        · omega
    · constructor
      · rintro (hc | hc)
        · exact .inl (.inl hc)
        · exact .inr (by omega)
      · rintro ((hc | hc) | hc)
        · exact .inl hc
        · omega
        · exact .inr (by omega)
  before run hrun d hd := by
    rcases List.mem_append.mp hrun with hrun | hrun
    · exact h.before run (by simp [hrun]) d (List.mem_cons_of_mem _ hd)
    · have := hrest d hd
      rw [List.mem_singleton.mp hrun]
      simp only [runEnd]
      omega

/-- One turn of the loop. -/
theorem runsStep_gathered {seen rest : List (Nat × (Nat × Bool))} {runs : List (Nat × Nat)}
    {e : Nat × (Nat × Bool)} (h : Gathered seen (e :: rest) runs) (hlt : e.1 < stretchEnd e)
    (hrest : ∀ d ∈ rest, stretchEnd e ≤ d.1) :
    Gathered (seen ++ [e]) rest (runsStep runs e) := by
  obtain ⟨start, stop, readable⟩ := e
  cases readable with
  | false => exact gathered_skip h rfl
  | true =>
      rcases List.eq_nil_or_concat runs with rfl | ⟨init, ⟨first, len⟩, rfl⟩
      · exact gathered_push h rfl hlt hrest (by simp)
      · rw [List.concat_eq_append] at h ⊢
        by_cases htouch : first + len = start
        · have hstep : runsStep (init ++ [(first, len)]) (start, (stop, true)) =
              init ++ [(first, stop - first)] := by
            simp [runsStep, htouch]
          rw [hstep]
          exact gathered_extend h rfl hlt hrest htouch
        · have hstep : runsStep (init ++ [(first, len)]) (start, (stop, true)) =
              init ++ [(first, len)] ++ [(start, stop - start)] := by
            simp [runsStep, htouch]
          rw [hstep]
          refine gathered_push h rfl hlt hrest (fun run hrun => ?_)
          have hle := h.before run hrun (start, (stop, true)) (by simp)
          rcases List.mem_append.mp hrun with hrun | hrun
          · have hsep := (List.pairwise_append.mp h.apart).2.2 run hrun (first, len) (by simp)
            have hlast := h.before (first, len) (by simp) (start, (stop, true)) (by simp)
            simp only [runEnd] at hsep hlast ⊢
            omega
          · rw [List.mem_singleton.mp hrun] at hle ⊢
            simp only [runEnd] at hle ⊢
            omega

theorem foldl_runsStep_gathered (rest seen : List (Nat × (Nat × Bool))) {runs : List (Nat × Nat)}
    (h : Gathered seen rest runs) (ho : Ordered Prod.fst stretchEnd rest)
    (hp : Proper Prod.fst stretchEnd rest) :
    Gathered (seen ++ rest) [] (rest.foldl runsStep runs) := by
  induction rest generalizing seen runs with
  | nil => simpa using h
  | cons e rest ih =>
      obtain ⟨hfirst, hrest⟩ := List.pairwise_cons.mp ho
      have hstep := runsStep_gathered h (hp e (by simp)) hfirst
      have := ih (seen ++ [e]) hstep hrest (fun d hd => hp d (List.mem_cons_of_mem _ hd))
      simpa using this

theorem readableRuns_spec {t : Stretches} (h : Sound t) :
    t.readableRuns.Pairwise (fun a b => runEnd a < b.1) ∧
      Proper Prod.fst runEnd t.readableRuns ∧
      ∀ x, Covers Prod.fst runEnd t.readableRuns x ↔ Holds t x true := by
  have hstart : Gathered [] t.toList [] := ⟨by simp, by simp [Proper], by simp, by simp⟩
  have hend := foldl_runsStep_gathered t.toList [] hstart h.ordered_toList h.proper_toList
  rw [List.nil_append] at hend
  refine ⟨hend.apart, hend.proper, fun x => ?_⟩
  rw [Stretches.readableRuns, hend.exact, holds_iff_mem]
  rfl

theorem readableRuns_maximal {t : Stretches} (h : Sound t) {run : Nat × Nat}
    (hrun : run ∈ t.readableRuns) :
    (∀ x, x + 1 = run.1 → ¬ Holds t x true) ∧ ¬ Holds t (runEnd run) true := by
  obtain ⟨hapart, hproper, hexact⟩ := readableRuns_spec h
  have hsplit : ∀ run' ∈ t.readableRuns, run' = run ∨ runEnd run' < run.1 ∨ runEnd run < run'.1 := by
    intro run' hrun'
    obtain ⟨pre, post, hl⟩ := List.append_of_mem hrun
    rw [hl, List.pairwise_append, List.pairwise_cons] at hapart
    rw [hl, List.mem_append, List.mem_cons] at hrun'
    rcases hrun' with hpre | rfl | hpost
    · exact .inr (.inl (hapart.2.2 run' hpre run (by simp)))
    · exact .inl rfl
    · exact .inr (.inr (hapart.2.1.1 run' hpost))
  have hlen := hproper run hrun
  refine ⟨?_, ?_⟩
  · intro x hx hheld
    obtain ⟨run', hrun', hlo, hhi⟩ := (hexact x).mpr hheld
    have hlen' := hproper run' hrun'
    rcases hsplit run' hrun' with rfl | hb | ha
    · omega
    · omega
    · simp only [runEnd] at *
      omega
  · intro hheld
    obtain ⟨run', hrun', hlo, hhi⟩ := (hexact _).mpr hheld
    rcases hsplit run' hrun' with rfl | hb | ha
    · omega
    · omega
    · omega

end Orbistoun.Mem.Mappings
