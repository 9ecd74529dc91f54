import Mathlib.Data.List.Chain
import Orbistoun.Kernel.Direct.Basic
import Orbistoun.Lib.Spans

/-! # The direct-memory map keeps its regions in order

Allocation replaces one free region by up to three, release frees one region and
merges it with its neighbours. Both replace a run of neighbours by regions that
cover the same bytes, and both leave free regions apart.
-/

namespace Orbistoun.Kernel.Direct

open Orbistoun.Lib
open Orbistoun.Lib.U64
open Orbistoun.Lib.Spans (Ordered Proper Covers total)

/-- Two neighbours that are not free memory cut in two. -/
def Apart (a b : Region) : Prop := a.allocated = true ∨ b.allocated = true ∨ a.stop ≠ b.start

/-- The regions are in order, disjoint and non-empty, and free neighbours do not touch. -/
structure Tidy (l : List Region) : Prop where
  ordered : Ordered Region.start Region.stop l
  proper : Proper Region.start Region.stop l
  apart : l.IsChain Apart

/-- Regions laid out anew over the same bytes. -/
def Relaid (l l' : List Region) : Prop :=
  Ordered Region.start Region.stop l → Proper Region.start Region.stop l →
    Ordered Region.start Region.stop l' ∧ Proper Region.start Region.stop l' ∧
      (∀ x, Covers Region.start Region.stop l' x ↔ Covers Region.start Region.stop l x) ∧
      total Region.start Region.stop l' = total Region.start Region.stop l

theorem relaid_refl (l : List Region) : Relaid l l :=
  fun ho hp => ⟨ho, hp, fun _ => Iff.rfl, rfl⟩

theorem Relaid.trans {a b c : List Region} (hab : Relaid a b) (hbc : Relaid b c) : Relaid a c := by
  intro ho hp
  obtain ⟨ho', hp', hc, ht⟩ := hab ho hp
  obtain ⟨ho'', hp'', hc', ht'⟩ := hbc ho' hp'
  exact ⟨ho'', hp'', fun x => (hc' x).trans (hc x), ht'.trans ht⟩

/-- A run of neighbours laid out anew within its bounds, between the regions around it. -/
theorem relaid_replace (pre post : List Region) {old mid : List Region} (h : Relaid old mid)
    (hlo : ∀ b ∈ mid, ∃ a ∈ old, a.start ≤ b.start)
    (hhi : ∀ b ∈ mid, ∃ a ∈ old, b.stop ≤ a.stop) :
    Relaid (pre ++ old ++ post) (pre ++ mid ++ post) := by
  intro ho hp
  have hoold : Ordered Region.start Region.stop old :=
    (List.pairwise_append.mp (List.pairwise_append.mp ho).1).2.1
  have hpold : Proper Region.start Region.stop old := fun a ha => hp a (by simp [ha])
  obtain ⟨homid, hpmid, hc, ht⟩ := h hoold hpold
  refine ⟨Spans.ordered_replace ho homid hlo hhi, Spans.proper_replace hp hpmid,
    fun x => Spans.covers_replace (hc x), ?_⟩
  simp only [Spans.total_append, ht]

/-! ## Allocation -/

theorem position_eq {p : Region → Bool} {l before after : List Region} {r : Region}
    (h : position p l = some (before, r, after)) : l = before ++ r :: after ∧ p r = true := by
  induction l generalizing before with
  | nil => simp [position] at h
  | cons x rest ih =>
      simp only [position] at h
      split at h
      · next hx =>
        cases h
        exact ⟨rfl, hx⟩
      · simp only [Option.map_eq_some_iff, Prod.exists] at h
        obtain ⟨b, f, a, hpos, heq⟩ := h
        cases heq
        obtain ⟨hl, hp⟩ := ih hpos
        exact ⟨by rw [hl, List.cons_append], hp⟩

theorem place_spec {m : DirectMemory} {searchStart len start : Nat} {memoryType : UInt32}
    {regions : List Region} (h : place m searchStart len memoryType = some (start, regions)) :
    ∃ before region after stop, m.regions = before ++ [region] ++ after ∧
      region.allocated = false ∧ region.start ≤ start ∧ start < stop ∧ stop ≤ region.stop ∧
      regions = before ++ carve region start stop memoryType ++ after := by
  simp only [place, Option.bind_eq_bind, Option.bind_eq_some_iff] at h
  obtain ⟨len', hlen', h⟩ := h
  split at h
  · cases h
  · next hpos =>
    simp only [Option.bind_eq_some_iff] at h
    obtain ⟨⟨before, region, after⟩, hposition, start', hstart, stop, hstop, h⟩ := h
    dsimp only at hstart h
    split at h
    · cases h
    · next hfit =>
      cases h
      obtain ⟨hregions, hfree⟩ := position_eq hposition
      have hup := le_checkedNextMultipleOf hstart
      have hadd := checkedAdd_eq hstop
      simp only [Bool.and_eq_true, Bool.not_eq_true'] at hfree
      refine ⟨before, region, after, stop, by simp [hregions], hfree.1, ?_, ?_, ?_, rfl⟩ <;> omega

theorem mem_carve {region b : Region} {start stop : Nat} {memoryType : UInt32}
    (h : b ∈ carve region start stop memoryType) :
    b.start < b.stop ∧ (b = free region.start start ∨ b = ⟨start, stop, true, memoryType⟩ ∨
      b = free stop region.stop) := by
  simp only [carve, List.mem_filter, List.mem_cons, List.not_mem_nil, or_false] at h
  exact ⟨by simpa [Region.isEmpty] using h.2, h.1⟩

section Carve

variable {region : Region} {start stop : Nat} {memoryType : UInt32}

/-- The pieces of a carved region: the taken one, with what is left before and after it. -/
theorem carve_eq (hsp : start < stop) :
    carve region start stop memoryType =
      (if region.start < start then [free region.start start] else []) ++
        [⟨start, stop, true, memoryType⟩] ++
        (if stop < region.stop then [free stop region.stop] else []) := by
  have hsp' : ¬ stop ≤ start := by omega
  by_cases hhead : region.start < start <;> by_cases htail : stop < region.stop <;>
    simp [carve, Region.isEmpty, free, hhead, htail, hsp']

theorem relaid_carve (hrs : region.start ≤ start) (hsp : start < stop) (hpe : stop ≤ region.stop) :
    Relaid [region] (carve region start stop memoryType) := by
  intro _ _
  rw [carve_eq hsp]
  refine ⟨?_, ?_, fun x => ?_, ?_⟩ <;>
    by_cases hhead : region.start < start <;> by_cases htail : stop < region.stop <;>
      simp [hhead, htail, Ordered, Proper, Spans.covers_cons, free] <;> omega

/-- A region put between two neighbours of the carved one, in its place. -/
theorem apart_carve {pre post : List Region} (hfree : region.allocated = false)
    (hsp : start < stop) (h : (pre ++ [region] ++ post).IsChain Apart) :
    (pre ++ carve region start stop memoryType ++ post).IsChain Apart := by
  rw [List.append_assoc] at h
  have hpost : (region :: post).IsChain Apart := h.right_of_append
  have htail : (free stop region.stop :: post).IsChain Apart :=
    hpost.imp_head (fun hz => hz.imp (by simp [hfree]) id)
  have htaken : ((⟨start, stop, true, memoryType⟩ : Region) :: post).IsChain Apart :=
    hpost.imp_head (fun _ => .inl rfl)
  rw [carve_eq hsp]
  split_ifs <;> simp_all [List.isChain_append, Apart, free]

end Carve

theorem allocate_cases (m : DirectMemory) (searchStart len : Nat) (memoryType : UInt32) :
    (allocate m searchStart len memoryType).1 = m ∨
      ∃ before region after start stop, m.regions = before ++ [region] ++ after ∧
        region.allocated = false ∧ region.start ≤ start ∧ start < stop ∧ stop ≤ region.stop ∧
        (allocate m searchStart len memoryType).1.regions =
          before ++ carve region start stop memoryType ++ after := by
  rw [allocate]
  cases hp : place m searchStart len memoryType with
  | none => exact .inl rfl
  | some answer =>
      obtain ⟨start, regions⟩ := answer
      obtain ⟨before, region, after, stop, hregions, hfree, hrs, hsp, hpe, heq⟩ := place_spec hp
      exact .inr ⟨before, region, after, start, stop, hregions, hfree, hrs, hsp, hpe, heq⟩

/-- A map whose regions were laid out anew over the same bytes, and left tidy. -/
structure Kept (m m' : DirectMemory) : Prop where
  relaid : Relaid m.regions m'.regions
  tidy : Tidy m.regions → Tidy m'.regions

theorem kept_refl (m : DirectMemory) : Kept m m := ⟨relaid_refl _, id⟩

theorem allocate_kept (m : DirectMemory) (searchStart len : Nat) (memoryType : UInt32) :
    Kept m (allocate m searchStart len memoryType).1 := by
  rcases allocate_cases m searchStart len memoryType with heq | hcarve
  · rw [heq]
    exact kept_refl m
  · obtain ⟨before, region, after, start, stop, hregions, hfree, hrs, hsp, hpe, heq⟩ := hcarve
    have hpieces : ∀ b ∈ carve region start stop memoryType,
        region.start ≤ b.start ∧ b.stop ≤ region.stop := by
      intro b hb
      rcases (mem_carve hb).2 with rfl | rfl | rfl <;> simp only [free] <;> omega
    have hrelaid : Relaid m.regions (allocate m searchStart len memoryType).1.regions := by
      rw [hregions, heq]
      exact relaid_replace _ _ (relaid_carve hrs hsp hpe)
        (fun b hb => ⟨region, by simp, (hpieces b hb).1⟩)
        (fun b hb => ⟨region, by simp, (hpieces b hb).2⟩)
    refine ⟨hrelaid, fun h => ?_⟩
    obtain ⟨ho, hp, -, -⟩ := hrelaid h.ordered h.proper
    refine ⟨ho, hp, ?_⟩
    rw [heq]
    exact apart_carve hfree hsp (hregions ▸ h.apart)

theorem allocateAlignedFrom_kept (m : DirectMemory) (searchStart len align : Nat)
    (memoryType : UInt32) : Kept m (allocateAlignedFrom m searchStart len align memoryType).1 := by
  unfold allocateAlignedFrom
  dsimp only
  split
  · exact kept_refl m
  · split
    · exact allocate_kept m _ len memoryType
    · exact kept_refl m

/-! ## Release -/

/-- Two free neighbours that touch, as one region. -/
theorem relaid_join {a b : Region} (hab : a.stop = b.start) :
    Relaid [a, b] [{ a with stop := b.stop }] := by
  intro _ hp
  have ha := hp a (by simp)
  have hb := hp b (by simp)
  refine ⟨?_, ?_, fun x => ?_, ?_⟩ <;> simp [Ordered, Proper, Spans.covers_cons] <;> omega

/-- One turn of the merge: the merged regions and those to come are laid out anew,
and the merged ones stay apart. -/
theorem mergeStep_spec (merged rest : List Region) (region : Region) :
    Relaid (merged ++ region :: rest) (mergeStep merged region ++ rest) ∧
      (merged.IsChain Apart → (mergeStep merged region).IsChain Apart) := by
  rcases List.eq_nil_or_concat merged with rfl | ⟨init, previous, rfl⟩
  · refine ⟨?_, ?_⟩
    · simpa [mergeStep] using relaid_refl (region :: rest)
    · simp [mergeStep]
  · rw [List.concat_eq_append]
    by_cases hjoin : previous.allocated = false ∧ region.allocated = false ∧
        previous.stop = region.start
    · obtain ⟨hp, hr, hab⟩ := hjoin
      have hstep : mergeStep (init ++ [previous]) region =
          init ++ [{ previous with stop := region.stop }] := by
        simp [mergeStep, hp, hr, hab]
      rw [hstep]
      refine ⟨?_, ?_⟩
      · have h := relaid_replace init rest (relaid_join hab)
          (by simp) (fun b hb => ⟨region, by simp, by simp_all⟩)
        simpa using h
      · intro hchain
        simp only [List.isChain_append] at hchain ⊢
        refine ⟨hchain.1, by simp, ?_⟩
        intro x hx y hy
        have hxp := hchain.2.2 x hx previous (by simp)
        simp only [List.head?_cons, Option.mem_def, Option.some.injEq] at hy
        subst hy
        exact hxp
    · have hstep : mergeStep (init ++ [previous]) region = init ++ [previous] ++ [region] := by
        simp only [mergeStep, List.getLast?_append, List.getLast?_singleton, Option.some_or]
        rw [if_neg]
        simpa using hjoin
      rw [hstep]
      refine ⟨?_, ?_⟩
      · simpa using relaid_refl (init ++ previous :: region :: rest)
      · intro hchain
        rw [List.isChain_append]
        refine ⟨hchain, by simp, ?_⟩
        intro x hx y hy
        simp only [List.getLast?_append, List.getLast?_singleton, Option.some_or, Option.mem_def,
          Option.some.injEq, List.head?_cons] at hx hy
        subst hx hy
        unfold Apart
        by_contra hn
        simp only [not_or, Bool.not_eq_true, not_not] at hn
        exact hjoin hn

theorem foldl_mergeStep_spec (regions merged : List Region) (h : merged.IsChain Apart) :
    Relaid (merged ++ regions) (regions.foldl mergeStep merged) ∧
      (regions.foldl mergeStep merged).IsChain Apart := by
  induction regions generalizing merged with
  | nil =>
      rw [List.append_nil]
      exact ⟨relaid_refl merged, h⟩
  | cons region rest ih =>
      obtain ⟨hrelaid, hchain⟩ := mergeStep_spec merged rest region
      obtain ⟨hrest, hchain'⟩ := ih (mergeStep merged region) (hchain h)
      exact ⟨hrelaid.trans hrest, hchain'⟩

theorem mergeFree_spec (regions : List Region) :
    Relaid regions (mergeFree regions) ∧ (mergeFree regions).IsChain Apart :=
  foldl_mergeStep_spec regions [] (by simp)

theorem release_kept (m : DirectMemory) (start len : Nat) : Kept m (release m start len).1 := by
  unfold release
  dsimp only
  split
  · exact kept_refl m
  · next before region after hpos =>
    obtain ⟨hregions, -⟩ := position_eq hpos
    -- Freeing a region moves no boundary.
    have hfreed : Relaid m.regions
        (before ++ { region with allocated := false, memoryType := 0 } :: after) := by
      have h : Relaid [region] [{ region with allocated := false, memoryType := 0 }] := by
        intro _ hp
        have hr := hp region (by simp)
        refine ⟨?_, ?_, fun x => ?_, ?_⟩ <;> simp [Ordered, Proper, Spans.covers_cons]
        omega
      rw [hregions]
      simpa using relaid_replace before after h (by simp) (by simp)
    obtain ⟨hmerged, hchain⟩ := mergeFree_spec
      (before ++ { region with allocated := false, memoryType := 0 } :: after)
    have hrelaid := hfreed.trans hmerged
    refine ⟨hrelaid, fun h => ?_⟩
    obtain ⟨ho, hp, -, -⟩ := hrelaid h.ordered h.proper
    exact ⟨ho, hp, hchain⟩

end Orbistoun.Kernel.Direct
