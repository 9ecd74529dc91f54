import Orbistoun.Kernel.Direct.Walk
import Orbistoun.Kernel.Pool

/-! # A placement given back

A placement carves a free region in up to three; the release of what it answered merges them again,
and touches nothing else, so the map is the one before.
-/

namespace Orbistoun.Kernel.Direct

open Orbistoun.Lib
open Orbistoun.Lib.U64
open Orbistoun.Lib.Spans (Ordered Proper)
open Orbistoun.Kernel.Pool (GRANULE World expand refused written_of_ne)

def rounded (len : Nat) : Nat := (len + directAlign - 1) / directAlign * directAlign

theorem checkedNextMultipleOf_len {len up : Nat}
    (h : checkedNextMultipleOf len directAlign = some up) : up = rounded len := by
  unfold checkedNextMultipleOf at h
  rw [if_neg (by decide)] at h
  dsimp only at h
  split at h
  · cases h
    rfl
  · cases h

/-- Free memory has no type. -/
def Untyped (l : List Region) : Prop := ∀ r ∈ l, r.allocated = false → r.memoryType = 0

/-! ## Merging -/

theorem mergeStep_apart {merged : List Region} {region : Region}
    (h : (merged ++ [region]).IsChain Apart) : mergeStep merged region = merged ++ [region] := by
  rw [mergeStep]
  split
  · rename_i previous hlast
    rw [if_neg]
    intro hjoin
    simp only [Bool.and_eq_true, Bool.not_eq_true', beq_iff_eq] at hjoin
    have hapart : Apart previous region :=
      (List.isChain_append.mp h).2.2 previous hlast region rfl
    rcases hapart with ha | ha | ha
    · rw [ha] at hjoin
      cases hjoin.1.1
    · rw [ha] at hjoin
      cases hjoin.1.2
    · exact ha hjoin.2
  · rfl

/-- Regions no two free neighbours of which touch are left as they are. -/
theorem foldl_mergeStep_apart {merged regions : List Region}
    (h : (merged ++ regions).IsChain Apart) : regions.foldl mergeStep merged = merged ++ regions := by
  induction regions generalizing merged with
  | nil => rw [List.append_nil, List.foldl_nil]
  | cons region regions ih =>
      rw [List.append_cons] at h ⊢
      rw [List.foldl_cons, mergeStep_apart h.left_of_append]
      exact ih h

theorem mergeStep_free (merged : List Region) (a b c : Nat) :
    mergeStep (merged ++ [free a b]) (free b c) = merged ++ [free a c] := by
  simp [mergeStep, free]

/-- The pieces of a free region that a placement carves, the taken one given back, are merged into
it. -/
theorem foldl_mergeStep_carved {merged : List Region} {region : Region} {start stop : Nat}
    (hregion : region = free region.start region.stop)
    (h : (merged ++ [region]).IsChain Apart) (hrs : region.start ≤ start) (hpe : stop ≤ region.stop) :
    ((if region.start < start then [free region.start start] else []) ++ [free start stop] ++
      (if stop < region.stop then [free stop region.stop] else [])).foldl mergeStep merged =
      merged ++ [region] := by
  -- a region's start is all its neighbour before it sees
  have hstart : ∀ c, (merged ++ [free region.start c]).IsChain Apart := by
    intro c
    rw [List.isChain_append] at h ⊢
    refine ⟨h.1, List.isChain_singleton _, fun x hx y hy => ?_⟩
    have hy : y = free region.start c := (Option.some.inj hy).symm
    have hapart : Apart x region := h.2.2 x hx region rfl
    rw [hregion] at hapart
    rw [hy]
    exact hapart
  have hhead : ((if region.start < start then [free region.start start] else []) ++
      [free start stop]).foldl mergeStep merged = merged ++ [free region.start stop] := by
    split
    · rw [List.singleton_append, List.foldl_cons, mergeStep_apart (hstart start),
        List.foldl_cons, List.foldl_nil, mergeStep_free]
    · have heq : region.start = start := by omega
      rw [List.nil_append, List.foldl_cons, List.foldl_nil, ← heq, mergeStep_apart (hstart stop)]
  rw [List.foldl_append, hhead]
  split
  · rw [List.foldl_cons, List.foldl_nil, mergeStep_free, ← hregion]
  · have heq : stop = region.stop := by omega
    rw [List.foldl_nil, heq, ← hregion]

/-! ## Release -/

theorem position_append {p : Region → Bool} {before after : List Region} {region : Region}
    (hbefore : ∀ r ∈ before, p r = false) (hregion : p region = true) :
    position p (before ++ region :: after) = some (before, region, after) := by
  induction before with
  | nil => simp [position, hregion]
  | cons r before ih =>
      have hr := hbefore r List.mem_cons_self
      rw [List.cons_append, position, if_neg (by rw [hr]; exact Bool.false_ne_true),
        ih (fun r hr => hbefore r (List.mem_cons_of_mem _ hr))]
      rfl

/-- Where a placement goes, and how much of it is taken. -/
theorem place_rounded {m : DirectMemory} {searchStart len start : Nat} {memoryType : UInt32}
    {regions : List Region} (h : place m searchStart len memoryType = some (start, regions)) :
    ∃ before region after, m.regions = before ++ [region] ++ after ∧
      region.allocated = false ∧ region.start ≤ start ∧ 0 < rounded len ∧
      start + rounded len ≤ region.stop ∧ start + rounded len < bound ∧
      regions = before ++ carve region start (start + rounded len) memoryType ++ after := by
  simp only [place, Option.bind_eq_bind, Option.bind_eq_some_iff] at h
  obtain ⟨len', hlen', h⟩ := h
  have hrounded := checkedNextMultipleOf_len hlen'
  subst hrounded
  split at h
  · cases h
  · rename_i hpos
    simp only [Option.bind_eq_some_iff] at h
    obtain ⟨⟨before, region, after⟩, hposition, start', hstart, stop, hstop, h⟩ := h
    dsimp only at hstart h
    split at h
    · cases h
    · rename_i hfit
      cases h
      obtain ⟨hregions, hfree⟩ := position_eq hposition
      have hup := le_checkedNextMultipleOf hstart
      have hadd := checkedAdd_eq hstop
      have hbound : start + rounded len < bound := by
        unfold checkedAdd at hstop
        split at hstop
        · assumption
        · cases hstop
      simp only [Bool.and_eq_true, Bool.not_eq_true'] at hfree
      rw [hadd] at hfit ⊢
      exact ⟨before, region, after, by simp [hregions], hfree.1, by omega, by omega, by omega,
        hbound, rfl⟩

/-- What `place` answers, released, leaves the map it was found in. -/
theorem release_place {m : DirectMemory} (h : Tidy m.regions) (huntyped : Untyped m.regions)
    {searchStart len start : Nat} {memoryType : UInt32} {regions : List Region}
    (hplace : place m searchStart len memoryType = some (start, regions)) :
    release ⟨regions⟩ start (rounded len) = (m, true) := by
  obtain ⟨before, region, after, hregions, hfree, hrs, hlen, hpe, hbound, heq⟩ :=
    place_rounded hplace
  generalize rounded len = size at *
  generalize hstop : start + size = stop at *
  have hsat : saturatingAdd start size = stop := by
    simp only [saturatingAdd, bound] at *
    omega
  have hregion : region = free region.start region.stop := by
    have htype := huntyped region (by simp [hregions]) hfree
    cases region
    simp only at hfree htype
    rw [hfree, htype]
    rfl
  have hordered := hregions ▸ h.ordered
  have hbefore : ∀ r ∈ before, r.start < start := by
    intro r hr
    have hr' : r.stop ≤ region.start :=
      (List.pairwise_append.mp (List.pairwise_append.mp hordered).1).2.2 r hr region (by simp)
    have := h.proper r (by simp [hregions, hr])
    omega
  have hchain : (before ++ [region] ++ after).IsChain Apart := hregions ▸ h.apart
  set head := if region.start < start then [free region.start start] else [] with hhead
  set tail := if stop < region.stop then [free stop region.stop] else [] with htail
  have hpieces : regions = (before ++ head) ++ ⟨start, stop, true, memoryType⟩ :: (tail ++ after) := by
    rw [heq, carve_eq (by omega), ← hhead, ← htail]
    simp only [List.append_assoc, List.cons_append, List.nil_append]
  have hposition : position (fun r => r.allocated && r.start == start && r.stop == stop) regions =
      some (before ++ head, ⟨start, stop, true, memoryType⟩, tail ++ after) := by
    rw [hpieces]
    apply position_append
    · intro r hr
      rcases List.mem_append.mp hr with hr | hr
      · have hne : (r.start == start) = false := beq_eq_false_iff_ne.mpr (by have := hbefore r hr; omega)
        rw [hne, Bool.and_false, Bool.false_and]
      · rw [hhead] at hr
        split at hr
        · rw [List.mem_singleton.mp hr]
          rfl
        · cases hr
    · simp
  have hmerged : mergeFree ((before ++ head) ++ free start stop :: (tail ++ after)) = m.regions := by
    have hassoc : (before ++ head) ++ free start stop :: (tail ++ after) =
        before ++ ((head ++ [free start stop] ++ tail) ++ after) := by
      simp only [List.append_assoc, List.cons_append, List.nil_append]
    have hfront : before.foldl mergeStep [] = before :=
      foldl_mergeStep_apart hchain.left_of_append.left_of_append
    rw [hassoc, mergeFree, List.foldl_append, List.foldl_append, hfront,
      foldl_mergeStep_carved hregion hchain.left_of_append hrs hpe, foldl_mergeStep_apart hchain,
      hregions]
  rw [release, hsat]
  dsimp only
  rw [hposition]
  exact congrArg (fun l => (DirectMemory.mk l, true)) hmerged

/-! ## Free memory stays untyped -/

theorem untyped_replace {before mid after l : List Region} (h : Untyped l)
    (hl : ∀ r, r ∈ before ∨ r ∈ after → r ∈ l) (hmid : Untyped mid) :
    Untyped (before ++ mid ++ after) := by
  intro r hr hfree
  rcases List.mem_append.mp hr with hr | hr
  · rcases List.mem_append.mp hr with hr | hr
    · exact h r (hl r (.inl hr)) hfree
    · exact hmid r hr hfree
  · exact h r (hl r (.inr hr)) hfree

theorem untyped_carve (region : Region) (start stop : Nat) (memoryType : UInt32) :
    Untyped (carve region start stop memoryType) := by
  intro r hr hfree
  rcases (mem_carve hr).2 with rfl | rfl | rfl
  · rfl
  · cases hfree
  · rfl

theorem allocate_untyped {m : DirectMemory} (h : Untyped m.regions) (searchStart len : Nat)
    (memoryType : UInt32) : Untyped (allocate m searchStart len memoryType).1.regions := by
  rcases allocate_cases m searchStart len memoryType with heq | hcarve
  · rw [heq]
    exact h
  · obtain ⟨before, region, after, start, stop, hregions, -, -, -, -, heq⟩ := hcarve
    rw [heq]
    apply untyped_replace h _ (untyped_carve _ _ _ _)
    intro r hr
    rw [hregions]
    rcases hr with hr | hr <;> simp [hr]

theorem allocateAlignedFrom_untyped {m : DirectMemory} (h : Untyped m.regions)
    (searchStart len align : Nat) (memoryType : UInt32) :
    Untyped (allocateAlignedFrom m searchStart len align memoryType).1.regions := by
  rw [allocateAlignedFrom]
  split
  · exact h
  · split
    · exact allocate_untyped h _ _ _
    · exact h

theorem mergeStep_untyped {merged : List Region} {region : Region} (h : Untyped merged)
    (hregion : region.allocated = false → region.memoryType = 0) : Untyped (mergeStep merged region) := by
  have hpush : Untyped (merged ++ [region]) := by
    intro r hr hfree
    rcases List.mem_append.mp hr with hr | hr
    · exact h r hr hfree
    · rw [List.mem_singleton.mp hr] at hfree ⊢
      exact hregion hfree
  rw [mergeStep]
  split
  · rename_i previous hlast
    split
    · intro r hr hfree
      rcases List.mem_append.mp hr with hr | hr
      · exact h r (List.mem_of_mem_dropLast hr) hfree
      · rw [List.mem_singleton.mp hr] at hfree ⊢
        exact h previous (List.mem_of_getLast? hlast) hfree
    · exact hpush
  · exact hpush

theorem foldl_mergeStep_untyped {regions : List Region} (hregions : Untyped regions) :
    ∀ merged, Untyped merged → Untyped (regions.foldl mergeStep merged) := by
  induction regions with
  | nil => exact fun _ h => h
  | cons region regions ih =>
      intro merged h
      apply ih (fun r hr => hregions r (List.mem_cons_of_mem _ hr))
      exact mergeStep_untyped h (hregions region List.mem_cons_self)

theorem release_untyped {m : DirectMemory} (h : Untyped m.regions) (start len : Nat) :
    Untyped (release m start len).1.regions := by
  rw [release]
  split
  · exact h
  · rename_i before region after hposition
    apply foldl_mergeStep_untyped _ [] (fun r hr => by cases hr)
    have hregions := (position_eq hposition).1
    rw [List.append_cons]
    apply untyped_replace h
    · intro r hr
      rw [hregions]
      rcases hr with hr | hr <;> simp [hr]
    · intro r hr _
      rw [List.mem_singleton.mp hr]

theorem step_untyped {m : DirectMemory} (h : Untyped m.regions) (call : Call) :
    Untyped (directMap.step m call).1.regions := by
  cases call with
  | allocate searchStart len memoryType =>
      rw [step_allocate]
      exact allocate_untyped h searchStart len memoryType
  | allocateAligned len align memoryType =>
      rw [step_allocateAligned]
      exact allocateAlignedFrom_untyped h 0 len align memoryType
  | allocateAlignedFrom searchStart len align memoryType =>
      rw [step_allocateAlignedFrom]
      exact allocateAlignedFrom_untyped h searchStart len align memoryType
  | release start len => exact release_untyped h start len

theorem regions_untyped (shape : MapShape) (size : Nat) : Untyped (shape.regions size) := by
  intro r hr _
  cases shape <;> simp only [MapShape.regions] at hr <;> (try split at hr) <;>
    simp only [List.mem_cons, List.not_mem_nil, or_false] at hr <;>
    rcases hr with rfl | rfl | rfl | rfl <;> rfl

/-- What every map a guest reaches keeps: tidy, or a pool of no bytes, with free memory untyped. -/
theorem reachable_tidy_or_empty (shape : MapShape) (size : Nat) (calls : List Call) :
    let m := directMap.after (DirectMemory.withShape size shape) calls
    Untyped m.regions ∧ (size ≠ 0 ∧ Tidy m.regions ∨ m = ⟨[free 0 0]⟩) := by
  intro m
  constructor
  · exact Machine.after_inv (m := directMap) (I := fun m => Untyped m.regions)
      (fun _ call h => step_untyped h call) (regions_untyped shape size) calls
  · by_cases hsize : size = 0
    · subst hsize
      have hstart : DirectMemory.withShape 0 shape = ⟨[free 0 0]⟩ := by
        rw [DirectMemory.withShape, regions_zero]
      exact .inr (Machine.after_inv (m := directMap) (I := fun m => m = ⟨[free 0 0]⟩)
        (fun _ call h => h ▸ step_emptyPool call) hstart calls)
    · exact .inl ⟨hsize, (run_kept _ calls).tidy (regions_tidy shape hsize)⟩

/-! ## The placement and its undoing -/

theorem allocate_some {m m' : DirectMemory} {searchStart len start : Nat} {memoryType : UInt32}
    (h : allocate m searchStart len memoryType = (m', some start)) :
    place m searchStart len memoryType = some (start, m'.regions) := by
  rw [allocate] at h
  split at h
  · rename_i hplace
    cases h
    exact hplace
  · cases h

theorem allocate_none {m : DirectMemory} {searchStart len : Nat} {memoryType : UInt32}
    (h : (allocate m searchStart len memoryType).2 = none) :
    (allocate m searchStart len memoryType).1 = m := by
  rw [allocate] at h ⊢
  split at h
  · cases h
  · rfl

theorem allocateAlignedFrom_some {m m' : DirectMemory} {searchStart len align start : Nat}
    {memoryType : UInt32} (h : allocateAlignedFrom m searchStart len align memoryType = (m', some start)) :
    ∃ search, allocate m search len memoryType = (m', some start) := by
  rw [allocateAlignedFrom] at h
  split at h
  · cases h
  · split at h
    · exact ⟨_, h⟩
    · cases h

theorem allocateAlignedFrom_none {m : DirectMemory} {searchStart len align : Nat}
    {memoryType : UInt32} (h : (allocateAlignedFrom m searchStart len align memoryType).2 = none) :
    (allocateAlignedFrom m searchStart len align memoryType).1 = m := by
  simp only [allocateAlignedFrom] at h ⊢
  by_cases hpower : (!isPowerOfTwo (max align directAlign)) = true
  · rw [if_pos hpower]
  · rw [if_neg hpower] at h ⊢
    cases hstart : alignedStart m.regions searchStart len (max align directAlign) with
    | none => rfl
    | some start =>
        rw [hstart] at h
        exact allocate_none h

theorem rounded_of_granular {len : Nat} (h : len % GRANULE = 0) : rounded len = len := by
  simp only [rounded, GRANULE, directAlign] at *
  omega

/-- An Expand that places and then refuses gives the placement back. -/
theorem expand_refused {w : World} {searchStart searchEnd len align out : Nat}
    (hrelease : ∀ m' start, allocateAlignedFrom w.map searchStart len (max align GRANULE) 0 =
      (m', some start) → release m' start (rounded len) = (w.map, true))
    (h : (expand w searchStart searchEnd len align out).2 = refused .noMemory) :
    (expand w searchStart searchEnd len align out).1 = w := by
  rw [expand] at h ⊢
  cases hcheck : Pool.Pool.checkExpand len align with
  | error e => rfl
  | ok _ =>
      simp only [hcheck] at h ⊢
      by_cases hlen : len = 0
      · rw [if_pos hlen]
      · rw [if_neg hlen] at h ⊢
        cases hplaced : allocateAlignedFrom w.map searchStart len (max align GRANULE) 0 with
        | mk map answer =>
            cases answer with
            | none =>
                have hmap := allocateAlignedFrom_none (congrArg Prod.snd hplaced)
                rw [hplaced] at hmap
                rw [show map = w.map from hmap]
            | some start =>
                simp only [hplaced] at h ⊢
                split at h
                · rename_i hpast
                  rw [if_pos hpast]
                  have hgranular : len % GRANULE = 0 := by
                    simp only [Pool.Pool.checkExpand] at hcheck
                    split at hcheck
                    · cases hcheck
                    · split at hcheck
                      · cases hcheck
                      · split at hcheck
                        · cases hcheck
                        · rename_i hmod
                          exact not_not.mp hmod
                  have hback := hrelease map start hplaced
                  rw [rounded_of_granular hgranular] at hback
                  rw [hback]
                · split at h
                  · cases h
                  · next hout =>
                    rw [written_of_ne hout] at h
                    cases h

/-- In every map a guest reaches, what a placement answers is given back by a release that leaves the
map as it was, so an Expand that is refused after it placed leaves no trace. -/
theorem release_of_allocate (shape : MapShape) (size : Nat) (calls : List Call) :
    let m := directMap.after (DirectMemory.withShape size shape) calls
    (∀ searchStart len memoryType m' start,
      allocate m searchStart len memoryType = (m', some start) →
        release m' start (rounded len) = (m, true)) ∧
    (∀ searchStart len align memoryType m' start,
      allocateAlignedFrom m searchStart len align memoryType = (m', some start) →
        release m' start (rounded len) = (m, true)) ∧
    ∀ (w : World) searchStart searchEnd len align out, w.map = m →
      (expand w searchStart searchEnd len align out).2 = refused .noMemory →
        (expand w searchStart searchEnd len align out).1 = w := by
  intro m
  obtain ⟨huntyped, htidy⟩ := reachable_tidy_or_empty shape size calls
  have hallocate : ∀ searchStart len memoryType m' start,
      allocate m searchStart len memoryType = (m', some start) →
        release m' start (rounded len) = (m, true) := by
    intro searchStart len memoryType m' start h
    have hplace := allocate_some h
    rcases htidy with ⟨-, htidy⟩ | hempty
    · exact release_place htidy huntyped hplace
    · rw [show m = ⟨[free 0 0]⟩ from hempty, place_emptyPool] at hplace
      cases hplace
  have haligned : ∀ searchStart len align memoryType m' start,
      allocateAlignedFrom m searchStart len align memoryType = (m', some start) →
        release m' start (rounded len) = (m, true) := by
    intro searchStart len align memoryType m' start h
    obtain ⟨search, h⟩ := allocateAlignedFrom_some h
    exact hallocate search len memoryType m' start h
  refine ⟨hallocate, haligned, ?_⟩
  intro w searchStart searchEnd len align out hw h
  apply expand_refused _ h
  rw [hw]
  exact haligned searchStart len _ 0

/-- The middle of a free region between two taken ones, placed and given back. -/
theorem release_of_allocate_middle :
    release (allocate (directMap.after (DirectMemory.withShape 0x100000 .whole)
      [.allocate 0 16384 0, .allocate 65536 16384 1]) 32768 10000 2).1 32768 (rounded 10000) =
      (directMap.after (DirectMemory.withShape 0x100000 .whole)
        [.allocate 0 16384 0, .allocate 65536 16384 1], true) :=
  (release_of_allocate .whole 0x100000 [.allocate 0 16384 0, .allocate 65536 16384 1]).1 32768 10000
    2 _ 32768 (by decide +kernel)

end Orbistoun.Kernel.Direct
