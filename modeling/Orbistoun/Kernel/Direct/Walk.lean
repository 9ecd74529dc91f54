import Orbistoun.Kernel.Direct.Invariant

/-! # The map over whole runs, and the guest's walk of it

From any shape the map stays tidy over every run of calls, and a guest that asks
from the end of what it last saw is shown each region once and then told there are
no more. A pool of no bytes is the one exception: its only region is empty, stays
so, and is shown to nobody.
-/

namespace Orbistoun.Kernel.Direct

open Orbistoun.Lib
open Orbistoun.Lib.U64
open Orbistoun.Lib.Spans (Ordered Proper Covers total)

/-! ## Byte counts -/

theorem available_add_allocatedBytes (m : DirectMemory) :
    available m + allocatedBytes m = total Region.start Region.stop m.regions := by
  unfold available allocatedBytes
  induction m.regions with
  | nil => rfl
  | cons r rest ih =>
      rw [Spans.total_cons, ← ih]
      cases hr : r.allocated <;> simp [hr, Region.len] <;> omega

/-! ## Runs -/

theorem step_kept (m : DirectMemory) (call : Call) : Kept m (directMap.step m call).1 := by
  cases call with
  | allocate searchStart len memoryType =>
      rw [step_allocate]
      exact allocate_kept m searchStart len memoryType
  | allocateAligned len align memoryType =>
      rw [step_allocateAligned]
      exact allocateAlignedFrom_kept m 0 len align memoryType
  | allocateAlignedFrom searchStart len align memoryType =>
      rw [step_allocateAlignedFrom]
      exact allocateAlignedFrom_kept m searchStart len align memoryType
  | release start len => exact release_kept m start len

theorem Kept.trans {a b c : DirectMemory} (hab : Kept a b) (hbc : Kept b c) : Kept a c :=
  ⟨hab.relaid.trans hbc.relaid, fun h => hbc.tidy (hab.tidy h)⟩

theorem run_kept (m : DirectMemory) (calls : List Call) : Kept m (directMap.after m calls) :=
  Machine.after_inv (m := directMap) (I := fun m' => Kept m m')
    (fun m' call h => h.trans (step_kept m' call)) (kept_refl m) calls

/-! ## The shapes -/

/-- `fitted` moves memory between the direct pool and the flexible budget and loses
none of it. -/
theorem fitted_total (settings : Settings) (flexible : Nat)
    (h : settings.poolBytes + settings.flexibleBytes < bound) :
    (fitted settings flexible).poolBytes + (fitted settings flexible).flexibleBytes =
      settings.poolBytes + settings.flexibleBytes := by
  have htotal : saturatingAdd settings.poolBytes settings.flexibleBytes =
      settings.poolBytes + settings.flexibleBytes := by
    unfold saturatingAdd
    omega
  unfold fitted
  rw [htotal]
  dsimp only
  split
  · dsimp only
    omega
  · rfl

theorem regions_zero (shape : MapShape) : shape.regions 0 = [free 0 0] := by
  cases shape <;> simp [MapShape.regions]

theorem regions_tidy (shape : MapShape) {size : Nat} (h : size ≠ 0) : Tidy (shape.regions size) := by
  have hwhole : Tidy [free 0 size] := by
    refine ⟨?_, ?_, ?_⟩ <;> simp [Ordered, Proper, free]
    omega
  cases shape with
  | whole => exact hwhole
  | reservedLow =>
      simp only [MapShape.regions]
      split
      · exact hwhole
      · next hlow =>
        simp only [Direct.reservedLow] at hlow
        refine ⟨?_, ?_, ?_⟩ <;>
          simp [Ordered, Proper, Apart, free, taken, Direct.reservedLow] <;> omega
  | gapped =>
      simp only [MapShape.regions]
      split
      · exact hwhole
      · refine ⟨?_, ?_, ?_⟩ <;> simp [Ordered, Proper, Apart, free] <;> omega
  | fragmented =>
      simp only [MapShape.regions]
      split
      · exact hwhole
      · next hlow =>
        simp only [reservedLow] at hlow
        refine ⟨?_, ?_, ?_⟩ <;>
          simp [Ordered, Proper, Apart, free, taken, reservedLow] <;> omega

/-- Every shape of a pool with bytes describes its first one. -/
theorem regions_cover_zero (shape : MapShape) {size : Nat} (h : size ≠ 0) :
    Covers Region.start Region.stop (shape.regions size) 0 := by
  cases shape <;> simp only [MapShape.regions] <;> (try split) <;>
    simp [Covers, free, taken, reservedLow] <;> omega

theorem place_emptyPool (searchStart len : Nat) (memoryType : UInt32) :
    place ⟨[free 0 0]⟩ searchStart len memoryType = none := by
  simp only [place]
  cases checkedNextMultipleOf len directAlign with
  | none => rfl
  | some len' =>
      by_cases hlen : len' = 0
      · simp [hlen]
      · have hpos : ¬ (0 ≥ len') := by omega
        simp [hlen, position, free]

theorem step_emptyPool (call : Call) :
    (directMap.step ⟨[free 0 0]⟩ call).1 = ⟨[free 0 0]⟩ := by
  have hallocate : ∀ searchStart len memoryType,
      (allocate ⟨[free 0 0]⟩ searchStart len memoryType).1 = ⟨[free 0 0]⟩ := by
    intro searchStart len memoryType
    rw [allocate, place_emptyPool]
  have hfrom : ∀ searchStart len align memoryType,
      (allocateAlignedFrom ⟨[free 0 0]⟩ searchStart len align memoryType).1 = ⟨[free 0 0]⟩ := by
    intro searchStart len align memoryType
    rw [allocateAlignedFrom]
    dsimp only
    split
    · rfl
    · split
      · exact hallocate _ len memoryType
      · rfl
  cases call with
  | allocate searchStart len memoryType => rw [step_allocate, hallocate]
  | allocateAligned len align memoryType => rw [step_allocateAligned, hfrom]
  | allocateAlignedFrom searchStart len align memoryType => rw [step_allocateAlignedFrom, hfrom]
  | release start len => simp [directMap, release, position, free]

/-! ## The walk -/

/-- A walk that has seen the regions before `post` sees those, in order, and ends. -/
theorem walk_from {m : DirectMemory} (h : Tidy m.regions) (pre : List Region) {post : List Region}
    (hsplit : m.regions = pre ++ post) {offset steps : Nat}
    (hpre : ∀ p ∈ pre, p.stop ≤ offset) (hpost : ∀ q ∈ post, offset < q.stop)
    (hsteps : post.length < steps) : walk m steps offset = some post := by
  induction post generalizing pre offset steps with
  | nil =>
      obtain ⟨steps, rfl⟩ : ∃ n, steps = n + 1 := ⟨steps - 1, by omega⟩
      have hnone : query m offset = none := by
        rw [query, hsplit, List.append_nil, List.find?_eq_none]
        intro p hp
        have := hpre p hp
        simp only [Bool.and_eq_true, decide_eq_true_eq, not_and]
        omega
      simp [walk, hnone]
  | cons a post ih =>
      obtain ⟨steps, rfl⟩ : ∃ n, steps = n + 1 := ⟨steps - 1, by simp at hsteps; omega⟩
      have hproper : a.start < a.stop := h.proper a (by simp [hsplit])
      have hquery : query m offset = some a := by
        rw [query, List.find?_eq_some_iff_append]
        refine ⟨?_, pre, post, hsplit, ?_⟩
        · simp [hpost a (by simp), Region.isEmpty, hproper]
        · intro p hp
          have := hpre p hp
          simp only [Bool.not_eq_true', Bool.and_eq_false_iff, decide_eq_false_iff_not]
          omega
      obtain ⟨hbefore, hafter⟩ := Spans.ends_split (hsplit ▸ h.ordered) (hsplit ▸ h.proper)
      have hrest : walk m steps a.stop = some post :=
        ih (pre ++ [a]) (by simp [hsplit]) hbefore hafter (by simpa using hsteps)
      simp [walk, hquery, hrest]

theorem walk_tidy {m : DirectMemory} (h : Tidy m.regions) {steps : Nat}
    (hsteps : m.regions.length < steps) : walk m steps 0 = some m.regions := by
  refine walk_from h [] rfl (by simp) (fun q hq => ?_) hsteps
  have := h.proper q hq
  omega

/-- The map after any run of calls from any shape: its regions are in order and
disjoint, cover the bytes they covered at the start, leave no two free neighbours
touching, and hold as many bytes; they are non-empty, and the guest's walk sees each
of them once and ends, but for a pool of no bytes, whose one region is empty and is
skipped. -/
theorem regions_kept_and_walked (shape : MapShape) (size : Nat) (calls : List Call) :
    let start := DirectMemory.withShape size shape
    let m := directMap.after start calls
    Ordered Region.start Region.stop m.regions ∧
    (Proper Region.start Region.stop m.regions ∨ size = 0 ∧ m.regions = [free 0 0]) ∧
    m.regions ≠ [] ∧
    (∀ x, Covers Region.start Region.stop m.regions x ↔
      Covers Region.start Region.stop start.regions x) ∧
    m.regions.IsChain Apart ∧
    available m + allocatedBytes m = available start + allocatedBytes start ∧
    (∀ steps, m.regions.length < steps →
      walk m steps 0 = some (m.regions.filter (fun r => !r.isEmpty))) := by
  intro start m
  by_cases hsize : size = 0
  · subst hsize
    have hstart : start = ⟨[free 0 0]⟩ := by
      simp only [start, DirectMemory.withShape, regions_zero]
    have hm : m = ⟨[free 0 0]⟩ :=
      Machine.after_inv (m := directMap) (I := fun m => m = ⟨[free 0 0]⟩)
        (fun _ call h => h ▸ step_emptyPool call) hstart calls
    rw [hm, hstart]
    refine ⟨by simp [Ordered], .inr ⟨rfl, rfl⟩, by simp, fun _ => Iff.rfl, by simp, rfl, ?_⟩
    intro steps hsteps
    obtain ⟨steps, rfl⟩ : ∃ n, steps = n + 1 := ⟨steps - 1, by omega⟩
    rfl
  · have hkept : Kept start m := run_kept start calls
    have htidy : Tidy start.regions := regions_tidy shape hsize
    obtain ⟨ho, hp, hc, ht⟩ := hkept.relaid htidy.ordered htidy.proper
    have hm : Tidy m.regions := hkept.tidy htidy
    have hne : m.regions ≠ [] := by
      intro hnil
      have hzero := (hc 0).mpr (regions_cover_zero shape hsize)
      rw [hnil] at hzero
      exact Spans.not_covers_nil 0 hzero
    have hfull : m.regions.filter (fun r => !r.isEmpty) = m.regions := by
      refine List.filter_eq_self.mpr (fun r hr => ?_)
      simp [Region.isEmpty, hp r hr]
    refine ⟨ho, .inl hp, hne, hc, hm.apart, ?_, fun steps hsteps => ?_⟩
    · rw [available_add_allocatedBytes, available_add_allocatedBytes, ht]
    · rw [hfull]
      exact walk_tidy hm hsteps

/-- A title that states the whole of memory as flexible leaves a pool of no bytes: its
map is one empty region, and the walk never sees it. -/
theorem empty_pool_region_unseen :
    (fitted ⟨.reservedLow, 0x300000000, 0x1c000000⟩ 0x31c000000).poolBytes = 0 ∧
    ¬ (∀ (shape : MapShape) (size : Nat) (calls : List Call),
      Proper Region.start Region.stop
        (directMap.after (DirectMemory.withShape size shape) calls).regions) ∧
    ¬ (∀ (shape : MapShape) (size : Nat) (calls : List Call), ∃ steps,
      walk (directMap.after (DirectMemory.withShape size shape) calls) steps 0 =
        some (directMap.after (DirectMemory.withShape size shape) calls).regions) := by
  refine ⟨by decide, ?_, ?_⟩
  · intro h
    have := h .reservedLow 0 [] (free 0 0) (by decide)
    simp [free] at this
  · intro h
    obtain ⟨steps, hsteps⟩ := h .reservedLow 0 []
    cases steps with
    | zero => simp [walk] at hsteps
    | succ steps =>
        have hseen : walk ⟨[free 0 0]⟩ (steps + 1) 0 = some [] := rfl
        rw [Machine.after_nil, DirectMemory.withShape, regions_zero, hseen] at hsteps
        simp at hsteps

end Orbistoun.Kernel.Direct
