import Orbistoun.Kernel.Direct.Undo

/-! # Where an aligned placement goes

The search walks the free regions in order; the address it comes to is the least that is aligned and
has room, and the size reported as placeable is what the search can place.
-/

namespace Orbistoun.Kernel.Direct

open Orbistoun.Lib
open Orbistoun.Lib.U64
open Orbistoun.Lib.Spans (Ordered Proper)

def checkedSub (x y : Nat) : Option Nat := if y ≤ x then some (x - y) else none

/-- The largest single allocation that could still be placed at `align`. -/
def largestFreeAt (m : DirectMemory) (align : Nat) : Nat :=
  if !isPowerOfTwo align then 0
  else
    ((m.regions.filter (fun r => !r.allocated)).filterMap (fun r =>
      (checkedNextMultipleOf r.start align).bind (checkedSub r.stop))).max?.getD 0

def FreeSpan (l : List Region) (a n : Nat) : Prop :=
  ∀ x, a ≤ x → x < a + n → ∃ r ∈ l, r.allocated = false ∧ r.start ≤ x ∧ x < r.stop

/-- One free region holds `[a, a + n)`. -/
def Room (l : List Region) (a n : Nat) : Prop :=
  ∃ r ∈ l, r.allocated = false ∧ r.start ≤ a ∧ a + n ≤ r.stop

section
variable {l : List Region} {a n : Nat}

theorem Room.freeSpan (h : Room l a n) : FreeSpan l a n := by
  obtain ⟨r, hr, hfree, hstart, hstop⟩ := h
  intro x hax hx
  exact ⟨r, hr, hfree, by omega, by omega⟩

/-- Free neighbours do not touch, so free bytes in a row are of one region. -/
theorem FreeSpan.room (h : Tidy l) (hspan : FreeSpan l a n) (hn : 0 < n) : Room l a n := by
  obtain ⟨r, hr, hfree, hstart, hstop⟩ := hspan a (le_refl a) (by omega)
  by_cases hfits : a + n ≤ r.stop
  · exact ⟨r, hr, hfree, hstart, hfits⟩
  obtain ⟨r', hr', hfree', hstart', hstop'⟩ := hspan r.stop (by omega) (by omega)
  obtain ⟨pre, post, hsplit⟩ := List.append_of_mem hr
  rw [hsplit] at hr'
  have hordered := List.pairwise_append.mp (hsplit ▸ h.ordered)
  rcases List.mem_append.mp hr' with hpre | hpost
  · have := hordered.2.2 r' hpre r List.mem_cons_self
    have := h.proper r hr
    omega
  · rcases List.mem_cons.mp hpost with rfl | hpost
    · omega
    · -- a region between the two would be empty, so they are neighbours that touch
      have hafter := (List.pairwise_cons.mp hordered.2.1).1
      cases post with
      | nil => cases hpost
      | cons next post =>
          have hnext := hafter next List.mem_cons_self
          have hproper := h.proper next (by rw [hsplit]; simp)
          have heq : next = r' := by
            rcases List.mem_cons.mp hpost with heq | hlater
            · exact heq.symm
            · have := (List.pairwise_cons.mp (List.pairwise_cons.mp hordered.2.1).2).1 r' hlater
              omega
          have hchain : (r :: next :: post).IsChain Apart := (hsplit ▸ h.apart).right_of_append
          rcases (List.isChain_cons_cons.mp hchain).1 with ha | ha | ha
          · rw [hfree] at ha
            cases ha
          · rw [heq, hfree'] at ha
            cases ha
          · exact absurd (by rw [heq] at hnext ⊢; omega) ha

end

theorem le_rounded (len : Nat) : len ≤ rounded len := by
  simp only [rounded, directAlign]
  omega

/-! ## The search -/

section
variable {l : List Region} {len align : Nat}

/-- What the search looks at next: free room at or above the search start is in it, or after it. -/
theorem room_of_find (h : Tidy l) {search b n : Nat} {region : Region} (hn : 0 < n)
    (hfind : l.find? (fun r => !r.allocated && search < r.stop && !r.isEmpty) = some region)
    (hsearch : search ≤ b) (hroom : Room l b n) :
    (region.start ≤ b ∧ b + n ≤ region.stop) ∨ region.stop ≤ b := by
  obtain ⟨r, hr, hfree, hstart, hstop⟩ := hroom
  obtain ⟨hregion, pre, post, hsplit, hpre⟩ := List.find?_eq_some_iff_append.mp hfind
  rw [hsplit] at hr
  rcases List.mem_append.mp hr with hin | hin
  · -- a region before the one found is taken, or ends at or before the search start
    have hnot := hpre r hin
    have hproper := h.proper r (by rw [hsplit]; simp [hin])
    simp only [hfree, Region.isEmpty, Bool.not_eq_true', Bool.and_eq_false_iff, Bool.not_false,
      Bool.true_eq_false, false_or, decide_eq_false_iff_not, Bool.not_eq_false', decide_eq_true_eq]
      at hnot
    omega
  · rcases List.mem_cons.mp hin with rfl | hin
    · exact .inl ⟨hstart, hstop⟩
    · have hordered := (List.pairwise_append.mp (hsplit ▸ h.ordered)).2.1
      have := (List.pairwise_cons.mp hordered).1 r hin
      exact .inr (by omega)

theorem find_spec {search : Nat} {region : Region}
    (hfind : l.find? (fun r => !r.allocated && search < r.stop && !r.isEmpty) = some region) :
    region ∈ l ∧ region.allocated = false ∧ search < region.stop ∧ region.start < region.stop := by
  have hfound := List.find?_some hfind
  simp only [Region.isEmpty, Bool.and_eq_true, Bool.not_eq_true', decide_eq_true_eq,
    decide_eq_false_iff_not, not_le] at hfound
  exact ⟨List.mem_of_find?_eq_some hfind, hfound.1.1, hfound.1.2, hfound.2⟩

theorem stop_le_of_room {b n : Nat} (hbound : ∀ r ∈ l, r.stop < bound) (hroom : Room l b n) :
    b + n < bound := by
  obtain ⟨r, hr, -, -, hstop⟩ := hroom
  exact lt_of_le_of_lt hstop (hbound r hr)

theorem alignedStart_eq (l : List Region) (search len align : Nat) :
    alignedStart l search len align =
      match l.find? (fun r => !r.allocated && search < r.stop && !r.isEmpty) with
      | none => none
      | some region =>
          match checkedNextMultipleOf (max region.start search) align,
              checkedNextMultipleOf len directAlign with
          | some start, some len' =>
              match checkedAdd start len' with
              | some stop =>
                  if stop ≤ region.stop then some start
                  else alignedStart l region.stop len align
              | none => none
          | _, _ => none := by
  rw [alignedStart]
  split
  · rename_i hfind
    simp only [hfind]
  · rename_i hfind
    simp only [hfind] <;> rfl

/-- The address found is aligned, has room, and no lower one at or above the search has. -/
theorem alignedStart_spec (h : Tidy l) (hbound : ∀ r ∈ l, r.stop < bound) (halign : align ≠ 0)
    (hlen : 0 < len) (search : Nat) :
    (∀ a, alignedStart l search len align = some a →
      search ≤ a ∧ align ∣ a ∧ Room l a (rounded len)) ∧
    ∀ b, search ≤ b → align ∣ b → Room l b (rounded len) →
      ∃ a, alignedStart l search len align = some a ∧ a ≤ b := by
  have hpos : 0 < rounded len := lt_of_lt_of_le hlen (le_rounded len)
  induction search using alignedStart.induct l len align with
  | case1 search hfind =>
      rw [alignedStart_eq, hfind]
      constructor
      · intro a ha
        cases ha
      · intro b hsearch _ ⟨r, hr, hfree, hstart, hstop⟩
        have hnot := List.find?_eq_none.mp hfind r hr
        have hproper := h.proper r hr
        simp only [hfree, Region.isEmpty, Bool.not_false, Bool.true_and, Bool.and_eq_true,
          decide_eq_true_eq, Bool.not_eq_true', decide_eq_false_iff_not] at hnot
        omega
  | case2 search region hfind start len' hlen' hstart stop hstop hfits =>
      rw [alignedStart_eq, hfind]
      simp only [hstart, hlen', hstop, if_pos hfits]
      obtain ⟨hin, hfree, hsearch, hproper⟩ := find_spec hfind
      have hup := le_checkedNextMultipleOf hstart
      have hadd := checkedAdd_eq hstop
      rw [checkedNextMultipleOf_len hlen'] at hadd
      constructor
      · intro a ha
        cases ha
        exact ⟨by omega, dvd_checkedNextMultipleOf hstart, region, hin, hfree, by omega, by omega⟩
      · intro b hb hdvd hroom
        refine ⟨start, rfl, ?_⟩
        rcases room_of_find h hpos hfind hb hroom with hinside | hafter
        · exact checkedNextMultipleOf_le hstart hdvd (by omega)
        · omega
  | case3 search region hfind start len' hlen' hstart stop hstop hfits ih =>
      rw [alignedStart_eq, hfind]
      simp only [hstart, hlen', hstop, if_neg hfits]
      obtain ⟨hin, hfree, hsearch, hproper⟩ := find_spec hfind
      have hadd := checkedAdd_eq hstop
      rw [checkedNextMultipleOf_len hlen'] at hadd
      constructor
      · intro a ha
        obtain ⟨hle, hrest⟩ := ih.1 a ha
        exact ⟨by omega, hrest⟩
      · intro b hb hdvd hroom
        apply ih.2 b _ hdvd hroom
        rcases room_of_find h hpos hfind hb hroom with hinside | hafter
        · have := checkedNextMultipleOf_le hstart hdvd (by omega)
          omega
        · exact hafter
  | case4 search region hfind start len' hlen' hstart hstop =>
      rw [alignedStart_eq, hfind]
      simp only [hstart, hlen', hstop]
      obtain ⟨hin, hfree, hsearch, hproper⟩ := find_spec hfind
      constructor
      · intro a ha
        cases ha
      · intro b hb hdvd hroom
        have hle : start ≤ b := by
          apply checkedNextMultipleOf_le hstart hdvd
          rcases room_of_find h hpos hfind hb hroom with hinside | hafter <;> omega
        have hfit := stop_le_of_room hbound hroom
        rw [checkedNextMultipleOf_len hlen', checkedAdd, if_pos (by omega)] at hstop
        cases hstop
  | case5 search region hfind hnone =>
      obtain ⟨hin, hfree, hsearch, hproper⟩ := find_spec hfind
      have hanswer : alignedStart l search len align = none := by
        rw [alignedStart_eq, hfind]
        simp only
      rw [hanswer]
      constructor
      · intro a ha
        cases ha
      · intro b hb hdvd hroom
        have hfit := stop_le_of_room hbound hroom
        have hle : max region.start search ≤ b := by
          rcases room_of_find h hpos hfind hb hroom with hinside | hafter <;> omega
        cases hstart : checkedNextMultipleOf (max region.start search) align with
        | none =>
            have := bound_le_of_checkedNextMultipleOf_eq_none halign hstart hdvd hle
            omega
        | some start =>
            cases hlen' : checkedNextMultipleOf len directAlign with
            | none =>
                have := bound_le_of_checkedNextMultipleOf_eq_none (by decide) hlen'
                  (Dvd.intro_left _ rfl : directAlign ∣ rounded len) (le_rounded len)
                omega
            | some len' => exact absurd hlen' (fun hlen' => hnone start len' hstart hlen')

end

/-! ## The placement -/

theorem directAlign_dvd {align : Nat} (h : isPowerOfTwo align = true) (hle : directAlign ≤ align) :
    directAlign ∣ align := by
  simp only [isPowerOfTwo, ne_eq, Bool.and_eq_true, beq_iff_eq] at h
  have hlog : 14 ≤ align.log2 := by
    by_contra hlt
    have hpow : 2 ^ align.log2 ≤ 2 ^ 13 := Nat.pow_le_pow_right (by decide) (by omega)
    have : align ≤ 2 ^ 13 := h.2 ▸ hpow
    simp only [directAlign] at hle
    omega
  rw [h.2]
  exact pow_dvd_pow 2 hlog

theorem ne_zero_of_isPowerOfTwo {align : Nat} (h : isPowerOfTwo align = true) : align ≠ 0 := by
  intro hzero
  subst hzero
  cases h

theorem allocate_at {m : DirectMemory} (h : Tidy m.regions) (hbound : ∀ r ∈ m.regions, r.stop < bound)
    {start len : Nat} (hlen : 0 < len) (hdvd : directAlign ∣ start)
    (hroom : Room m.regions start (rounded len)) (memoryType : UInt32) :
    (allocate m start len memoryType).2 = some start := by
  obtain ⟨region, hin, hfree, hstart, hstop⟩ := hroom
  have hregion := hbound region hin
  have hpos : 0 < rounded len := lt_of_lt_of_le hlen (le_rounded len)
  have hlen' : checkedNextMultipleOf len directAlign = some (rounded len) := by
    rw [checkedNextMultipleOf, if_neg (by decide)]
    exact if_pos (show rounded len < bound by omega)
  obtain ⟨pre, post, hsplit⟩ := List.append_of_mem hin
  have hordered := List.pairwise_append.mp (hsplit ▸ h.ordered)
  have hposition : position
      (fun r => !r.allocated && decide (r.stop - max r.start start ≥ rounded len)) m.regions =
      some (pre, region, post) := by
    rw [hsplit]
    apply position_append
    · intro r hr
      have := hordered.2.2 r hr region List.mem_cons_self
      rw [decide_eq_false (by omega), Bool.and_false]
    · rw [hfree, decide_eq_true (by omega)]
      rfl
  have hup : checkedNextMultipleOf (max region.start start) directAlign = some start := by
    rw [max_eq_right hstart]
    obtain ⟨k, rfl⟩ := hdvd
    have hmul : (directAlign * k + directAlign - 1) / directAlign * directAlign = directAlign * k := by
      simp only [directAlign]
      omega
    rw [checkedNextMultipleOf, if_neg (by decide)]
    simp only [hmul]
    exact if_pos (by omega)
  have hadd : checkedAdd start (rounded len) = some (start + rounded len) := if_pos (by omega)
  have hplace : place m start len memoryType = some (start,
      pre ++ carve region start (start + rounded len) memoryType ++ post) := by
    rw [place, hlen', Option.bind_eq_bind, Option.bind_some,
      if_neg (show ¬ rounded len = 0 by omega), hposition, Option.bind_eq_bind, Option.bind_some]
    dsimp only
    rw [hup, Option.bind_some, hadd, Option.bind_some,
      if_neg (show ¬ start + rounded len > region.stop by omega)]
  rw [allocate, hplace]

section
variable {m : DirectMemory} {searchStart len align : Nat} {memoryType : UInt32}

theorem allocateAlignedFrom_answer (h : Tidy m.regions) (hbound : ∀ r ∈ m.regions, r.stop < bound)
    (hlen : 0 < len) (hpower : isPowerOfTwo (max align directAlign) = true) :
    (allocateAlignedFrom m searchStart len align memoryType).2 =
      alignedStart m.regions searchStart len (max align directAlign) := by
  have hspec := (alignedStart_spec h hbound (ne_zero_of_isPowerOfTwo hpower) hlen searchStart).1
  simp only [allocateAlignedFrom]
  rw [if_neg (by rw [hpower]; decide)]
  cases hstart : alignedStart m.regions searchStart len (max align directAlign) with
  | none => rfl
  | some start =>
      obtain ⟨-, hdvd, hroom⟩ := hspec start hstart
      exact allocate_at h hbound hlen
        (dvd_trans (directAlign_dvd hpower (le_max_right _ _)) hdvd) hroom memoryType

/-- Whether a placement has somewhere to go at an alignment the size is reported for. -/
theorem exists_room_iff (hbound : ∀ r ∈ m.regions, r.stop < bound)
    (hpower : isPowerOfTwo align = true) (hlen : 0 < len) :
    (∃ b, align ∣ b ∧ Room m.regions b (rounded len)) ↔ rounded len ≤ largestFreeAt m align := by
  have halign := ne_zero_of_isPowerOfTwo hpower
  have hpos : 0 < rounded len := lt_of_lt_of_le hlen (le_rounded len)
  rw [largestFreeAt, if_neg (by rw [hpower]; decide)]
  set sizes := (m.regions.filter (fun r => !r.allocated)).filterMap (fun r =>
    (checkedNextMultipleOf r.start align).bind (checkedSub r.stop)) with hsizes
  have hmem : ∀ size, size ∈ sizes ↔ ∃ r ∈ m.regions, r.allocated = false ∧
      ∃ start, checkedNextMultipleOf r.start align = some start ∧ start ≤ r.stop ∧
        size = r.stop - start := by
    intro size
    simp only [hsizes, List.mem_filterMap, List.mem_filter, Bool.not_eq_true', and_assoc,
      Option.bind_eq_some_iff, checkedSub]
    constructor
    · intro ⟨r, hr, hfree, start, hstart, hsub⟩
      split at hsub
      · cases hsub
        exact ⟨r, hr, hfree, start, hstart, by assumption, rfl⟩
      · cases hsub
    · intro ⟨r, hr, hfree, start, hstart, hle, hsize⟩
      exact ⟨r, hr, hfree, start, hstart, by rw [if_pos hle, hsize]⟩
  have hmax : rounded len ≤ sizes.max?.getD 0 ↔ ∃ size ∈ sizes, rounded len ≤ size := by
    cases hmax : sizes.max? with
    | none =>
        rw [List.max?_eq_none_iff.mp hmax]
        simp only [Option.getD_none, List.not_mem_nil, false_and, exists_false, iff_false]
        omega
    | some greatest =>
        obtain ⟨hin, hgreatest⟩ := List.max?_eq_some_iff.mp hmax
        constructor
        · intro hle
          exact ⟨greatest, hin, hle⟩
        · intro ⟨size, hsize, hle⟩
          exact le_trans hle (hgreatest size hsize)
  rw [hmax]
  constructor
  · intro ⟨b, hdvd, r, hr, hfree, hstart, hstop⟩
    cases hnext : checkedNextMultipleOf r.start align with
    | none =>
        have := bound_le_of_checkedNextMultipleOf_eq_none halign hnext hdvd hstart
        have := hbound r hr
        omega
    | some start =>
        have hle := checkedNextMultipleOf_le hnext hdvd hstart
        exact ⟨r.stop - start, (hmem _).mpr ⟨r, hr, hfree, start, hnext, by omega, rfl⟩, by omega⟩
  · intro ⟨size, hsize, hle⟩
    obtain ⟨r, hr, hfree, start, hnext, hstop, rfl⟩ := (hmem size).mp hsize
    exact ⟨start, dvd_checkedNextMultipleOf hnext, r, hr, hfree, le_checkedNextMultipleOf hnext,
      by omega⟩

end

/-! ## Reachable maps -/

theorem regions_below (shape : MapShape) (size : Nat) : ∀ r ∈ shape.regions size, r.stop ≤ size := by
  intro r hr
  cases shape <;> simp only [MapShape.regions] at hr <;> (try split at hr) <;>
    simp only [List.mem_cons, List.not_mem_nil, or_false] at hr <;>
    rcases hr with rfl | rfl | rfl | rfl <;> simp only [free, taken] <;> omega

theorem reachable_below (shape : MapShape) {size : Nat} (hsize : size ≠ 0) (calls : List Call) :
    ∀ r ∈ (directMap.after (DirectMemory.withShape size shape) calls).regions, r.stop ≤ size := by
  intro r hr
  have hkept := run_kept (DirectMemory.withShape size shape) calls
  have htidy : Tidy (shape.regions size) := regions_tidy shape hsize
  obtain ⟨-, hproper, hcovers, -⟩ := hkept.relaid htidy.ordered htidy.proper
  have hr' := hproper r hr
  have hlast : Spans.Covers Region.start Region.stop
      (directMap.after (DirectMemory.withShape size shape) calls).regions (r.stop - 1) :=
    ⟨r, hr, by omega, by omega⟩
  obtain ⟨r₀, hr₀, -, hlt⟩ := (hcovers _).mp hlast
  have := regions_below shape size r₀ hr₀
  omega

theorem allocate_nothing (m : DirectMemory) (searchStart : Nat) (memoryType : UInt32) :
    allocate m searchStart 0 memoryType = (m, none) := by
  rfl

theorem allocateAlignedFrom_refused (m : DirectMemory) (searchStart len align : Nat)
    (memoryType : UInt32) (h : isPowerOfTwo (max align directAlign) = false ∨ len = 0) :
    allocateAlignedFrom m searchStart len align memoryType = (m, none) := by
  simp only [allocateAlignedFrom]
  rcases h with h | h
  · rw [if_pos (by rw [h]; rfl)]
  · subst h
    split
    · rfl
    · split
      · exact allocate_nothing m _ memoryType
      · rfl

theorem not_freeSpan_emptyPool {a n : Nat} (hn : 0 < n) : ¬ FreeSpan [free 0 0] a n := by
  intro hspan
  obtain ⟨r, hr, -, -, hstop⟩ := hspan a (le_refl a) (by omega)
  rw [List.mem_singleton.mp hr] at hstop
  exact Nat.not_lt_zero a hstop

theorem emptyPool_answers (searchStart len align : Nat) (memoryType : UInt32) :
    (allocateAlignedFrom ⟨[free 0 0]⟩ searchStart len align memoryType).2 = none ∧
      largestFreeAt ⟨[free 0 0]⟩ align = 0 := by
  constructor
  · simp only [allocateAlignedFrom]
    split
    · rfl
    · rw [alignedStart_eq]
      rfl
  · rw [largestFreeAt]
    split
    · rfl
    · simp only [free, List.filter_cons, List.filter_nil, Bool.not_false, if_true,
        List.filterMap_cons, List.filterMap_nil]
      cases checkedNextMultipleOf 0 align with
      | none => rfl
      | some up =>
          simp only [Option.bind_some, checkedSub]
          split
          · rename_i hsub
            split at hsub
            · cases hsub
            · rfl
          · rename_i size hsub
            split at hsub
            · cases hsub
              simp
            · cases hsub

/-- In every map a guest reaches, an aligned placement of at least one byte answers the least address
at or above its search start that is a multiple of the alignment it is given and has its rounded
length free, and answers nothing exactly where there is none, the map as it was; and it has somewhere
to go from the bottom exactly where its rounded length is within the size reported as placeable. -/
theorem allocateAlignedFrom_least (shape : MapShape) (size : Nat) (hsize : size < bound)
    (calls : List Call) (searchStart len align : Nat) (memoryType : UInt32) :
    let m := directMap.after (DirectMemory.withShape size shape) calls
    let unit := max align directAlign
    let answer := allocateAlignedFrom m searchStart len align memoryType
    let fits := fun a => searchStart ≤ a ∧ unit ∣ a ∧ FreeSpan m.regions a (rounded len)
    (isPowerOfTwo unit = true → 0 < len →
      (∀ a, answer.2 = some a ↔ fits a ∧ ∀ b, fits b → a ≤ b) ∧
      (answer.2 = none ↔ ∀ a, ¬ fits a)) ∧
    (answer.2 = none → answer.1 = m) ∧
    (isPowerOfTwo unit = false ∨ len = 0 → answer = (m, none)) ∧
    (isPowerOfTwo align = true → directAlign ≤ align → 0 < len →
      ((allocateAlignedFrom m 0 len align memoryType).2.isSome = true ↔
        rounded len ≤ largestFreeAt m align)) := by
  intro m unit answer fits
  refine ⟨?_, allocateAlignedFrom_none, allocateAlignedFrom_refused m _ _ _ _, ?_⟩
  · intro hpower hlen
    have hpos : 0 < rounded len := lt_of_lt_of_le hlen (le_rounded len)
    -- the search finds an address wherever one fits, and it is the least
    have hsearch : (∀ a, answer.2 = some a → fits a) ∧
        ∀ b, fits b → ∃ a, answer.2 = some a ∧ a ≤ b := by
      rcases (reachable_tidy_or_empty shape size calls).2 with ⟨hpositive, htidy⟩ | hempty
      · have hbound : ∀ r ∈ m.regions, r.stop < bound := fun r hr =>
          lt_of_le_of_lt (reachable_below shape hpositive calls r hr) hsize
        have hspec := alignedStart_spec htidy hbound (ne_zero_of_isPowerOfTwo hpower) hlen searchStart
        have hanswer : answer.2 = alignedStart m.regions searchStart len unit :=
          allocateAlignedFrom_answer htidy hbound hlen hpower
        rw [hanswer]
        constructor
        · intro a ha
          obtain ⟨hle, hdvd, hroom⟩ := hspec.1 a ha
          exact ⟨hle, hdvd, hroom.freeSpan⟩
        · intro b hb
          exact hspec.2 b hb.1 hb.2.1 (hb.2.2.room htidy hpos)
      · have hm : m = ⟨[free 0 0]⟩ := hempty
        constructor
        · intro a ha
          simp only [answer, hm, (emptyPool_answers searchStart len align memoryType).1] at ha
          cases ha
        · intro b hb
          have hspan := hb.2.2
          rw [hm] at hspan
          exact (not_freeSpan_emptyPool hpos hspan).elim
    constructor
    · intro a
      constructor
      · intro ha
        refine ⟨hsearch.1 a ha, fun b hb => ?_⟩
        obtain ⟨a', ha', hle⟩ := hsearch.2 b hb
        rw [ha] at ha'
        cases ha'
        exact hle
      · intro ⟨hfits, hleast⟩
        obtain ⟨a', ha', hle⟩ := hsearch.2 a hfits
        rw [ha', le_antisymm hle (hleast a' (hsearch.1 a' ha'))]
    · constructor
      · intro hnone b hb
        obtain ⟨a', ha', -⟩ := hsearch.2 b hb
        rw [hnone] at ha'
        cases ha'
      · intro hnot
        cases hsome : answer.2 with
        | none => rfl
        | some a => exact (hnot a (hsearch.1 a hsome)).elim
  · intro hpower hunit hlen
    have hmax : max align directAlign = align := max_eq_left hunit
    rcases (reachable_tidy_or_empty shape size calls).2 with ⟨hpositive, htidy⟩ | hempty
    · have hbound : ∀ r ∈ m.regions, r.stop < bound := fun r hr =>
        lt_of_le_of_lt (reachable_below shape hpositive calls r hr) hsize
      have hspec := alignedStart_spec htidy hbound (ne_zero_of_isPowerOfTwo hpower) hlen 0
      rw [allocateAlignedFrom_answer htidy hbound hlen (by rw [hmax]; exact hpower), hmax,
        ← exists_room_iff hbound hpower hlen, Option.isSome_iff_exists]
      constructor
      · intro ⟨a, ha⟩
        exact ⟨a, (hspec.1 a ha).2⟩
      · intro ⟨b, hdvd, hroom⟩
        obtain ⟨a, ha, -⟩ := hspec.2 b (Nat.zero_le b) hdvd hroom
        exact ⟨a, ha⟩
    · have hm : m = ⟨[free 0 0]⟩ := hempty
      obtain ⟨hnone, hlargest⟩ := emptyPool_answers 0 len align memoryType
      have := le_rounded len
      rw [hm, hnone, hlargest]
      constructor
      · intro hsome
        cases hsome
      · intro hle
        omega

/-- A request in a pool of two regions, with the reported size met. -/
theorem allocateAlignedFrom_least_fragmented :
    (allocateAlignedFrom (directMap.after (DirectMemory.withShape 0x100000 .fragmented) []) 0
        0x70000 0x20000 0).2.isSome = true ↔
      rounded 0x70000 ≤
        largestFreeAt (directMap.after (DirectMemory.withShape 0x100000 .fragmented) []) 0x20000 :=
  (allocateAlignedFrom_least .fragmented 0x100000 (by decide) [] 0 0x70000 0x20000 0).2.2.2
    (by decide) (by decide) (by decide)

/-- An alignment that is no power of two is refused, with room at address zero; so is a request of no
bytes; and a request for the size reported is refused where the pool ends inside a unit. -/
theorem allocateAlignedFrom_refusals :
    (¬ ∀ (shape : MapShape) (size : Nat) (calls : List Call) (searchStart len align a : Nat)
        (memoryType : UInt32), size < bound →
      let m := directMap.after (DirectMemory.withShape size shape) calls
      searchStart ≤ a → max align directAlign ∣ a → FreeSpan m.regions a (rounded len) →
        (allocateAlignedFrom m searchStart len align memoryType).2 ≠ none) ∧
    ¬ ∀ (shape : MapShape) (size : Nat) (calls : List Call) (len align : Nat) (memoryType : UInt32),
      size < bound →
      let m := directMap.after (DirectMemory.withShape size shape) calls
      len ≤ largestFreeAt m align → (allocateAlignedFrom m 0 len align memoryType).2 ≠ none := by
  constructor
  · intro h
    apply h .whole 0x10000 [] 0 1 49152 0 0 (by decide) (le_refl _) (Dvd.intro 0 rfl) _ (by decide)
    intro x _ hx
    exact ⟨free 0 0x10000, List.mem_cons_self, rfl, Nat.zero_le x, lt_trans hx (by decide)⟩
  · intro h
    exact h .whole 20000 [] 20000 16384 0 (by decide) (by decide) (by decide +kernel)

end Orbistoun.Kernel.Direct
