import Orbistoun.Kernel.Pool

/-! # Runs of a memory pool

Over whole runs of a guest's calls every reservation of the pool stays a region of the address
space that no unmap releases, so none is recorded over another, and the bytes counted are
those committed. A call that is refused leaves the pool as it was, except where the host refuses
to take access away from what was dropped.
-/

namespace Orbistoun.Kernel.Pool

open Std (TreeMap)
open Orbistoun.Lib
open Orbistoun.Lib.MapTotal
open Orbistoun.Lib.U64
open Orbistoun.Mem.Space (AddressSpace MemError Protection Region)
open Orbistoun.Mem.Space.AddressSpace (Sound protect_regions release_cases reserve_cases
  owns_eq_scan mem_regionList)

/-! ## Reservations in the address space -/

/-- The length of the region that starts at a base. -/
def lengthAt (s : AddressSpace) (base : Nat) : Option Nat := (s.regions[base]?).map Region.len

theorem lengthAt_congr {s s' : AddressSpace} (h : s'.regions = s.regions) (base : Nat) :
    lengthAt s' base = lengthAt s base := by
  unfold lengthAt
  rw [h]

/-- Every reservation of the pool is a region of its length, and not a mapping an unmap may
release; each of those starts a region too. -/
structure Standing (w : World) : Prop where
  sound : Sound w.space
  reserved : ∀ (base : Nat) (r : Reservation), w.pool.reservations[base]? = some r →
    lengthAt w.space base = some r.len ∧ w.placed[base]? = none
  placed : ∀ base : Nat, (w.placed[base]?).isSome → (lengthAt w.space base).isSome

structure Takes (s s' : AddressSpace) (base len : Nat) : Prop where
  free : lengthAt s base = none
  sound : Sound s'
  taken : lengthAt s' base = some len
  others : ∀ k : Nat, base ≠ k → lengthAt s' k = lengthAt s k

theorem Takes.of_regions_eq {s s₁ s' : AddressSpace} {base len : Nat} (h : Takes s₁ s' base len)
    (hsame : s₁.regions = s.regions) : Takes s s' base len := by
  constructor
  · rw [← lengthAt_congr hsame]
    exact h.free
  · exact h.sound
  · exact h.taken
  · intro k hne
    rw [h.others k hne]
    exact lengthAt_congr hsame k

/-- A region taken leaves those there were. -/
theorem Takes.kept {s s' : AddressSpace} {base len k l : Nat} (h : Takes s s' base len)
    (hk : lengthAt s k = some l) : lengthAt s' k = some l := by
  by_cases heq : base = k
  · rw [← heq, h.free] at hk
    cases hk
  · rw [h.others k heq, hk]

theorem Takes.stays {s s' : AddressSpace} {base len k : Nat} (h : Takes s s' base len)
    (hk : (lengthAt s k).isSome) : (lengthAt s' k).isSome := by
  obtain ⟨l, hl⟩ := Option.isSome_iff_exists.mp hk
  rw [h.kept hl]
  rfl

theorem reserve_takes {s : AddressSpace} (hs : Sound s) {base : Nat} (hbase : base < bound)
    (len : Nat) (protection : Protection) (host : Except MemError Unit) :
    ((∃ e, (s.reserve base len protection host).1 = .error e) ∧
        (s.reserve base len protection host).2.regions = s.regions) ∨
      (∃ r, (s.reserve base len protection host).1 = .ok r) ∧
        Takes s (s.reserve base len protection host).2 base len := by
  rcases reserve_cases hs base len protection host with hsame | ⟨hok, hfree, hsound, hregions⟩
  · exact .inl hsame
  · refine .inr ⟨hok, ?_, hsound hbase, ?_, ?_⟩
    · unfold lengthAt
      rw [hfree]
      rfl
    · unfold lengthAt
      rw [hregions]
      simp
    · intro k hne
      unfold lengthAt
      rw [hregions]
      simp only [TreeMap.getElem?_insert, Nat.compare_eq_eq]
      rw [if_neg hne]

theorem owns_congr {s s' : AddressSpace} (h : s'.regions = s.regions) (base len : Nat) :
    s'.owns base len = s.owns base len := by
  unfold AddressSpace.owns
  rw [h]

/-- Access to ranges of the space is taken away exactly where the host takes it away from each. -/
theorem protectEach_iff {protecting : Nat → Except MemError Unit} {granules : List Nat}
    {s : AddressSpace} (howns : ∀ g ∈ granules, s.owns g GRANULE = true) :
    (protectEach protecting granules s).1 = true ↔ ∀ g ∈ granules, protecting g = .ok () := by
  induction granules generalizing s with
  | nil => exact iff_of_true rfl (fun _ h => absurd h List.not_mem_nil)
  | cons g granules ih =>
      have hone := howns g List.mem_cons_self
      have hregions := protect_regions s g GRANULE NO_ACCESS (protecting g)
      unfold protectEach
      cases hhost : protecting g with
      | error e =>
          have hrefused : (s.protect g GRANULE NO_ACCESS (.error e)).1 = .error e := by
            simp [AddressSpace.protect, hone]
          rw [hhost] at hregions
          generalize s.protect g GRANULE NO_ACCESS (.error e) = answered at hrefused hregions
          obtain ⟨answer, space⟩ := answered
          cases hrefused
          refine iff_of_false Bool.false_ne_true (fun hall => ?_)
          rw [hall g List.mem_cons_self] at hhost
          cases hhost
      | ok u =>
          have hgranted : (s.protect g GRANULE NO_ACCESS (.ok u)).1 = .ok () := by
            simp [AddressSpace.protect, hone]
          rw [hhost] at hregions
          generalize s.protect g GRANULE NO_ACCESS (.ok u) = answered at hgranted hregions
          obtain ⟨answer, space⟩ := answered
          cases hgranted
          have hrest := ih (s := space) (fun g' hg' =>
            (owns_congr hregions g' GRANULE).trans (howns g' (List.mem_cons_of_mem _ hg')))
          dsimp only
          rw [hrest, List.forall_mem_cons, hhost]
          exact (and_iff_right rfl).symm

theorem protectEach_regions (protecting : Nat → Except MemError Unit) (granules : List Nat)
    (s : AddressSpace) : (protectEach protecting granules s).2.regions = s.regions := by
  induction granules generalizing s with
  | nil => rfl
  | cons g granules ih =>
      unfold protectEach
      have hone := protect_regions s g GRANULE NO_ACCESS (protecting g)
      split
      · next space heq =>
        rw [heq] at hone
        exact hone
      · next space heq =>
        rw [heq] at hone
        rw [ih, hone]

theorem backed_regions (s : AddressSpace) (addr len prot : Nat) (newly : List Nat)
    (opened closed : Except MemError Unit) :
    (backed s addr len prot newly opened closed).2.regions = s.regions := by
  have hopen := protect_regions s addr len READ_WRITE opened
  unfold backed
  split
  · next space heq =>
    rw [heq] at hopen
    exact hopen
  · next space heq =>
    rw [heq] at hopen
    have hclose := protect_regions space addr len (protectionFromGuest prot) closed
    split
    · split
      · next space' heq' =>
        rw [heq'] at hclose
        exact hclose.trans hopen
      · next space' heq' =>
        rw [heq'] at hclose
        exact hclose.trans hopen
    · exact hopen

theorem placeNext_takes {s : AddressSpace} (hs : Sound s) (env : Surroundings)
    (len align tries : Nat) :
    ((placeNext env len align tries s).1 = none ∧
        (placeNext env len align tries s).2.regions = s.regions) ∨
      ∃ base, (placeNext env len align tries s).1 = some base ∧
        Takes s (placeNext env len align tries s).2 base len := by
  induction tries generalizing s with
  | zero => exact .inl ⟨rfl, rfl⟩
  | succ tries ih =>
      unfold placeNext
      split
      · exact .inl ⟨rfl, rfl⟩
      · next next hnext =>
        have htakes := reserve_takes hs (checkedNextMultipleOf_lt hnext) len NO_ACCESS
          (env.reserving next len)
        split
        · next r space heq =>
          rw [heq] at htakes
          rcases htakes with ⟨⟨e, he⟩, _⟩ | ⟨_, htaken⟩
          · cases he
          · exact .inr ⟨next, rfl, htaken⟩
        · next e space heq =>
          rw [heq] at htakes
          rcases htakes with ⟨_, hsame⟩ | ⟨⟨r, hr⟩, _⟩
          · have hsame' : space.regions = s.regions := hsame
            rcases ih (hs.of_regions_eq hsame') with ⟨hnone, hregions⟩ | ⟨base, hbase, htaken⟩
            · exact .inl ⟨hnone, hregions.trans hsame'⟩
            · exact .inr ⟨base, hbase, htaken.of_regions_eq hsame'⟩
          · cases hr

theorem placeAnywhere_takes {s : AddressSpace} (hs : Sound s) {env : Surroundings}
    (hword : ∀ free, env.firstFree = some free → free < bound) (hint len align : Nat) :
    ((placeAnywhere env hint len align s).1 = none ∧
        (placeAnywhere env hint len align s).2.regions = s.regions) ∨
      ∃ base, (placeAnywhere env hint len align s).1 = some base ∧
        Takes s (placeAnywhere env hint len align s).2 base len := by
  unfold placeAnywhere
  split
  · exact placeNext_takes hs env len align CONFLICT_RETRIES
  · next free hfree =>
    have hfree' : env.firstFree = some free := by
      split at hfree
      · exact hfree
      · cases hfree
    have htakes := reserve_takes hs (hword free hfree') len NO_ACCESS (env.reserving free len)
    split
    · next r space heq =>
      rw [heq] at htakes
      rcases htakes with ⟨⟨e, he⟩, _⟩ | ⟨_, htaken⟩
      · cases he
      · exact .inr ⟨free, rfl, htaken⟩
    · next e space heq =>
      rw [heq] at htakes
      rcases htakes with ⟨_, hsame⟩ | ⟨⟨r, hr⟩, _⟩
      · have hsame' : space.regions = s.regions := hsame
        rcases placeNext_takes (hs.of_regions_eq hsame') env len align CONFLICT_RETRIES with
          ⟨hnone, hregions⟩ | ⟨base, hbase, htaken⟩
        · exact .inl ⟨hnone, hregions.trans hsame'⟩
        · exact .inr ⟨base, hbase, htaken.of_regions_eq hsame'⟩
      · cases hr

def Leaves (s : AddressSpace) : Placing × AddressSpace → Prop
  | (.refused _, space) => space.regions = s.regions
  | (.onto _, space) => space = s
  | (.placed base len, space) => Takes s space base len

theorem placing_leaves {w : World} (hs : Sound w.space) {hint : Nat} (hhint : hint < bound)
    {env : Surroundings} (hword : ∀ free, env.firstFree = some free → free < bound)
    (len align flags out : Nat) : Leaves w.space (placing w hint len align flags out env) := by
  unfold placing
  split
  · rfl
  · split
    · rfl
    · split
      · rfl
      · split
        · rfl
        · dsimp only
          split
          · rfl
          · next len' _ =>
            split
            · split
              · rfl
              · split
                · rfl
                · have htakes := reserve_takes hs hhint len' NO_ACCESS (env.reserving hint len')
                  split
                  · next e space heq =>
                    rw [heq] at htakes
                    rcases htakes with ⟨_, hsame⟩ | ⟨⟨r, hr⟩, _⟩
                    · exact hsame
                    · cases hr
                  · next r space heq =>
                    rw [heq] at htakes
                    rcases htakes with ⟨⟨e, he⟩, _⟩ | ⟨_, htaken⟩
                    · cases he
                    · exact htaken
            · have htakes := placeAnywhere_takes hs hword hint len' (max (max align GRANULE) env.slotUnit)
              split
              · next space heq =>
                rw [heq] at htakes
                rcases htakes with ⟨_, hsame⟩ | ⟨base, hbase, _⟩
                · exact hsame
                · cases hbase
              · next base space heq =>
                rw [heq] at htakes
                rcases htakes with ⟨hnone, _⟩ | ⟨base', hbase, htaken⟩
                · cases hnone
                · cases hbase
                  exact htaken

/-! ## Standing kept -/

/-- The reservations of `q` are at bases `p` has reservations at, and as long. -/
def Covers (p q : Pool) : Prop :=
  ∀ (base : Nat) (r : Reservation), q.reservations[base]? = some r →
    ∃ held, p.reservations[base]? = some held ∧ held.len = r.len

theorem covers_refl (p : Pool) : Covers p p := fun _ r h => ⟨r, h, rfl⟩

theorem Covers.trans {p q r : Pool} (h : Covers p q) (h' : Covers q r) : Covers p r := by
  intro base r₃ h₃
  obtain ⟨r₂, h₂, hlen₂⟩ := h' base r₃ h₃
  obtain ⟨r₁, h₁, hlen₁⟩ := h base r₂ h₂
  exact ⟨r₁, h₁, hlen₁.trans hlen₂⟩

theorem covers_insert {p q : Pool} {base : Nat} {held : Reservation} {granules : Finset Nat}
    (hheld : p.reservations[base]? = some held)
    (hq : q.reservations = p.reservations.insert base { held with committed := granules }) :
    Covers p q := by
  intro k r hr
  rw [hq, TreeMap.getElem?_insert] at hr
  simp only [Nat.compare_eq_eq] at hr
  split at hr
  · next heq =>
    cases hr
    rw [← heq]
    exact ⟨held, hheld, rfl⟩
  · exact ⟨r, hr, rfl⟩

theorem commit_covers {p q : Pool} {addr len : Nat} {newly : List Nat}
    (h : p.commit addr len = .ok (newly, q)) : Covers p q := by
  obtain ⟨base, held, hholder, -, -, -, -, rfl⟩ := commit_ok h
  exact covers_insert (holder_some hholder).1 rfl

theorem decommit_covers {p q : Pool} {addr len : Nat} {dropped : List Nat}
    (h : p.decommit addr len = .ok (dropped, q)) : Covers p q := by
  obtain ⟨base, held, hholder, -, rfl, -, -⟩ := decommit_ok h
  exact covers_insert (holder_some hholder).1 rfl

theorem replace_covers {p q : Pool} {base len : Nat} {dropped : List Nat}
    (h : p.replace base len = some (dropped, q)) : Covers p q := by
  obtain ⟨held, hget, -, -, rfl⟩ := replace_some h
  exact covers_insert hget rfl

/-- What changes no region and adds no reservation keeps every reservation standing. -/
theorem Standing.of_same {w w' : World} (h : Standing w)
    (hregions : w'.space.regions = w.space.regions) (hpool : Covers w.pool w'.pool)
    (hplaced : w'.placed = w.placed) : Standing w' := by
  constructor
  · exact h.sound.of_regions_eq hregions
  · intro base r hr
    obtain ⟨held, hheld, hlen⟩ := hpool base r hr
    rw [lengthAt_congr hregions, hplaced, ← hlen]
    exact h.reserved base held hheld
  · intro base hbase
    rw [hplaced] at hbase
    rw [lengthAt_congr hregions]
    exact h.placed base hbase

/-- One more region keeps the others standing. -/
theorem Standing.takes {w w' : World} (h : Standing w) {base len : Nat}
    (htakes : Takes w.space w'.space base len) (hpool : w'.pool = w.pool)
    (hplaced : w'.placed = w.placed) : Standing w' := by
  constructor
  · exact htakes.sound
  · intro k r hr
    rw [hpool] at hr
    obtain ⟨hregion, hnone⟩ := h.reserved k r hr
    rw [hplaced]
    exact ⟨htakes.kept hregion, hnone⟩
  · intro k hk
    rw [hplaced] at hk
    exact htakes.stays (h.placed k hk)

/-- Where no region starts there is no reservation, and no mapping to release. -/
theorem Standing.nothing_at {w : World} (h : Standing w) {base : Nat}
    (hfree : lengthAt w.space base = none) :
    w.pool.reservations[base]? = none ∧ w.placed[base]? = none := by
  constructor
  · by_contra hsome
    obtain ⟨r, hr⟩ := Option.ne_none_iff_exists'.mp hsome
    have hregion := (h.reserved base r hr).1
    rw [hfree] at hregion
    cases hregion
  · by_contra hsome
    have hregion := h.placed base (Option.isSome_iff_ne_none.mpr hsome)
    rw [hfree] at hregion
    cases hregion

/-- A reservation recorded where a region was just taken stands. -/
theorem Standing.reserved_at {w : World} (h : Standing w) {space : AddressSpace} {base len : Nat}
    (htakes : Takes w.space space base len) :
    Standing { w with pool := w.pool.reserve base len, space := space } := by
  constructor
  · exact htakes.sound
  · intro k r hr
    by_cases heq : base = k
    · have hr' : r = ⟨len, ∅⟩ := by
        have hget : some (⟨len, ∅⟩ : Reservation) = some r := by
          simpa [Pool.reserve, TreeMap.getElem?_insert, heq] using hr
        exact (Option.some.inj hget).symm
      rw [← heq, hr']
      exact ⟨htakes.taken, (h.nothing_at htakes.free).2⟩
    · have hold : w.pool.reservations[k]? = some r := by
        simpa [Pool.reserve, TreeMap.getElem?_insert, heq] using hr
      obtain ⟨hregion, hnone⟩ := h.reserved k r hold
      exact ⟨htakes.kept hregion, hnone⟩
  · intro k hk
    exact htakes.stays (h.placed k hk)

theorem Standing.map_at {w : World} (h : Standing w) {space : AddressSpace} {base len : Nat}
    (htakes : Takes w.space space base len) :
    Standing { w with space := space, placed := w.placed.insert base len } := by
  have hget : ∀ k : Nat, (w.placed.insert base len)[k]? =
      if base = k then some len else w.placed[k]? := by
    intro k
    simp only [TreeMap.getElem?_insert, Nat.compare_eq_eq]
  constructor
  · exact htakes.sound
  · intro k r hr
    obtain ⟨hregion, hnone⟩ := h.reserved k r hr
    refine ⟨htakes.kept hregion, ?_⟩
    show (w.placed.insert base len)[k]? = none
    rw [hget, if_neg]
    · exact hnone
    · rintro rfl
      rw [htakes.free] at hregion
      cases hregion
  · intro k hk
    have hk' : ((w.placed.insert base len)[k]?).isSome := hk
    rw [hget] at hk'
    split at hk'
    · next heq =>
      rw [← heq]
      exact htakes.taken ▸ rfl
    · exact htakes.stays (h.placed k hk')

/-- A region released where no reservation is and no mapping stays leaves the others. -/
theorem Standing.release_at {w : World} (h : Standing w) {base : Nat} {s' : AddressSpace}
    (hs' : s'.regions = w.space.regions.erase base)
    (hfree : w.pool.reservations[base]? = none) {placed : TreeMap Nat Nat}
    (hplaced : ∀ k : Nat, (placed[k]?).isSome → base ≠ k ∧ (w.placed[k]?).isSome) :
    Standing { w with space := s', placed := placed } := by
  have hget : ∀ k : Nat, base ≠ k → lengthAt s' k = lengthAt w.space k := by
    intro k hne
    unfold lengthAt
    rw [hs']
    simp only [TreeMap.getElem?_erase, Nat.compare_eq_eq]
    rw [if_neg hne]
  constructor
  · exact h.sound.erase hs'
  · intro k r hr
    obtain ⟨hregion, hnone⟩ := h.reserved k r hr
    have hne : base ≠ k := by
      rintro rfl
      have hr' : w.pool.reservations[base]? = some r := hr
      rw [hfree] at hr'
      cases hr'
    constructor
    · exact (hget k hne).trans hregion
    · by_contra hsome
      have hstill := (hplaced k (Option.isSome_iff_ne_none.mpr hsome)).2
      rw [hnone] at hstill
      cases hstill
  · intro k hk
    obtain ⟨hne, hold⟩ := hplaced k hk
    show (lengthAt s' k).isSome
    rw [hget k hne]
    exact h.placed k hold

theorem releaseOne_standing {w : World} (h : Standing w) (viewed : Nat → Bool) {e : Nat × Nat}
    (hfree : w.pool.reservations[e.1]? = none) :
    Standing (releaseOne viewed w e) ∧ (releaseOne viewed w e).pool = w.pool := by
  unfold releaseOne
  split
  · exact ⟨h, rfl⟩
  · rcases release_cases w.space e.1 e.2 with hnot | hdone
    · rw [hnot]
      exact ⟨h, rfl⟩
    · rw [hdone]
      refine ⟨h.release_at rfl hfree fun k hk => ?_, rfl⟩
      simp only [TreeMap.getElem?_erase, Nat.compare_eq_eq] at hk
      split at hk
      · cases hk
      · next hne => exact ⟨hne, hk⟩

theorem foldl_releaseOne_standing {w : World} (h : Standing w) (viewed : Nat → Bool)
    {es : List (Nat × Nat)} (hfree : ∀ e ∈ es, w.pool.reservations[e.1]? = none) :
    Standing (es.foldl (releaseOne viewed) w) ∧ (es.foldl (releaseOne viewed) w).pool = w.pool := by
  induction es generalizing w with
  | nil => exact ⟨h, rfl⟩
  | cons e es ih =>
      obtain ⟨hone, hpool⟩ := releaseOne_standing h viewed (hfree e List.mem_cons_self)
      have hrest : ∀ e' ∈ es, (releaseOne viewed w e).pool.reservations[e'.1]? = none := by
        intro e' he'
        rw [hpool]
        exact hfree e' (List.mem_cons_of_mem e he')
      obtain ⟨hall, hpool'⟩ := ih hone hrest
      exact ⟨hall, hpool'.trans hpool⟩

theorem munmap_standing {w : World} (h : Standing w)
    {walk : List (Nat × Nat) → List (Nat × Nat)} (hwalk : ∀ l, (walk l).Perm l)
    (viewed : Nat → Bool) (address len : Nat) :
    Standing (munmap walk viewed w address len).1 ∧
      (munmap walk viewed w address len).1.pool = w.pool := by
  unfold munmap
  split
  · exact ⟨h, rfl⟩
  · unfold releaseMapping
    dsimp only
    split
    · exact ⟨h, rfl⟩
    · apply foldl_releaseOne_standing h
      intro e he
      have hmem := (hwalk _).mem_iff.mp (List.mem_of_mem_filter he)
      have hplaced : w.placed[e.1]? = some e.2 := Nearest.mem_toList.mp hmem
      by_contra hsome
      obtain ⟨r, hr⟩ := Option.ne_none_iff_exists'.mp hsome
      have hnone := (h.reserved e.1 r hr).2
      rw [hplaced] at hnone
      cases hnone

theorem map_standing {w : World} (h : Standing w) {base : Nat} (hbase : base < bound) (len : Nat)
    (protection : Protection) (host : Except MemError Unit) (filled : Bool) :
    Standing (map w base len protection host filled).1 ∧
      (map w base len protection host filled).1.pool = w.pool := by
  have htakes := reserve_takes h.sound hbase len protection host
  unfold map
  split
  · next e space heq =>
    rw [heq] at htakes
    rcases htakes with ⟨_, hsame⟩ | ⟨⟨r, hr⟩, _⟩
    · exact ⟨h.of_same hsame (covers_refl _) rfl, rfl⟩
    · cases hr
  · next r space heq =>
    rw [heq] at htakes
    rcases htakes with ⟨⟨e, he⟩, _⟩ | ⟨_, htaken⟩
    · cases he
    · have htaken' : Takes w.space space base len := htaken
      split
      · exact ⟨h.map_at htaken', rfl⟩
      · -- The region just taken goes again.
        have hheld : Standing { w with space := space } := h.takes htaken' rfl rfl
        obtain ⟨hfree, hnone⟩ := h.nothing_at htaken'.free
        rcases release_cases space base len with hnot | hdone
        · rw [hnot]
          exact ⟨hheld, rfl⟩
        · rw [hdone]
          refine ⟨hheld.release_at rfl hfree fun k hk => ⟨?_, hk⟩, rfl⟩
          rintro rfl
          have hk' : (w.placed[base]?).isSome := hk
          rw [hnone] at hk'
          cases hk'

theorem hold_standing {w : World} (h : Standing w) {base : Nat} (hbase : base < bound) (len : Nat)
    (protection : Protection) (host : Except MemError Unit) :
    Standing (hold w base len protection host).1 ∧
      (hold w base len protection host).1.pool = w.pool := by
  have htakes := reserve_takes h.sound hbase len protection host
  unfold hold
  split
  · next e space heq =>
    rw [heq] at htakes
    rcases htakes with ⟨_, hsame⟩ | ⟨⟨r, hr⟩, _⟩
    · exact ⟨h.of_same hsame (covers_refl _) rfl, rfl⟩
    · cases hr
  · next r space heq =>
    rw [heq] at htakes
    rcases htakes with ⟨⟨e, he⟩, _⟩ | ⟨_, htaken⟩
    · cases he
    · exact ⟨h.takes htaken rfl rfl, rfl⟩

theorem protect_standing {w : World} (h : Standing w) (base len : Nat) (protection : Protection)
    (host : Except MemError Unit) :
    Standing (protect w base len protection host).1 ∧
      (protect w base len protection host).1.pool = w.pool := by
  have hregions := protect_regions w.space base len protection host
  unfold protect
  split
  · next e space heq =>
    rw [heq] at hregions
    exact ⟨h.of_same hregions (covers_refl _) rfl, rfl⟩
  · next r space heq =>
    rw [heq] at hregions
    exact ⟨h.of_same hregions (covers_refl _) rfl, rfl⟩

theorem expand_standing {w : World} (h : Standing w)
    (searchStart searchEnd len align out : Nat) :
    Standing (expand w searchStart searchEnd len align out).1 := by
  unfold expand
  split
  · exact h
  · split
    · exact h
    · split
      · exact h.of_same rfl (covers_refl _) rfl
      · split
        · exact h.of_same rfl (covers_refl _) rfl
        · exact h.of_same rfl (covers_refl _) rfl

theorem commit_standing {w : World} (h : Standing w) (addr len prot flags : Nat)
    (opened closed : Except MemError Unit) :
    Standing (commit w addr len prot flags opened closed).1 := by
  unfold commit
  split
  · exact h
  · split
    · exact h
    · next newly pool hcommit =>
      have hcovers := commit_covers hcommit
      have hregions := backed_regions w.space addr len prot newly opened closed
      split
      · next space heq =>
        rw [heq] at hregions
        exact h.of_same hregions hcovers rfl
      · next space heq =>
        rw [heq] at hregions
        split
        · exact h.of_same hregions hcovers rfl
        · next dropped pool' hback =>
          exact h.of_same hregions (hcovers.trans (decommit_covers hback)) rfl

theorem decommit_standing {w : World} (h : Standing w) (addr len flags : Nat)
    (protecting : Nat → Except MemError Unit) :
    Standing (decommit w addr len flags protecting).1 := by
  unfold decommit
  split
  · exact h
  · split
    · exact h
    · next dropped pool hdecommit =>
      have hregions := protectEach_regions protecting dropped w.space
      split
      · next space heq =>
        rw [heq] at hregions
        exact h.of_same hregions (decommit_covers hdecommit) rfl
      · next space heq =>
        rw [heq] at hregions
        exact h.of_same hregions (decommit_covers hdecommit) rfl

theorem reserve_standing {w : World} (h : Standing w) {hint : Nat} (hhint : hint < bound)
    {env : Surroundings} (hword : ∀ free, env.firstFree = some free → free < bound)
    (len align flags out : Nat) : Standing (reserve w hint len align flags out env).1 := by
  have htakes := placing_leaves h.sound hhint hword len align flags out
  unfold reserve
  split
  · next status space heq =>
    rw [heq] at htakes
    exact h.of_same htakes (covers_refl _) rfl
  · next len' space heq =>
    rw [heq] at htakes
    have hspace : space = w.space := htakes
    subst hspace
    split
    · exact h.of_same rfl (covers_refl _) rfl
    · next dropped pool hreplace =>
      have hregions := protectEach_regions env.protecting dropped w.space
      split
      · next space' heq' =>
        rw [heq'] at hregions
        exact h.of_same hregions (replace_covers hreplace) rfl
      · next space' heq' =>
        rw [heq'] at hregions
        exact h.of_same hregions (replace_covers hreplace) rfl
  · next base len' space heq =>
    rw [heq] at htakes
    exact h.reserved_at htakes

/-- Addresses are words, and a hash map is walked over what it holds. -/
def Call.Word : Call → Prop
  | .reserve hint _ _ _ _ env => hint < bound ∧ ∀ free, env.firstFree = some free → free < bound
  | .map base _ _ _ _ => base < bound
  | .hold base _ _ _ => base < bound
  | .munmap walk _ _ _ => ∀ l, (walk l).Perm l
  | _ => True

theorem step_standing {w : World} (h : Standing w) {call : Call} (hword : call.Word) :
    Standing (step w call).1 := by
  cases call with
  | expand searchStart searchEnd len align out =>
      exact expand_standing h searchStart searchEnd len align out
  | reserve hint len align flags out env =>
      exact reserve_standing h hword.1 hword.2 len align flags out
  | commit addr len prot flags opened closed =>
      exact commit_standing h addr len prot flags opened closed
  | decommit addr len flags protecting => exact decommit_standing h addr len flags protecting
  | map base len protection host filled => exact (map_standing h hword len protection host filled).1
  | hold base len protection host => exact (hold_standing h hword len protection host).1
  | protect base len protection host => exact (protect_standing h base len protection host).1
  | munmap walk viewed address len => exact (munmap_standing h hword viewed address len).1
  | physical map => exact h.of_same rfl (covers_refl _) rfl

/-! ## What is told to the pool and refused after it -/

/-- A fixed reserve is of exactly a range the pool holds. -/
structure Lands (w : World) (hint len align flags out slotUnit : Nat) (held : Reservation) :
    Prop where
  nonempty : len ≠ 0
  out : out ≠ 0
  known : flags &&& (bound - 1 - MAP_FIXED) = 0
  fixed : flags &&& MAP_FIXED ≠ 0
  power : align = 0 ∨ isPowerOfTwo align = true
  aligned : hint % max (max align GRANULE) slotUnit = 0
  exact : w.pool.reservations[hint]? = some held
  rounded : checkedNextMultipleOf len GRANULE = some held.len

/-- The host takes access away from every committed granule the pool is told to drop. -/
def Settles (w : World) : Call → Prop
  | .reserve hint len align flags out env => ∀ held,
      Lands w hint len align flags out env.slotUnit held →
        ∀ g ∈ held.committed, env.protecting g = .ok ()
  | .decommit addr len flags protecting => flags = 0 → GRANULE ≤ len → granular addr len = true →
      ∀ base held, w.pool.holder addr len = some (base, held) →
        ∀ g ∈ granules addr len, g ∈ held.committed → protecting g = .ok ()
  | _ => True

inductive Does (w : World) (call : Call) (p : Pool) (status : Status) : Prop
  | nothing (h : p = w.pool) (hsettles : Settles w call)
  | expanded (len : Nat) (h : p = w.pool.expand len) (hok : status = .ok)
      (hsettles : Settles w call)
  | replaced (base len : Nat) (dropped : List Nat) (h : w.pool.replace base len = some (dropped, p))
      (hsome : status ≠ .ok → dropped ≠ []) (hsettles : Settles w call ↔ status = .ok)
  | reserved (base len : Nat) (h : p = w.pool.reserve base len)
      (hnew : w.pool.reservations[base]? = none) (hok : status = .ok) (hsettles : Settles w call)
  | committed (addr len : Nat) (newly : List Nat) (h : w.pool.commit addr len = .ok (newly, p))
      (hok : status = .ok) (hsettles : Settles w call)
  | handedBack (addr len : Nat) (newly dropped : List Nat) (q : Pool)
      (h : w.pool.commit addr len = .ok (newly, q)) (hback : q.decommit addr len = .ok (dropped, p))
      (hsettles : Settles w call)
  | decommitted (addr len : Nat) (dropped : List Nat)
      (h : w.pool.decommit addr len = .ok (dropped, p))
      (hsome : status ≠ .ok → dropped ≠ []) (hsettles : Settles w call ↔ status = .ok)

/-- The granules of a reservation are the guest's own memory. -/
theorem Standing.owns {w : World} (h : Standing w) (haccounted : Accounted w.pool) {base : Nat}
    {held : Reservation} (hheld : w.pool.reservations[base]? = some held) {g : Nat}
    (hg : g ∈ held.committed) : w.space.owns g GRANULE = true := by
  obtain ⟨hlow, hhigh⟩ := haccounted.inside base held hheld g hg
  obtain ⟨r, hr, hlen⟩ := Option.map_eq_some_iff.mp (h.reserved base held hheld).1
  have hbase : r.base = base := h.sound.keyed hr
  rw [owns_eq_scan h.sound, List.any_eq_true]
  refine ⟨r, mem_regionList.mpr ⟨base, hr⟩, ?_⟩
  have hstop : saturatingAdd g GRANULE ≤ r.stop := by
    unfold Region.stop saturatingAdd
    omega
  simp [hbase, hlow, hstop]

theorem expand_does (w : World) (searchStart searchEnd len align out : Nat) :
    Does w (.expand searchStart searchEnd len align out)
      (expand w searchStart searchEnd len align out).1.pool
      (expand w searchStart searchEnd len align out).2 := by
  unfold expand
  split
  · exact .nothing rfl trivial
  · split
    · exact .nothing rfl trivial
    · split
      · exact .nothing rfl trivial
      · split
        · exact .nothing rfl trivial
        · refine .expanded len rfl ?_ trivial
          split
          · rfl
          · next hout => exact written_of_ne hout

theorem Lands.replace {w : World} {hint len align flags out slotUnit : Nat} {held : Reservation}
    (h : Lands w hint len align flags out slotUnit held) :
    ∃ pool, w.pool.replace hint held.len = some (held.committed.sort, pool) := by
  unfold Pool.replace
  rw [h.exact]
  dsimp only
  rw [if_pos rfl]
  exact ⟨_, rfl⟩

theorem Lands.placing {w : World} {hint len align flags out : Nat} {env : Surroundings}
    {held : Reservation} (h : Lands w hint len align flags out env.slotUnit held) :
    placing w hint len align flags out env = (.onto held.len, w.space) := by
  obtain ⟨pool, hreplace⟩ := h.replace
  have hpower : ¬ (align ≠ 0 ∧ (!isPowerOfTwo align) = true) := by
    rintro ⟨hne, hnot⟩
    rcases h.power with hzero | hpow
    · exact hne hzero
    · simp [hpow] at hnot
  unfold Pool.placing
  rw [if_neg h.nonempty, if_neg h.out, if_neg (not_not.mpr h.known), if_neg hpower, h.rounded]
  dsimp only
  rw [if_pos h.fixed, if_neg (not_not.mpr h.aligned), hreplace]
  rfl

theorem lands_of_onto {w : World} {hint len align flags out len' : Nat} {env : Surroundings}
    {space : AddressSpace} (h : placing w hint len align flags out env = (.onto len', space)) :
    ∃ held, Lands w hint len align flags out env.slotUnit held ∧ held.len = len' := by
  unfold Pool.placing at h
  split at h
  · cases h
  · next hlen =>
    split at h
    · cases h
    · next hout =>
      split at h
      · cases h
      · next hknown =>
        split at h
        · cases h
        · next hpower =>
          dsimp only at h
          split at h
          · cases h
          · next rounded hrounded =>
            split at h
            · next hfixed =>
              split at h
              · cases h
              · next haligned =>
                split at h
                · next hsome =>
                  cases h
                  obtain ⟨⟨dropped, pool⟩, hreplace⟩ := Option.isSome_iff_exists.mp hsome
                  obtain ⟨held, hget, hheld, -, -⟩ := replace_some hreplace
                  have hpow : align = 0 ∨ isPowerOfTwo align = true := by
                    by_contra hneither
                    rw [not_or, Bool.not_eq_true] at hneither
                    exact hpower ⟨hneither.1, by simp [hneither.2]⟩
                  refine ⟨held, ?_, hheld⟩
                  exact ⟨hlen, hout, not_not.mp hknown, hfixed, hpow, not_not.mp haligned, hget,
                    hheld ▸ hrounded⟩
                · split at h
                  · cases h
                  · cases h
            · split at h
              · cases h
              · cases h

theorem out_ne_zero_of_placed {w : World} {hint len align flags out base len' : Nat}
    {env : Surroundings} {space : AddressSpace}
    (h : placing w hint len align flags out env = (.placed base len', space)) : out ≠ 0 := by
  rintro rfl
  unfold Pool.placing at h
  split at h
  · cases h
  · cases h

theorem reserve_does {w : World} (h : Standing w) (haccounted : Accounted w.pool) {hint : Nat}
    (hhint : hint < bound) {env : Surroundings}
    (hword : ∀ free, env.firstFree = some free → free < bound) (len align flags out : Nat) :
    Does w (.reserve hint len align flags out env)
      (reserve w hint len align flags out env).1.pool
      (reserve w hint len align flags out env).2 := by
  have hleaves := placing_leaves h.sound hhint hword len align flags out
  unfold reserve
  split
  · next status space heq =>
    refine .nothing rfl (fun held hlands => ?_)
    rw [hlands.placing] at heq
    cases heq
  · next len' space heq =>
    obtain ⟨held, hlands, hlen⟩ := lands_of_onto heq
    obtain ⟨pool, hreplace⟩ := hlands.replace
    rw [hlands.placing] at heq
    cases heq
    rw [hreplace]
    dsimp only
    have howns : ∀ g ∈ held.committed.sort, w.space.owns g GRANULE = true :=
      fun g hg => h.owns haccounted hlands.exact ((Finset.mem_sort _).mp hg)
    have hsettles : Settles w (.reserve hint len align flags out env) ↔
        (protectEach env.protecting held.committed.sort w.space).1 = true := by
      rw [protectEach_iff howns]
      constructor
      · exact fun hall g hg => hall held hlands g ((Finset.mem_sort _).mp hg)
      · intro hall held' hlands' g hg
        rw [Option.some.inj (hlands'.exact.symm.trans hlands.exact)] at hg
        exact hall g ((Finset.mem_sort _).mpr hg)
    split
    · next space' hprotect =>
      refine .replaced hint held.len _ hreplace (fun _ hnil => ?_) (hsettles.trans ?_)
      · rw [hnil] at hprotect
        cases hprotect
      · rw [hprotect]
        simp
    · next space' hprotect =>
      rw [written_of_ne hlands.out]
      refine .replaced hint held.len _ hreplace (fun hne => absurd rfl hne) (hsettles.trans ?_)
      rw [hprotect]
      simp
  · next base len' space heq =>
    have hout := out_ne_zero_of_placed heq
    refine .reserved base len' rfl ?_ (written_of_ne hout) (fun held hlands => ?_)
    · rw [heq] at hleaves
      exact (h.nothing_at (Takes.free hleaves)).1
    · rw [hlands.placing] at heq
      cases heq

theorem commit_does (w : World) (addr len prot flags : Nat) (opened closed : Except MemError Unit) :
    Does w (.commit addr len prot flags opened closed)
      (commit w addr len prot flags opened closed).1.pool
      (commit w addr len prot flags opened closed).2 := by
  unfold commit
  split
  · exact .nothing rfl trivial
  · split
    · exact .nothing rfl trivial
    · next hcommit =>
      split
      · exact .committed addr len _ hcommit rfl trivial
      · obtain ⟨dropped, r, hback⟩ := decommit_of_commit hcommit
        rw [hback]
        exact .handedBack addr len _ dropped _ hcommit hback trivial

/-- A granular range inside a reservation can be decommitted. -/
theorem decommit_ne_error {p : Pool} {addr len base : Nat} {held : Reservation} {e : Refusal}
    (hlen : GRANULE ≤ len) (hgranular : granular addr len = true)
    (hholder : p.holder addr len = some (base, held)) : p.decommit addr len ≠ .error e := by
  unfold Pool.decommit
  rw [if_neg (by simp [hgranular, hlen]), hholder]
  intro hrefused
  cases hrefused

theorem decommit_does {w : World} (h : Standing w) (haccounted : Accounted w.pool)
    (addr len flags : Nat) (protecting : Nat → Except MemError Unit) :
    Does w (.decommit addr len flags protecting) (decommit w addr len flags protecting).1.pool
      (decommit w addr len flags protecting).2 := by
  unfold decommit
  split
  · next hflags => exact .nothing rfl (fun hzero => absurd hzero hflags)
  · next hflags =>
    rw [not_not] at hflags
    split
    · next e hrefused =>
      refine .nothing rfl (fun _ hlen hgranular base held hholder => ?_)
      exact absurd hrefused (decommit_ne_error hlen hgranular hholder)
    · next dropped pool hdecommit =>
      obtain ⟨base, held, hholder, hdropped, -, hlen, hgranular⟩ := decommit_ok hdecommit
      have hmem : ∀ g, g ∈ dropped ↔ g ∈ granules addr len ∧ g ∈ held.committed := by
        intro g
        rw [hdropped, List.mem_filter, decide_eq_true_iff]
      have howns : ∀ g ∈ dropped, w.space.owns g GRANULE = true := fun g hg =>
        h.owns haccounted (holder_some hholder).1 ((hmem g).mp hg).2
      have hsettles : Settles w (.decommit addr len flags protecting) ↔
          (protectEach protecting dropped w.space).1 = true := by
        rw [protectEach_iff howns]
        constructor
        · intro hall g hg
          obtain ⟨hin, hcommitted⟩ := (hmem g).mp hg
          exact hall hflags hlen hgranular base held hholder g hin hcommitted
        · intro hall _ _ _ base' held' hholder' g hin hcommitted
          rw [hholder] at hholder'
          cases hholder'
          exact hall g ((hmem g).mpr ⟨hin, hcommitted⟩)
      split
      · next space hprotect =>
        refine .decommitted addr len dropped hdecommit (fun _ hnil => ?_) (hsettles.trans ?_)
        · rw [hnil] at hprotect
          cases hprotect
        · rw [hprotect]
          simp
      · next space hprotect =>
        refine .decommitted addr len dropped hdecommit (fun hne => absurd rfl hne)
          (hsettles.trans ?_)
        rw [hprotect]
        simp

theorem step_does {w : World} (h : Standing w) (haccounted : Accounted w.pool) {call : Call}
    (hword : call.Word) : Does w call (step w call).1.pool (step w call).2 := by
  cases call with
  | expand searchStart searchEnd len align out =>
      exact expand_does w searchStart searchEnd len align out
  | reserve hint len align flags out env =>
      exact reserve_does h haccounted hword.1 hword.2 len align flags out
  | commit addr len prot flags opened closed =>
      exact commit_does w addr len prot flags opened closed
  | decommit addr len flags protecting => exact decommit_does h haccounted addr len flags protecting
  | map base len protection host filled =>
      exact .nothing (map_standing h hword len protection host filled).2 trivial
  | hold base len protection host =>
      exact .nothing (hold_standing h hword len protection host).2 trivial
  | protect base len protection host =>
      exact .nothing (protect_standing h base len protection host).2 trivial
  | munmap walk viewed address len =>
      exact .nothing (munmap_standing h hword viewed address len).2 trivial
  | physical map => exact .nothing rfl trivial

/-! ## Runs -/

theorem step_accounted {w : World} {call : Call} (h : Accounted w.pool)
    (hcapacity : w.pool.capacity < bound)
    (hdoes : Does w call (step w call).1.pool (step w call).2) :
    Accounted (step w call).1.pool ∧ (step w call).1.pool.capacity < bound := by
  cases hdoes with
  | nothing hp _ =>
      rw [hp]
      exact ⟨h, hcapacity⟩
  | expanded len hp _ _ =>
      have hle : (w.pool.expand len).capacity ≤ bound - 1 := Nat.min_le_right _ _
      have hbound : 0 < bound := by decide
      rw [hp]
      exact ⟨expand_accounted h hcapacity len, by omega⟩
  | replaced base len dropped hp _ _ =>
      obtain ⟨haccounted, hsame⟩ := replace_accounted h hp
      exact ⟨haccounted, by omega⟩
  | reserved base len hp hnew _ _ =>
      rw [hp]
      exact ⟨reserve_accounted h len hnew, hcapacity⟩
  | committed addr len newly hp _ _ =>
      obtain ⟨haccounted, hsame⟩ := commit_accounted h hcapacity hp
      exact ⟨haccounted, by omega⟩
  | handedBack addr len newly dropped q hq hp _ =>
      obtain ⟨haccounted, hsame⟩ := commit_accounted h hcapacity hq
      obtain ⟨hback, hsame'⟩ := decommit_accounted haccounted hp
      exact ⟨hback, by omega⟩
  | decommitted addr len dropped hp _ _ =>
      obtain ⟨haccounted, hsame⟩ := decommit_accounted h hp
      exact ⟨haccounted, by omega⟩

/-- Emptying a reservation of some granules shows in the bytes counted. -/
theorem not_same_replace {p q : Pool} {base len : Nat} {dropped : List Nat} (h : Accounted p)
    (hreplace : p.replace base len = some (dropped, q)) (hsome : dropped ≠ []) : ¬ Same p q := by
  obtain ⟨held, hget, -, hdropped, rfl⟩ := replace_some hreplace
  apply h.not_same hget _ hsome rfl
  rw [hdropped, Finset.length_sort]

/-- A decommit that drops a granule shows in the bytes counted. -/
theorem not_same_decommit {p q : Pool} {addr len : Nat} {dropped : List Nat} (h : Accounted p)
    (hdecommit : p.decommit addr len = .ok (dropped, q)) (hsome : dropped ≠ []) : ¬ Same p q := by
  obtain ⟨base, held, hholder, hdropped, rfl, -, -⟩ := decommit_ok hdecommit
  obtain ⟨hsubset, hcount⟩ := dropped_granules hdropped
  exact h.not_same (holder_some hholder).1 (hcount ▸ Finset.card_le_card hsubset) hsome rfl

/-- A call not answered with success leaves the pool as it was exactly where it settles. -/
theorem step_unchanged_iff {w : World} {call : Call} (h : Accounted w.pool)
    (hcapacity : w.pool.capacity < bound)
    (hdoes : Does w call (step w call).1.pool (step w call).2) :
    ((step w call).2 ≠ .ok → Same w.pool (step w call).1.pool) ↔ Settles w call := by
  cases hdoes with
  | nothing hp hsettles =>
      rw [hp]
      exact iff_of_true (fun _ => same_refl _) hsettles
  | expanded len hp hok hsettles => exact iff_of_true (fun hne => absurd hok hne) hsettles
  | replaced base len dropped hp hsome hsettles =>
      rw [hsettles]
      constructor
      · intro hunchanged
        by_contra hne
        exact not_same_replace h hp (hsome hne) (hunchanged hne)
      · exact fun hok hne => absurd hok hne
  | reserved base len hp hnew hok hsettles =>
      exact iff_of_true (fun hne => absurd hok hne) hsettles
  | committed addr len newly hp hok hsettles =>
      exact iff_of_true (fun hne => absurd hok hne) hsettles
  | handedBack addr len newly dropped q hq hp hsettles =>
      exact iff_of_true (fun _ => commit_then_decommit h hcapacity hq hp) hsettles
  | decommitted addr len dropped hp hsome hsettles =>
      rw [hsettles]
      constructor
      · intro hunchanged
        by_contra hne
        exact not_same_decommit h hp (hsome hne) (hunchanged hne)
      · exact fun hok hne => absurd hok hne

theorem standing_start {space : AddressSpace} (hspace : Sound space) (map : Direct.DirectMemory) :
    Standing ⟨.default, space, ∅, map⟩ where
  sound := hspace
  reserved := by
    intro base r hr
    simp [Pool.default] at hr
  placed := by
    intro base hbase
    simp at hbase

/-- The pool is accounted for after every call of every run, and a call that is refused leaves
it as it was exactly where it settles. -/
theorem pool_accounted {space : AddressSpace} (hspace : Sound space) (map : Direct.DirectMemory)
    {calls : List Call} (hword : ∀ c ∈ calls, c.Word) :
    pools.Throughout (fun w => Accounted w.pool) ⟨.default, space, ∅, map⟩ calls ∧
      pools.Meets
        (fun w call => ((step w call).2 ≠ .ok → Same w.pool (step w call).1.pool) ↔ Settles w call)
        ⟨.default, space, ∅, map⟩ calls := by
  have hmeets := Machine.meets_of_mem (m := pools) hword ⟨.default, space, ∅, map⟩
  -- the invariant holds after each part of the run
  have hkept : ∀ pre, pre <+: calls →
      Standing (pools.after ⟨.default, space, ∅, map⟩ pre) ∧
      Accounted (pools.after ⟨.default, space, ∅, map⟩ pre).pool ∧
        (pools.after ⟨.default, space, ∅, map⟩ pre).pool.capacity < bound := by
    intro pre hpre
    apply Machine.after_inv_of_meets (m := pools)
      (I := fun w => Standing w ∧ Accounted w.pool ∧ w.pool.capacity < bound) _
      ⟨standing_start hspace map, accounted_default, Nat.two_pow_pos 64⟩ (hmeets.of_prefix hpre)
    exact fun w call hw hc => ⟨step_standing hw.1 hc,
      step_accounted hw.2.1 hw.2.2 (step_does hw.1 hw.2.1 hc)⟩
  constructor
  · exact Machine.throughout_iff_prefix.mpr (fun pre hpre => (hkept pre hpre).2.1)
  · apply Machine.meets_iff_prefix.mpr
    intro pre call hpre
    obtain ⟨hstanding, haccounted, hcapacity⟩ :=
      hkept pre ((List.prefix_append pre [call]).trans hpre)
    have hc := Machine.meets_iff_prefix.mp hmeets pre call hpre
    exact step_unchanged_iff haccounted hcapacity (step_does hstanding haccounted hc)

/-! ## A decommit whose memory stays accessible -/

/-- A host that refuses nothing. -/
def agreeable : Surroundings where
  slotUnit := 4096
  reserving := fun _ _ => .ok ()
  protecting := fun _ => .ok ()
  firstFree := none
  nextMappingBase := fun _ => 0

def physical : Direct.DirectMemory := .withShape (4 * GRANULE) .whole

/-- Three granules are set aside, reserved and committed. -/
def committedWhole : List Call :=
  [.expand 0 (4 * GRANULE) (3 * GRANULE) 0 8,
    .reserve (16 * GRANULE) (3 * GRANULE) 0 MAP_FIXED 8 agreeable,
    .commit (16 * GRANULE) (3 * GRANULE) 3 0 (.ok ()) (.ok ())]

/-- The range committed is unmapped, then the base reserved again at another length and at
its own. -/
def reservedAgain : List Call :=
  committedWhole ++
    [.munmap id (fun _ => false) (16 * GRANULE) (3 * GRANULE),
      .reserve (16 * GRANULE) GRANULE 0 MAP_FIXED 8 agreeable,
      .reserve (16 * GRANULE) (3 * GRANULE) 0 MAP_FIXED 8 agreeable]

theorem reservedAgain_accounted :
    pools.Throughout (fun w => Accounted w.pool) ⟨.default, .new, ∅, physical⟩ reservedAgain ∧
      pools.Meets
        (fun w call => ((step w call).2 ≠ .ok → Same w.pool (step w call).1.pool) ↔ Settles w call)
        ⟨.default, .new, ∅, physical⟩ reservedAgain := by
  apply pool_accounted AddressSpace.sound_new physical
  intro c hc
  simp only [reservedAgain, committedWhole, List.cons_append, List.nil_append, List.mem_cons,
    List.not_mem_nil, or_false] at hc
  rcases hc with rfl | rfl | rfl | rfl | rfl | rfl
  · trivial
  · exact ⟨by decide, fun free hfree => by cases hfree⟩
  · trivial
  · exact fun l => List.Perm.refl l
  · exact ⟨by decide, fun free hfree => by cases hfree⟩
  · exact ⟨by decide, fun free hfree => by cases hfree⟩

/-- Where the host has no mapping left to split the range with, the granule decommitted in the
middle is off the pool's account. -/
theorem decommitted_unprotected :
    ¬ pools.Meets (fun w call => (step w call).2 ≠ .ok → Same w.pool (step w call).1.pool)
      ⟨.default, .new, ∅, physical⟩
      (committedWhole ++ [.decommit (17 * GRANULE) GRANULE 0
        (fun _ => .error (.hostRefused "mprotect failed: Cannot allocate memory (os error 12)"))]) := by
  intro h
  have hsame := h.2.2.2.1 (by decide +kernel)
  have hcommitted := hsame.committed
  revert hcommitted
  decide +kernel

end Orbistoun.Kernel.Pool
