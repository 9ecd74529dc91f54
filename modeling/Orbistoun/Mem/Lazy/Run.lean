import Orbistoun.Mem.Lazy.Commit

/-! # Runs of commits and touches

The registry of reservations over any run of calls, and what its spans and its counts are worth
in every state one reaches.
-/

namespace Orbistoun.Mem.Lazy

open Std (TreeMap)
open Orbistoun.Lib
open Orbistoun.Lib.U64 (saturatingAdd bound)
open Space (Protection guestPageSize)

/-! ## Runs of calls -/

section Runs

variable {σ : Type} {host : Host σ} {pages : σ → Pages}

/-- What a call is owed: a reservation is whole pages below the last address that the host has
just reserved and no other holds; one is released without touching another; a commit and a
protection are of whole pages. -/
def Call.Whole (pages : σ → Pages) (st : State σ) : Call σ → Prop
  | .register base len _ s =>
      (base % guestPageSize = 0 ∧ len % guestPageSize = 0 ∧ base + len < bound) ∧
        (∀ x, base ≤ x → x < base + len → pages s x = .reserve) ∧
        (∀ x, ¬ (base ≤ x ∧ x < base + len) → pages s x = pages st.host x) ∧
        ∀ (start : Nat) (l : Lazy), st.held[start]? = some l → start ≠ base ∧
          (start + l.len ≤ base ∨ base + len ≤ start)
  | .unregister base s => ∀ (start : Nat) (l : Lazy), st.held[start]? = some l → start ≠ base →
      ∀ x, start ≤ x → x < start + l.len → pages s x = pages st.host x
  | .commit base len => base % guestPageSize = 0 ∧ len % guestPageSize = 0
  | .touch _ => True
  | .protect base len _ => base % guestPageSize = 0 ∧ len % guestPageSize = 0

/-- Every reservation fits the host's pages, and no two share a byte. -/
structure Sound (host : Host σ) (pages : σ → Pages) (st : State σ) : Prop where
  fits : ∀ {base : Nat} {l : Lazy}, st.held[base]? = some l → Fits host pages base l (pages st.host)
  apart : ∀ {base base' : Nat} {l l' : Lazy}, st.held[base]? = some l → st.held[base']? = some l' →
    base < base' → base + l.len ≤ base'

theorem getElem?_insert_nat (t : TreeMap Nat Lazy) (k a : Nat) (l : Lazy) :
    (t.insert k l)[a]? = if k = a then some l else t[a]? := by
  rw [TreeMap.getElem?_insert]
  simp

/-- One reservation replaced by one of its length, its own bytes alone having changed. -/
theorem Sound.replace {st : State σ} (h : Sound host pages st) {base : Nat} {l l' : Lazy}
    (hget : st.held[base]? = some l) (hlen : l'.len = l.len) {s : σ}
    (hfits : Fits host pages base l' (pages s)) {lo hi : Nat} (hlo : base ≤ lo)
    (hhi : hi ≤ base + l.len) (hgrew : Grew (pages st.host) (pages s) lo hi) :
    Sound host pages ⟨st.held.insert base l', s⟩ := by
  constructor
  · intro k m hk
    rw [getElem?_insert_nat] at hk
    split at hk
    · next heq =>
      subst heq
      cases hk
      exact hfits
    · next hne =>
      apply (h.fits hk).congr
      intro x hle hlt
      apply hgrew.outside
      rcases Nat.lt_or_gt_of_ne hne with hbelow | habove
      · have := h.apart hget hk hbelow
        omega
      · have := h.apart hk hget habove
        omega
  · intro k k' m m' hk hk' hlt
    rw [getElem?_insert_nat] at hk hk'
    split at hk
    · next heq =>
      subst heq
      cases hk
      rw [if_neg (Nat.ne_of_lt hlt)] at hk'
      rw [hlen]
      exact h.apart hget hk' hlt
    · split at hk'
      · next heq =>
        subst heq
        exact h.apart hk hget hlt
      · exact h.apart hk hk' hlt

theorem paged_max {a b : Nat} (ha : a % guestPageSize = 0) (hb : b % guestPageSize = 0) :
    max a b % guestPageSize = 0 := by
  rcases Nat.le_total a b with hle | hle
  · rw [Nat.max_eq_right hle]
    exact hb
  · rw [Nat.max_eq_left hle]
    exact ha

theorem paged_min {a b : Nat} (ha : a % guestPageSize = 0) (hb : b % guestPageSize = 0) :
    min a b % guestPageSize = 0 := by
  rcases Nat.le_total a b with hle | hle
  · rw [Nat.min_eq_left hle]
    exact ha
  · rw [Nat.min_eq_right hle]
    exact hb

/-- The end of whole pages, cut to a reservation's, is a page's end also where it saturates. -/
theorem paged_stop {base len stop : Nat} (hbase : base % guestPageSize = 0)
    (hlen : len % guestPageSize = 0) (hstop : stop % guestPageSize = 0) (hbound : stop < bound) :
    min (saturatingAdd base len) stop % guestPageSize = 0 := by
  unfold saturatingAdd
  by_cases hfit : base + len < bound
  · have hsat : min (base + len) (bound - 1) = base + len := Nat.min_eq_left (by omega)
    rw [hsat]
    apply paged_min _ hstop
    simp only [guestPageSize] at *
    omega
  · have hsat : min (base + len) (bound - 1) = bound - 1 := Nat.min_eq_right (by omega)
    have hle : stop ≤ bound - 1 := by omega
    rw [hsat, Nat.min_eq_right hle]
    exact hstop

/-- Where a reservation that fits ends, as the code computes it. -/
theorem Fits.stop_eq {base : Nat} {l : Lazy} {p : Pages} (h : Fits host pages base l p) :
    saturatingAdd base l.len = base + l.len ∧ (base + l.len) % guestPageSize = 0 := by
  obtain ⟨hbase, hlen, hbound⟩ := h.paged
  constructor
  · unfold saturatingAdd
    omega
  · simp only [guestPageSize] at *
    omega

theorem Sound.commitPart (law : host.Lawful pages) {st : State σ} (h : Sound host pages st)
    {base : Nat} {l : Lazy} (hget : st.held[base]? = some l) (lo hi : Nat)
    (hlo : lo % guestPageSize = 0) (hhi : hi % guestPageSize = 0) (hbase : base ≤ lo)
    (hstop : hi ≤ base + l.len) :
    Sound host pages (st.commitPart host base l lo hi).2 := by
  obtain ⟨hfits, hlen, hgrew⟩ := (h.fits hget).commitIn law hlo hhi hbase hstop
  exact h.replace hget hlen hfits hbase hstop hgrew

theorem Sound.commitEach (law : host.Lawful pages) {base len : Nat}
    (hbase : base % guestPageSize = 0) (hlen : len % guestPageSize = 0)
    (parts : List (Nat × Lazy)) (hkeys : parts.Pairwise (fun e e' => e.1 ≠ e'.1)) {st : State σ}
    (h : Sound host pages st) (hparts : ∀ e ∈ parts, st.held[e.1]? = some e.2) :
    Sound host pages (State.commitEach host base (saturatingAdd base len) parts st) := by
  induction parts generalizing st with
  | nil => exact h
  | cons part parts ih =>
    obtain ⟨start, l⟩ := part
    obtain ⟨hnot, hkeys⟩ := List.pairwise_cons.mp hkeys
    have hget : st.held[start]? = some l := hparts _ List.mem_cons_self
    have hfits := h.fits hget
    obtain ⟨hstop, hstopPaged⟩ := hfits.stop_eq
    unfold State.commitEach
    dsimp only
    split
    · exact h
    · have hlo := paged_max hbase hfits.paged.1
      have hhi := paged_stop hbase hlen hstopPaged hfits.paged.2.2
      rw [hstop]
      apply ih hkeys (h.commitPart law hget _ _ hlo hhi (Nat.le_max_right _ _)
        (Nat.min_le_right _ _))
      · intro e he
        have hne := hnot e he
        dsimp only at hne
        rw [State.commitPart, getElem?_insert_nat, if_neg hne]
        exact hparts e (List.mem_cons_of_mem _ he)

theorem Sound.commit (law : host.Lawful pages) {st : State σ} (h : Sound host pages st)
    {base len : Nat} (hbase : base % guestPageSize = 0) (hlen : len % guestPageSize = 0) :
    Sound host pages (st.commit host base len) := by
  unfold State.commit
  apply h.commitEach law hbase hlen
  · apply List.pairwise_reverse.mpr
    apply ((Nearest.toList_sorted st.held).filter _).imp
    intro e e' hlt
    exact Nat.ne_of_gt hlt
  · intro e he
    exact Nearest.mem_toList.mp (List.mem_filter.mp (List.mem_reverse.mp he)).1

theorem paged_chunk (address : Nat) : (address - address % touchChunk) % guestPageSize = 0 := by
  simp only [guestPageSize, touchChunk]
  omega

theorem touch_range {chunk runStart runEnd base stop : Nat} (hchunk : chunk % guestPageSize = 0)
    (hstart : runStart % guestPageSize = 0) (hend : runEnd % guestPageSize = 0)
    (hbase : base % guestPageSize = 0) (hstop : stop % guestPageSize = 0) (hbound : stop < bound) :
    max (max chunk runStart) base % guestPageSize = 0 ∧
      min (min (saturatingAdd chunk touchChunk) runEnd) stop % guestPageSize = 0 := by
  have hsize : touchChunk % guestPageSize = 0 := rfl
  constructor
  · exact paged_max (paged_max hchunk hstart) hbase
  · rw [Nat.min_assoc]
    apply paged_stop hchunk hsize (paged_min hend hstop)
    exact Nat.lt_of_le_of_lt (Nat.min_le_right _ _) hbound

theorem holding_get {st : State σ} {address base : Nat} {l : Lazy}
    (hholding : st.holding address = some (base, l)) : st.held[base]? = some l := by
  unfold State.holding at hholding
  split at hholding
  · next base' l' hlast =>
    split at hholding
    · cases hholding
      exact (Nearest.last_mem hlast).1
    · cases hholding
  · cases hholding

/-- A touch commits nothing, or whole pages of the reservation it falls in. -/
theorem Sound.touch (law : host.Lawful pages) {st : State σ} (h : Sound host pages st)
    (address : Nat) : Sound host pages (st.commitOnTouch host address).2 := by
  unfold State.commitOnTouch
  split
  · exact h
  · next base l hholding =>
    have hget := holding_get hholding
    have hfits := h.fits hget
    obtain ⟨hstop, hstopPaged⟩ := hfits.stop_eq
    split
    · exact h
    · next runStart runEnd protection hrun =>
      split
      · exact h
      · obtain ⟨hstart, hend⟩ := hfits.bounds _ _ _ (IntervalMap.runAt_get hrun)
        obtain ⟨hlo, hhi⟩ := touch_range (paged_chunk address) hstart hend hfits.paged.1 hstopPaged
          hfits.paged.2.2
        rw [hstop]
        exact h.commitPart law hget _ _ hlo hhi (Nat.le_max_right _ _) (Nat.min_le_right _ _)

theorem Sound.protect {st : State σ} (h : Sound host pages st) {base len : Nat}
    (protection : Protection) (hbase : base % guestPageSize = 0) (hlen : len % guestPageSize = 0) :
    Sound host pages (st.protect base len protection) := by
  have hget : ∀ {k : Nat} {m : Lazy}, (st.protect base len protection).held[k]? = some m →
      ∃ l, st.held[k]? = some l ∧
        m = State.protectPart base (saturatingAdd base len) protection k l := by
    intro k m hk
    unfold State.protect at hk
    simp only [TreeMap.getElem?_map] at hk
    obtain ⟨l, hl, heq⟩ := Option.map_eq_some_iff.mp hk
    exact ⟨l, hl, heq.symm⟩
  have hlenEq : ∀ (k : Nat) (l : Lazy),
      (State.protectPart base (saturatingAdd base len) protection k l).len = l.len := by
    intro k l
    unfold State.protectPart
    dsimp only
    split <;> rfl
  constructor
  · intro k m hk
    obtain ⟨l, hl, rfl⟩ := hget hk
    have hfits := h.fits hl
    obtain ⟨hstop, hstopPaged⟩ := hfits.stop_eq
    unfold State.protectPart
    dsimp only
    split
    · apply hfits.setProtections
      apply Protections.bounds_set hfits.bounds protection (paged_max hbase hfits.paged.1)
      rw [hstop]
      exact paged_stop hbase hlen hstopPaged hfits.paged.2.2
    · exact hfits
  · intro k k' m m' hk hk' hlt
    obtain ⟨l, hl, rfl⟩ := hget hk
    obtain ⟨l', hl', rfl⟩ := hget hk'
    rw [hlenEq]
    exact h.apart hl hl' hlt

theorem Sound.register {st : State σ} (h : Sound host pages st) {base len : Nat} {s : σ}
    (protection : Protection)
    (hpaged : base % guestPageSize = 0 ∧ len % guestPageSize = 0 ∧ base + len < bound)
    (hfresh : ∀ x, base ≤ x → x < base + len → pages s x = .reserve)
    (hsame : ∀ x, ¬ (base ≤ x ∧ x < base + len) → pages s x = pages st.host x)
    (hothers : ∀ (start : Nat) (l : Lazy), st.held[start]? = some l → start ≠ base ∧
      (start + l.len ≤ base ∨ base + len ≤ start)) :
    Sound host pages (State.register ⟨st.held, s⟩ base len protection) := by
  unfold State.register
  dsimp only
  have hstop : saturatingAdd base len = base + len := by
    unfold saturatingAdd
    omega
  constructor
  · intro k m hk
    rw [getElem?_insert_nat] at hk
    split at hk
    · next heq =>
      subst heq
      cases hk
      constructor
      · exact hpaged
      · intro k' e v hget
        dsimp only [Protections.new] at hget
        rw [IntervalMap.getElem?_insert_nat] at hget
        split at hget
        · next heq =>
          subst heq
          cases hget
          rw [hstop]
          apply And.intro hpaged.1
          simp only [guestPageSize] at *
          omega
        · simp at hget
      · exact SpanSet.sound_empty
      · intro x hx
        exact absurd hx (SpanSet.not_holds_empty x)
      · intro x hle hlt
        rw [hfresh x hle hlt]
        exact fun hfree => by cases hfree
      · show 0 = committedBytes (pages s) base (base + len)
        unfold committedBytes
        rw [eq_comm, Finset.card_eq_zero, Finset.filter_eq_empty_iff]
        intro x hx
        obtain ⟨hle, hlt⟩ := Finset.mem_Ico.mp hx
        rw [hfresh x hle hlt]
        exact fun hcommit => by cases hcommit
      · intro _ x hle hlt hcommit
        rw [hfresh x hle hlt] at hcommit
        cases hcommit
    · apply (h.fits hk).congr
      intro x hle hlt
      have := hothers k m hk
      apply hsame
      omega
  · intro k k' m m' hk hk' hlt
    rw [getElem?_insert_nat] at hk hk'
    split at hk
    · next heq =>
      subst heq
      cases hk
      rw [if_neg (Nat.ne_of_lt hlt)] at hk'
      have hroom := hothers k' m' hk'
      dsimp only
      omega
    · split at hk'
      · next heq =>
        subst heq
        have hroom := hothers k m hk
        omega
      · exact h.apart hk hk' hlt

theorem Sound.unregister {st : State σ} (h : Sound host pages st) {base : Nat} {s : σ}
    (hsame : ∀ (start : Nat) (l : Lazy), st.held[start]? = some l → start ≠ base →
      ∀ x, start ≤ x → x < start + l.len → pages s x = pages st.host x) :
    Sound host pages (State.unregister ⟨st.held, s⟩ base) := by
  have hget : ∀ {k : Nat} {m : Lazy}, (st.held.erase base)[k]? = some m →
      base ≠ k ∧ st.held[k]? = some m := by
    intro k m hk
    simp only [TreeMap.getElem?_erase, Nat.compare_eq_eq] at hk
    split at hk
    · cases hk
    · next hne => exact ⟨hne, hk⟩
  constructor
  · intro k m hk
    obtain ⟨hne, hk⟩ := hget hk
    exact (h.fits hk).congr (hsame k m hk (Ne.symm hne))
  · intro k k' m m' hk hk' hlt
    exact h.apart (hget hk).2 (hget hk').2 hlt

theorem Sound.step (law : host.Lawful pages) {st : State σ} (h : Sound host pages st)
    {c : Call σ} (hc : c.Whole pages st) : Sound host pages (step host st c).1 := by
  cases c with
  | register base len protection s =>
    obtain ⟨hpaged, hfresh, hsame, hothers⟩ := hc
    exact h.register protection hpaged hfresh hsame hothers
  | unregister base s => exact h.unregister hc
  | commit base len => exact h.commit law hc.1 hc.2
  | touch address => exact h.touch law address
  | protect base len protection => exact h.protect protection hc.1 hc.2

theorem sound_empty (s : σ) : Sound host pages ⟨∅, s⟩ := by
  constructor
  · intro base l hget
    simp at hget
  · intro base base' l l' hget
    simp at hget

theorem run_sound (law : host.Lawful pages) {s : σ} {calls : List (Call σ)}
    (hcalls : (lazy host).Meets (Call.Whole pages) ⟨∅, s⟩ calls) :
    Sound host pages ((lazy host).after ⟨∅, s⟩ calls) := by
  apply Machine.after_inv_of_meets (m := lazy host) _ (sound_empty s) hcalls
  intro st c h hc
  exact h.step law hc

theorem Fits.count_known {base : Nat} {l : Lazy} {p : Pages} (h : Fits host pages base l p)
    (hg : host.Grants pages) : l.committed = Lib.Spans.total Prod.fst Prod.snd l.known.toList := by
  rw [h.count]
  symm
  apply Lib.Spans.total_eq_card
  · apply h.gaps.gaps_toList.imp
    intro e e' hlt
    exact hlt.le
  · intro x
    rw [Finset.mem_filter, Finset.mem_Ico, ← SpanSet.holds_iff_covers]
    constructor
    · intro hx
      exact h.complete hg x hx.1.1 hx.1.2 hx.2
    · intro hx
      exact h.known x hx

end Runs

namespace Spans

def insertAll (inserts : List (Nat × Nat)) : Spans :=
  inserts.foldl (fun t r => insert t r.1 r.2) ∅

theorem insertAll_spec (inserts : List (Nat × Nat)) : SpanSet.Sound (insertAll inserts) ∧
    ∀ x, SpanSet.Holds (insertAll inserts) x ↔ ∃ r ∈ inserts, r.1 ≤ x ∧ x < r.2 := by
  induction inserts using List.reverseRecOn with
  | nil =>
    constructor
    · exact SpanSet.sound_empty
    · intro x
      simp only [List.not_mem_nil, false_and, exists_false, iff_false]
      exact SpanSet.not_holds_empty x
  | append_singleton inserts r ih =>
    obtain ⟨hsound, hholds⟩ := ih
    have hlast : insertAll (inserts ++ [r]) = SpanSet.insert (insertAll inserts) r.1 r.2 := by
      simp [insertAll, insert]
    rw [hlast]
    constructor
    · exact hsound.insert r.1 r.2
    · intro x
      rw [hsound.holds_insert, hholds]
      simp only [List.mem_append, List.mem_singleton, or_and_right, exists_or, exists_eq_left]
      exact Or.comm

end Spans

/-- After any history of insertions the spans are in order with gaps between them, and a range is
covered exactly when each of its bytes was put in. After any run of commits and touches of whole
pages the bytes reported for a reservation sum to those the host committed of it, which are the
bytes of its spans where the host refuses nothing. -/
theorem spans_exact_and_counted {σ : Type} {host : Host σ} {pages : σ → Pages}
    (law : host.Lawful pages) {s : σ} {calls : List (Call σ)}
    (hcalls : (lazy host).Meets (Call.Whole pages) ⟨∅, s⟩ calls) :
    (∀ inserts : List (Nat × Nat),
      (Spans.insertAll inserts).toList.Pairwise (fun e e' => e.2 < e'.1) ∧
        (∀ e ∈ (Spans.insertAll inserts).toList, e.1 < e.2) ∧
        ∀ lo hi, (Spans.insertAll inserts).covers lo hi = true ↔
          ∀ x, lo ≤ x → x < hi → ∃ r ∈ inserts, r.1 ≤ x ∧ x < r.2) ∧
      ∀ (base : Nat) (l : Lazy), ((lazy host).after ⟨∅, s⟩ calls).held[base]? = some l →
        l.committed =
            committedBytes (pages ((lazy host).after ⟨∅, s⟩ calls).host) base (base + l.len) ∧
          (host.Grants pages →
            l.committed = Lib.Spans.total Prod.fst Prod.snd l.known.toList) := by
  constructor
  · intro inserts
    obtain ⟨hsound, hholds⟩ := Spans.insertAll_spec inserts
    constructor
    · exact hsound.gaps_toList
    constructor
    · exact hsound.proper_toList
    · intro lo hi
      apply (hsound.covers_iff lo hi).trans
      simp only [hholds]
  · intro base l hget
    have hfits := (run_sound law hcalls).fits hget
    exact ⟨hfits.count, hfits.count_known⟩

/-! ## A host of three pages -/

/-- Three reserved pages from `0x10000`, by the numbers of those committed; the host refuses to
commit the pages `refused`. -/
def threePages (refused : List Nat) : Host (List Nat) where
  virtualQuery committed a :=
    let page := a / guestPageSize
    if 16 ≤ page ∧ page < 19 then
      some (page * guestPageSize, guestPageSize,
        if page ∈ committed then .commit else .reserve)
    else none
  virtualAlloc committed a size _ :=
    let asked := List.range' (a / guestPageSize) (size / guestPageSize)
    if asked.all (fun page => 16 ≤ page ∧ page < 19 ∧ page ∉ refused) then (true, asked ++ committed)
    else (false, committed)

def threePages.pages (committed : List Nat) : Pages := fun a =>
  let page := a / guestPageSize
  if 16 ≤ page ∧ page < 19 then if page ∈ committed then .commit else .reserve else .free

theorem threePages.lawful (refused : List Nat) :
    (threePages refused).Lawful threePages.pages := by
  constructor
  · intro committed a hfree
    unfold threePages.pages at hfree
    dsimp only [threePages] at hfree ⊢
    split at hfree
    · next hin =>
      rw [if_pos hin]
      rfl
    · exact absurd rfl hfree
  · intro committed a base size state hquery
    dsimp only [threePages] at hquery
    split at hquery
    · next hin =>
      cases hquery
      have hbounds : a < a / guestPageSize * guestPageSize + guestPageSize ∧
          a / guestPageSize * guestPageSize + guestPageSize < bound ∧
          (a / guestPageSize * guestPageSize + guestPageSize) % guestPageSize = 0 := by
        simp only [guestPageSize, bound] at *
        omega
      refine ⟨hbounds.1, hbounds.2.1, hbounds.2.2, ?_⟩
      intro x hle hlt
      have hpage : x / guestPageSize = a / guestPageSize := by
        simp only [guestPageSize] at *
        omega
      unfold threePages.pages
      dsimp only
      rw [hpage, if_pos hin]
    · cases hquery
  · intro committed a size protection ha hsize hgot x
    dsimp only [threePages] at hgot ⊢
    split at hgot
    · next hall =>
      rw [if_pos hall]
      have hin := List.all_eq_true.mp hall
      simp only [threePages.pages, List.mem_append, List.mem_range'_1]
      have hpage : (a / guestPageSize ≤ x / guestPageSize ∧
          x / guestPageSize < a / guestPageSize + size / guestPageSize) ↔ a ≤ x ∧ x < a + size := by
        simp only [guestPageSize] at *
        omega
      simp only [hpage]
      by_cases hx : a ≤ x ∧ x < a + size
      · have hpages := hin (x / guestPageSize) (List.mem_range'_1.mpr (hpage.mpr hx))
        simp only [decide_eq_true_eq] at hpages
        rw [if_pos ⟨hpages.1, hpages.2.1⟩, if_pos hx]
        simp only [hx, true_or, if_true, and_self]
      · simp only [hx, false_or, if_false]
    · cases hgot
  · intro committed a size protection hgot
    dsimp only [threePages] at hgot ⊢
    split at hgot
    · cases hgot
    · next hnot => rw [if_neg hnot]

theorem threePages.grants : (threePages []).Grants threePages.pages := by
  intro committed a size protection hreserve
  have hall : (List.range' (a / guestPageSize) (size / guestPageSize)).all
      (fun page => 16 ≤ page ∧ page < 19 ∧ page ∉ ([] : List Nat)) = true := by
    apply List.all_eq_true.mpr
    intro page hpage
    have hrange := List.mem_range'_1.mp hpage
    -- a whole page asked for that starts in the range, or the first one
    have hstate := hreserve (max a (page * guestPageSize))
      (Nat.le_max_left _ _) (by simp only [guestPageSize] at *; omega)
    have hdiv : max a (page * guestPageSize) / guestPageSize = page := by
      simp only [guestPageSize] at *
      omega
    simp only [threePages.pages, hdiv] at hstate
    split at hstate
    · next hin => simpa using hin
    · cases hstate
  dsimp only [threePages]
  rw [if_pos hall]

/-- A page committed alone, then all three with the last one refused: two pages were reported and
one is known. -/
theorem reported_past_known :
    let st := (lazy (threePages [18])).after ⟨∅, []⟩
      [.register 0x10000 0x3000 ⟨true, true, false⟩ [], .commit 0x11000 0x1000,
        .commit 0x10000 0x3000]
    st.held[0x10000]?.map (fun l =>
      (l.committed, Lib.Spans.total Prod.fst Prod.snd l.known.toList)) = some (0x2000, 0x1000) := by
  decide +kernel

/-- A page touched, then the reservation committed whole, by a host that refuses nothing. -/
theorem spans_exact_and_counted_touched :
    let calls : List (Call (List Nat)) := [.register 0x10000 0x3000 ⟨true, true, false⟩ [],
      .commit 0x11000 0x1000, .touch 0x10008]
    let st := (lazy (threePages [])).after ⟨∅, []⟩ calls
    ∀ (base : Nat) (l : Lazy), st.held[base]? = some l →
      l.committed = Lib.Spans.total Prod.fst Prod.snd l.known.toList := by
  intro calls st base l hget
  have hpages : ∀ x, threePages.pages [] x = .reserve ↔ 0x10000 ≤ x ∧ x < 0x10000 + 0x3000 := by
    intro x
    simp only [threePages.pages, guestPageSize, List.not_mem_nil, if_false]
    split
    · simp only [true_iff]
      omega
    · simp only [reduceCtorEq, false_iff]
      omega
  have hwhole : (lazy (threePages [])).Meets (Call.Whole threePages.pages) ⟨∅, []⟩ calls := by
    refine ⟨⟨by decide, ?_, ?_, ?_⟩, ⟨by decide, by decide⟩, trivial, trivial⟩
    · intro x hle hlt
      exact (hpages x).mpr ⟨hle, hlt⟩
    · exact fun _ _ => rfl
    · intro start l hheld
      simp at hheld
  exact ((spans_exact_and_counted (threePages.lawful []) hwhole).2 base l hget).2
    threePages.grants

end Orbistoun.Mem.Lazy
