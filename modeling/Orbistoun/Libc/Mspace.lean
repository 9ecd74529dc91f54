import Orbistoun.Lib.Machine
import Orbistoun.Lib.MapTotal
import Orbistoun.Lib.U64

/-! # An arena over a range the guest gave

`BasedSpace` of `mspace.rs`: free spans and live blocks, each block behind the chunk
header dlmalloc keeps in front of it. The spans and the chunks tile the arena in every
state a run of takes and give-backs reaches.
-/

namespace Orbistoun.Libc.Mspace

open Std (TreeMap)
open Orbistoun.Lib
open Orbistoun.Lib.Nearest (lastLT)
open Orbistoun.Lib.MapTotal (total total_insert total_erase)
open Orbistoun.Lib.U64

/-- The least alignment, and the step block lengths are rounded to. -/
def granule : Nat := 16

/-- The chunk header in front of a block. -/
def header : Nat := 16

/-- A live block: its length, the size asked for, and where its header starts. -/
structure Block where
  len : Nat
  asked : Nat
  chunk : Nat
  deriving DecidableEq, Repr

structure BasedSpace where
  capacity : Nat
  inUse : Nat
  peak : Nat
  free : TreeMap Nat Nat
  live : TreeMap Nat Block

namespace BasedSpace

def new (base capacity : Nat) : BasedSpace where
  capacity := capacity
  inUse := 0
  peak := 0
  free := if capacity > 0 then (∅ : TreeMap Nat Nat).insert base capacity else ∅
  live := ∅

/-- Where a block of `len` bytes at a multiple of `align` starts in a free span, when the
span holds it and its header. -/
def fit (align len : Nat) (span : Nat × Nat) : Option (Nat × Nat × Nat) := do
  let behind ← checkedAdd span.1 header
  let start ← checkedNextMultipleOf behind align
  let stop ← checkedAdd start len
  let spanEnd ← checkedAdd span.1 span.2
  if stop ≤ spanEnd then some (span.1, span.2, start) else none

def carveFree (free : TreeMap Nat Nat) (spanStart spanLen start len : Nat) : TreeMap Nat Nat :=
  let chunk := start - header
  let free := free.erase spanStart
  let free := if chunk > spanStart then free.insert spanStart (chunk - spanStart) else free
  let tail := spanStart + spanLen - (start + len)
  if tail > 0 then free.insert (start + len) tail else free

def carve (s : BasedSpace) (spanStart spanLen start len size : Nat) : BasedSpace :=
  { s with
    free := carveFree s.free spanStart spanLen start len
    live := s.live.insert start ⟨len, size, start - header⟩
    inUse := s.inUse + (len + header)
    peak := max s.peak (s.inUse + (len + header)) }

/-- Takes `size` bytes at a multiple of `align`, first fit: the address handed out, the
header's start and the chunk size. -/
def take (s : BasedSpace) (size align : Nat) : Option (Nat × Nat × Nat) × BasedSpace :=
  let align := max align granule
  if !isPowerOfTwo align then (none, s)
  else
    match checkedNextMultipleOf (max size 1) granule with
    | none => (none, s)
    | some len =>
        match s.free.toList.findSome? (fit align len) with
        | none => (none, s)
        | some (spanStart, spanLen, start) =>
            (some (start, start - header, len + header), s.carve spanStart spanLen start len size)

/-- The free spans with `[chunk, stop)` given back, merged with the span behind it and
with the one in front of it. -/
def mergeFree (free : TreeMap Nat Nat) (chunk stop : Nat) : TreeMap Nat Nat :=
  let (free, stop) := match free[stop]? with
    | some after => (free.erase stop, stop + after)
    | none => (free, stop)
  match lastLT free chunk with
  | some (before, beforeLen) =>
      if before + beforeLen = chunk then (free.erase before).insert before (stop - before)
      else free.insert chunk (stop - chunk)
  | none => free.insert chunk (stop - chunk)

/-- Gives back the block starting at `at_`; `false` where no live block starts. -/
def giveBack (s : BasedSpace) (at_ : Nat) : Bool × BasedSpace :=
  match s.live[at_]? with
  | none => (false, s)
  | some b =>
      (true,
        { s with
          live := s.live.erase at_
          inUse := s.inUse - (at_ + b.len - b.chunk)
          free := mergeFree s.free b.chunk (at_ + b.len) })

/-- The size asked for the live block starting at `at_`. -/
def lengthOf (s : BasedSpace) (at_ : Nat) : Option Nat := s.live[at_]?.map Block.asked

end BasedSpace

inductive Op where
  | take (size align : Nat)
  | giveBack (at_ : Nat)
  deriving DecidableEq, Repr

namespace BasedSpace

def step (s : BasedSpace) : Op → BasedSpace
  | .take size align => (s.take size align).2
  | .giveBack at_ => (s.giveBack at_).2

def arena : Machine BasedSpace Op Unit := ⟨fun s op => (s.step op, [])⟩

/-- The free spans and the live blocks' chunks, as where each starts and ends. -/
def freeSpans (s : BasedSpace) : List (Nat × Nat) := s.free.toList.map (fun e => (e.1, e.1 + e.2))

def chunks (s : BasedSpace) : List (Nat × Nat) :=
  s.live.toList.map (fun e => (e.2.chunk, e.1 + e.2.len))

/-! ## The invariant -/

/-- The spans and chunks of an arena at `base`. -/
structure Tiled (base : Nat) (s : BasedSpace) : Prop where
  span : ∀ {a n : Nat}, s.free[a]? = some n → 0 < n ∧ base ≤ a ∧ a + n ≤ base + s.capacity
  gap : ∀ {a n a' n' : Nat}, s.free[a]? = some n → s.free[a']? = some n' → a < a' → a + n < a'
  block : ∀ {k : Nat} {b : Block}, s.live[k]? = some b →
    b.chunk + header = k ∧ 0 < b.len ∧ base ≤ b.chunk ∧ k + b.len ≤ base + s.capacity
  apart : ∀ {k k' : Nat} {b b' : Block}, s.live[k]? = some b → s.live[k']? = some b' → k < k' →
    k + b.len ≤ b'.chunk
  beside : ∀ {a n k : Nat} {b : Block}, s.free[a]? = some n → s.live[k]? = some b →
    a + n ≤ b.chunk ∨ k + b.len ≤ a
  cover : ∀ x, base ≤ x → x < base + s.capacity →
    (∃ a n : Nat, s.free[a]? = some n ∧ a ≤ x ∧ x < a + n) ∨
      ∃ (k : Nat) (b : Block), s.live[k]? = some b ∧ b.chunk ≤ x ∧ x < k + b.len
  used : s.inUse = total (fun b => b.len + header) s.live

theorem tiled_new (base capacity : Nat) : Tiled base (new base capacity) := by
  have hfree : ∀ a n : Nat, (new base capacity).free[a]? = some n →
      a = base ∧ n = capacity ∧ 0 < capacity := by
    intro a n h
    unfold new at h
    dsimp only at h
    split at h
    · simp only [TreeMap.getElem?_insert, Nat.compare_eq_eq] at h
      split at h
      · cases h
        exact ⟨by omega, rfl, by assumption⟩
      · simp at h
    · simp at h
  refine ⟨fun {a n} h => ?_, fun {a n a' n'} h h' hlt => ?_, fun {k b} h => ?_,
    fun {k k' b b'} h => ?_, fun {a n k b} _ h => ?_, fun x hlo hhi => ?_, ?_⟩
  · obtain ⟨rfl, rfl, hpos⟩ := hfree a n h
    exact ⟨hpos, le_refl _, le_refl _⟩
  · obtain ⟨rfl, -, -⟩ := hfree a n h
    obtain ⟨rfl, -, -⟩ := hfree a' n' h'
    exact absurd hlt (Nat.lt_irrefl _)
  · simp [new] at h
  · simp [new] at h
  · simp [new] at h
  · have hpos : capacity > 0 := by
      have hhi' : x < base + capacity := hhi
      omega
    refine .inl ⟨base, capacity, ?_, hlo, hhi⟩
    simp [new, hpos]
  · exact (MapTotal.total_empty _).symm

/-! ## Taking -/

theorem fit_eq_some {align len a n : Nat} {r : Nat × Nat × Nat} (h : fit align len (a, n) = some r) :
    r.1 = a ∧ r.2.1 = n ∧ a + header ≤ r.2.2 ∧ align ∣ r.2.2 ∧ r.2.2 + len ≤ a + n := by
  unfold fit at h
  simp only [Option.bind_eq_bind, Option.bind_eq_some_iff] at h
  obtain ⟨behind, hbehind, start, hstart, stop, hstop, spanEnd, hend, h⟩ := h
  split at h
  · next hle =>
    cases h
    rw [checkedAdd_eq hstop, checkedAdd_eq hend] at hle
    have hup := le_checkedNextMultipleOf hstart
    rw [checkedAdd_eq hbehind] at hup
    exact ⟨rfl, rfl, hup, dvd_checkedNextMultipleOf hstart, hle⟩
  · cases h

theorem take_eq_some {s : BasedSpace} {size align : Nat} {r : Nat × Nat × Nat}
    (h : (s.take size align).1 = some r) :
    ∃ spanStart spanLen start len, s.free[spanStart]? = some spanLen ∧
      spanStart + header ≤ start ∧ start + len ≤ spanStart + spanLen ∧
      max align granule ∣ start ∧ size ≤ len ∧ 0 < len ∧
      isPowerOfTwo (max align granule) = true ∧
      r = (start, start - header, len + header) ∧
      (s.take size align).2 = s.carve spanStart spanLen start len size := by
  unfold take at h ⊢
  dsimp only at h ⊢
  split at h
  · cases h
  · next hpow =>
    rw [if_neg hpow]
    cases hlen : checkedNextMultipleOf (max size 1) granule with
    | none =>
        rw [hlen] at h
        cases h
    | some len =>
        simp only [hlen] at h ⊢
        cases hfind : s.free.toList.findSome? (fit (max align granule) len) with
        | none =>
            rw [hfind] at h
            cases h
        | some found =>
            obtain ⟨spanStart, spanLen, start⟩ := found
            simp only [hfind, Option.some.injEq] at h ⊢
            obtain ⟨⟨a, n⟩, hmem, hfit⟩ := List.exists_of_findSome?_eq_some hfind
            obtain ⟨rfl, rfl, hbehind, hdvd, hend⟩ := fit_eq_some hfit
            have hup := le_checkedNextMultipleOf hlen
            have hpos : 0 < len ∧ size ≤ len := by omega
            exact ⟨_, _, _, _, Nearest.mem_toList.mp hmem, hbehind, hend, hdvd, hpos.2, hpos.1,
              by simpa using hpow, h.symm, rfl⟩

theorem take_eq_none {s : BasedSpace} {size align : Nat} (h : (s.take size align).1 = none) :
    (s.take size align).2 = s := by
  unfold take at h ⊢
  dsimp only at h ⊢
  split
  · rfl
  · next hpow =>
    rw [if_neg hpow] at h
    split
    · rfl
    · next hlen =>
      simp only [hlen] at h
      split
      · rfl
      · next hfind =>
        rw [hfind] at h
        cases h

section Carve

variable {s : BasedSpace} {base a n start len size : Nat}

/-- The free spans after a block is cut out of the span at `a`. -/
theorem getElem?_carveFree (hbehind : a + header ≤ start) (hend : start + len ≤ a + n)
    (hlen : 0 < len) (k : Nat) : (carveFree s.free a n start len)[k]? =
      if start + len = k ∧ start + len < a + n then some (a + n - (start + len))
      else if a = k then (if a + header < start then some (start - header - a) else none)
      else s.free[k]? := by
  unfold carveFree
  dsimp only
  have hheader : header = 16 := rfl
  split <;> split <;>
    simp only [TreeMap.getElem?_insert, TreeMap.getElem?_erase, Nat.compare_eq_eq] <;>
    split_ifs <;> first | rfl | omega

/-- No span of a tiled arena starts inside or right behind another. -/
theorem Tiled.no_span_in (h : Tiled base s) (hfree : s.free[a]? = some n) {k : Nat} (hlo : a < k)
    (hhi : k ≤ a + n) : s.free[k]? = none := by
  cases hk : s.free[k]? with
  | none => rfl
  | some n' =>
      have := h.gap hfree hk hlo
      omega

theorem Tiled.no_block_in (h : Tiled base s) (hfree : s.free[a]? = some n)
    (hbehind : a + header ≤ start) (hend : start < a + n) : s.live[start]? = none := by
  cases hk : s.live[start]? with
  | none => rfl
  | some b =>
      have hblock := h.block hk
      have hbeside := h.beside hfree hk
      omega

theorem getElem?_carveLive (k : Nat) : (s.carve a n start len size).live[k]? =
    if start = k then some ⟨len, size, start - header⟩ else s.live[k]? := by
  simp only [BasedSpace.carve, TreeMap.getElem?_insert, Nat.compare_eq_eq]

/-- A free span after the cut is a part of the old one, or another and away from it. -/
theorem Tiled.carve_part (h : Tiled base s) (hfree : s.free[a]? = some n)
    (hbehind : a + header ≤ start) (hend : start + len ≤ a + n) (hlen : 0 < len) {k m : Nat}
    (hk : (s.carve a n start len size).free[k]? = some m) :
    0 < m ∧ ((k = a ∧ k + m + header = start) ∨ (k = start + len ∧ k + m = a + n) ∨
      (s.free[k]? = some m ∧ (k + m < a ∨ a + n < k))) := by
  have hheader : header = 16 := rfl
  rw [show (s.carve a n start len size).free = carveFree s.free a n start len from rfl,
    getElem?_carveFree hbehind hend hlen] at hk
  split at hk
  · cases hk
    omega
  · split at hk
    · split at hk
      · cases hk
        omega
      · cases hk
    · have hs := h.span hk
      rcases Nat.lt_trichotomy k a with hlt | heq | hgt
      · have := h.gap hk hfree hlt
        exact ⟨hs.1, .inr (.inr ⟨hk, .inl this⟩)⟩
      · omega
      · have := h.gap hfree hk hgt
        exact ⟨hs.1, .inr (.inr ⟨hk, .inr this⟩)⟩

theorem Tiled.carve_cover (h : Tiled base s) (hfree : s.free[a]? = some n)
    (hbehind : a + header ≤ start) (hend : start + len ≤ a + n) (hlen : 0 < len) {x : Nat}
    (hlo : base ≤ x) (hhi : x < base + s.capacity) :
    (∃ k m : Nat, (s.carve a n start len size).free[k]? = some m ∧ k ≤ x ∧ x < k + m) ∨
      ∃ (k : Nat) (b : Block), (s.carve a n start len size).live[k]? = some b ∧ b.chunk ≤ x ∧
        x < k + b.len := by
  have hheader : header = 16 := rfl
  have hget : ∀ k : Nat, (s.carve a n start len size).free[k]? =
      if start + len = k ∧ start + len < a + n then some (a + n - (start + len))
      else if a = k then (if a + header < start then some (start - header - a) else none)
      else s.free[k]? := getElem?_carveFree hbehind hend hlen
  obtain ⟨a', n', hold, hin⟩ | ⟨k, b, hk, hin⟩ := h.cover x hlo hhi
  · by_cases ha : a' = a
    · subst ha
      rw [hfree] at hold
      cases hold
      by_cases hfront : x + header < start
      · refine .inl ⟨a', start - header - a', ?_, hin.1, by omega⟩
        rw [hget, if_neg (by omega), if_pos rfl, if_pos (by omega)]
      · by_cases hback : start + len ≤ x
        · refine .inl ⟨start + len, a' + n - (start + len), ?_, hback, by omega⟩
          rw [hget, if_pos (by omega)]
        · refine .inr ⟨start, ⟨len, size, start - header⟩, ?_, ?_, by dsimp only; omega⟩
          · rw [getElem?_carveLive, if_pos rfl]
          · dsimp only
            omega
    · refine .inl ⟨a', n', ?_, hin⟩
      have hnot : ¬ (start + len = a' ∧ start + len < a + n) := by
        rintro ⟨rfl, hlt⟩
        have := h.gap hfree hold (by omega)
        omega
      rw [hget, if_neg hnot, if_neg (by omega), hold]
  · refine .inr ⟨k, b, ?_, hin⟩
    have hnone := h.no_block_in hfree hbehind (by omega)
    rw [getElem?_carveLive, if_neg (by rintro rfl; rw [hnone] at hk; cases hk), hk]

theorem Tiled.carve (h : Tiled base s) (hfree : s.free[a]? = some n)
    (hbehind : a + header ≤ start) (hend : start + len ≤ a + n) (hlen : 0 < len) :
    Tiled base (s.carve a n start len size) := by
  have hheader : header = 16 := rfl
  have hspan := h.span hfree
  have haway : ∀ {k : Nat} {b : Block}, s.live[k]? = some b → a + n ≤ b.chunk ∨ k + b.len ≤ a :=
    fun hk => h.beside hfree hk
  refine ⟨fun {k m} hk => ?_, fun {k m k' m'} hk hk' hlt => ?_, fun {k b} hk => ?_,
    fun {k k' b b'} hk hk' hlt => ?_, fun {k m k' b} hk hk' => ?_,
    fun x hlo hhi => h.carve_cover hfree hbehind hend hlen hlo hhi, ?_⟩
  · obtain ⟨hpos, ⟨rfl, hm⟩ | ⟨rfl, hm⟩ | ⟨hold, -⟩⟩ := h.carve_part hfree hbehind hend hlen hk
    · exact ⟨hpos, hspan.2.1, show _ ≤ base + s.capacity by omega⟩
    · exact ⟨hpos, by omega, show _ ≤ base + s.capacity by omega⟩
    · exact h.span hold
  · obtain ⟨hpos, hcase⟩ := h.carve_part hfree hbehind hend hlen hk
    obtain ⟨hpos', hcase'⟩ := h.carve_part hfree hbehind hend hlen hk'
    rcases hcase with ⟨rfl, hm⟩ | ⟨rfl, hm⟩ | ⟨hold, hout⟩ <;>
      rcases hcase' with ⟨rfl, hm'⟩ | ⟨rfl, hm'⟩ | ⟨hold', hout'⟩ <;> try omega
    exact h.gap hold hold' hlt
  · rw [getElem?_carveLive] at hk
    split at hk
    · next heq =>
      subst heq
      cases hk
      dsimp only
      exact ⟨by omega, hlen, by omega, show _ ≤ base + s.capacity by omega⟩
    · exact h.block hk
  · rw [getElem?_carveLive] at hk hk'
    split at hk
    · next heq =>
      subst heq
      cases hk
      rw [if_neg (by omega)] at hk'
      have hblock := h.block hk'
      have := haway hk'
      dsimp only
      omega
    · split at hk'
      · next heq =>
        subst heq
        cases hk'
        have hblock := h.block hk
        have := haway hk
        dsimp only
        omega
      · exact h.apart hk hk' hlt
  · obtain ⟨hpos, hcase⟩ := h.carve_part hfree hbehind hend hlen hk
    rw [getElem?_carveLive] at hk'
    split at hk'
    · next heq =>
      subst heq
      cases hk'
      dsimp only
      omega
    · have hblock := h.block hk'
      have hout := haway hk'
      rcases hcase with ⟨rfl, hm⟩ | ⟨rfl, hm⟩ | ⟨hold, -⟩
      · omega
      · omega
      · exact h.beside hold hk'
  · show s.inUse + (len + header) = _
    rw [show (s.carve a n start len size).live =
        s.live.insert start ⟨len, size, start - header⟩ from rfl,
      total_insert _ (h.no_block_in hfree hbehind (by omega)), h.used]
    exact Nat.add_comm _ _

end Carve

/-! ## Giving back -/

section GiveBack

variable {s : BasedSpace} {base k : Nat} {b : Block}

/-- A block given back is free as part of one span, which takes in the span right in front of it
and the one right behind it. -/
@[mk_iff]
structure Merges (s : BasedSpace) (k : Nat) (b : Block) (lo hi : Nat) : Prop where
  spans : ∀ a : Nat, (mergeFree s.free b.chunk (k + b.len))[a]? =
    if lo = a then some (hi - lo) else if k + b.len = a then none else s.free[a]?
  front : s.free[lo]? = some (b.chunk - lo) ∧ lo < b.chunk ∨
    lo = b.chunk ∧ ∀ a n : Nat, s.free[a]? = some n → a + n ≠ b.chunk
  behind : s.free[k + b.len]? = some (hi - (k + b.len)) ∧ k + b.len < hi ∨
    hi = k + b.len ∧ s.free[k + b.len]? = none

theorem mergeFree_spec (h : Tiled base s) (hk : s.live[k]? = some b) :
    ∃ lo hi, Merges s k b lo hi := by
  obtain ⟨hchunk, hlen, -, -⟩ := h.block hk
  have hheader : header = 16 := rfl
  -- the spans and the end after the span behind is taken in
  obtain ⟨free', hi, hpair, hfree', hbehind⟩ : ∃ free' hi,
      (match s.free[k + b.len]? with
        | some after => (s.free.erase (k + b.len), k + b.len + after)
        | none => (s.free, k + b.len)) = (free', hi) ∧
      (∀ a : Nat, free'[a]? = if k + b.len = a then none else s.free[a]?) ∧
      (s.free[k + b.len]? = some (hi - (k + b.len)) ∧ k + b.len < hi ∨
        hi = k + b.len ∧ s.free[k + b.len]? = none) := by
    cases hafter : s.free[k + b.len]? with
    | none =>
        refine ⟨_, _, rfl, fun a => ?_, .inr ⟨rfl, rfl⟩⟩
        split
        · next heq => rw [← heq, hafter]
        · rfl
    | some after =>
        have hpos := (h.span hafter).1
        refine ⟨_, _, rfl, fun a => ?_, .inl ⟨?_, by omega⟩⟩
        · simp only [TreeMap.getElem?_erase, Nat.compare_eq_eq]
        · rw [Nat.add_sub_cancel_left]
  simp only [merges_iff]
  unfold mergeFree
  rw [hpair]
  dsimp only
  cases hlast : lastLT free' b.chunk with
  | none =>
      refine ⟨b.chunk, hi, fun a => ?_, .inr ⟨rfl, fun a n ha hend => ?_⟩, hbehind⟩
      · simp only [TreeMap.getElem?_insert, Nat.compare_eq_eq, hfree']
      · have hpos := (h.span ha).1
        have ha' : free'[a]? = some n := by rw [hfree', if_neg (by omega), ha]
        have hnot := Nearest.not_of_last_none hlast ha'
        simp only [decide_eq_false_iff_not] at hnot
        omega
  | some e =>
      obtain ⟨before, beforeLen⟩ := e
      obtain ⟨hbefore, hlt⟩ := Nearest.last_mem hlast
      simp only [decide_eq_true_eq] at hlt
      have hbefore' : s.free[before]? = some beforeLen := by
        rwa [hfree', if_neg (by omega)] at hbefore
      dsimp only
      by_cases hend : before + beforeLen = b.chunk
      · rw [if_pos hend]
        refine ⟨before, hi, fun a => ?_, .inl ⟨?_, hlt⟩, hbehind⟩
        · simp only [TreeMap.getElem?_insert, TreeMap.getElem?_erase, Nat.compare_eq_eq, hfree']
          split <;> rfl
        · rw [hbefore', ← hend, Nat.add_sub_cancel_left]
      · rw [if_neg hend]
        refine ⟨b.chunk, hi, fun a => ?_, .inr ⟨rfl, fun a n ha hstop => hend ?_⟩, hbehind⟩
        · simp only [TreeMap.getElem?_insert, Nat.compare_eq_eq, hfree']
        · -- a span ending at the chunk is the last in front of it
          have hpos := (h.span ha).1
          have ha' : free'[a]? = some n := by rw [hfree', if_neg (by omega), ha]
          have hle : a ≤ before := Nearest.le_last hlast ha' (by simp; omega)
          by_cases heq : a = before
          · subst heq
            rw [ha] at hbefore'
            cases hbefore'
            exact hstop
          · have := h.gap ha hbefore' (by omega)
            omega

section Merged

variable {lo hi : Nat} (m : Merges s k b lo hi) (h : Tiled base s) (hk : s.live[k]? = some b)

include m h hk

theorem Merges.bounds :
    lo ≤ b.chunk ∧ k + b.len ≤ hi ∧ base ≤ lo ∧ hi ≤ base + s.capacity := by
  obtain ⟨hchunk, hlen, hbase, hcap⟩ := h.block hk
  have hlow : base ≤ lo ∧ lo ≤ b.chunk := by
    rcases m.front with ⟨hspan, hlt⟩ | ⟨rfl, -⟩
    · exact ⟨(h.span hspan).2.1, Nat.le_of_lt hlt⟩
    · exact ⟨hbase, le_refl _⟩
  have hhigh : k + b.len ≤ hi ∧ hi ≤ base + s.capacity := by
    rcases m.behind with ⟨hspan, hlt⟩ | ⟨rfl, -⟩
    · have := h.span hspan
      omega
    · exact ⟨le_refl _, hcap⟩
  omega

/-- The other spans end before the merged one or start after it, with a gap. -/
theorem Merges.other {a n : Nat} (ha : s.free[a]? = some n) (hnelo : a ≠ lo)
    (hnehi : a ≠ k + b.len) : a + n < lo ∨ hi < a := by
  obtain ⟨hchunk, hlen, -, -⟩ := h.block hk
  have hheader : header = 16 := rfl
  have hpos := (h.span ha).1
  rcases h.beside ha hk with hleft | hright
  · left
    rcases m.front with ⟨hspan, hlt⟩ | ⟨rfl, hnone⟩
    · rcases Nat.lt_trichotomy a lo with hlt' | heq | hgt
      · exact h.gap ha hspan hlt'
      · exact absurd heq hnelo
      · have := h.gap hspan ha hgt
        omega
    · have := hnone a n ha
      omega
  · right
    rcases m.behind with ⟨hspan, hlt⟩ | ⟨rfl, -⟩
    · have := h.gap hspan ha (by omega)
      omega
    · omega

theorem Merges.piece {a n : Nat}
    (ha : (mergeFree s.free b.chunk (k + b.len))[a]? = some n) :
    (a = lo ∧ n = hi - lo) ∨ (s.free[a]? = some n ∧ (a + n < lo ∨ hi < a)) := by
  rw [m.spans] at ha
  split at ha
  · next heq =>
    cases ha
    exact .inl ⟨heq.symm, rfl⟩
  · split at ha
    · cases ha
    · exact .inr ⟨ha, m.other h hk ha (by omega) (by omega)⟩

/-- The other blocks lie outside the merged span. -/
theorem Merges.block {k' : Nat} {b' : Block} (hk' : s.live[k']? = some b') (hne : k ≠ k') :
    k' + b'.len ≤ lo ∨ hi ≤ b'.chunk := by
  obtain ⟨hchunk, hlen, -, -⟩ := h.block hk
  obtain ⟨hchunk', hlen', -, -⟩ := h.block hk'
  have hheader : header = 16 := rfl
  rcases Nat.lt_or_gt_of_ne hne with hlt | hgt
  · have := h.apart hk hk' hlt
    rcases m.behind with ⟨hspan, -⟩ | ⟨rfl, -⟩
    · have := h.beside hspan hk'
      omega
    · omega
  · have := h.apart hk' hk hgt
    rcases m.front with ⟨hspan, -⟩ | ⟨rfl, -⟩
    · have := h.beside hspan hk'
      omega
    · omega

/-- A span that holds an address outside the merged one is kept. -/
theorem Merges.kept {a n x : Nat} (ha : s.free[a]? = some n) (hx : a ≤ x ∧ x < a + n)
    (hout : ¬ (lo ≤ x ∧ x < hi)) : (mergeFree s.free b.chunk (k + b.len))[a]? = some n := by
  obtain ⟨hchunk, hlen, -, -⟩ := h.block hk
  have hheader : header = 16 := rfl
  have hbounds := m.bounds h hk
  have hnelo : a ≠ lo := by
    rintro rfl
    rcases m.front with ⟨hspan, hlt⟩ | ⟨rfl, -⟩
    · rw [ha] at hspan
      cases hspan
      omega
    · have := h.beside ha hk
      omega
  have hnehi : a ≠ k + b.len := by
    rintro rfl
    rcases m.behind with ⟨hspan, hlt⟩ | ⟨rfl, hnone⟩
    · rw [ha] at hspan
      cases hspan
      omega
    · rw [hnone] at ha
      cases ha
  rw [m.spans, if_neg (Ne.symm hnelo), if_neg (Ne.symm hnehi), ha]

end Merged

theorem Tiled.giveBack (h : Tiled base s) (at_ : Nat) : Tiled base (s.giveBack at_).2 := by
  unfold BasedSpace.giveBack
  cases hk : s.live[at_]? with
  | none => exact h
  | some b =>
      obtain ⟨lo, hi, m⟩ := mergeFree_spec h hk
      obtain ⟨hchunk, hlen, -, -⟩ := h.block hk
      have hheader : header = 16 := rfl
      have hbounds := m.bounds h hk
      have hlive : ∀ {k' : Nat} {b' : Block}, (s.live.erase at_)[k']? = some b' →
          s.live[k']? = some b' ∧ at_ ≠ k' := by
        intro k' b' hk'
        simp only [TreeMap.getElem?_erase, Nat.compare_eq_eq] at hk'
        split at hk'
        · cases hk'
        · next hne => exact ⟨hk', hne⟩
      dsimp only
      refine ⟨fun {a n} ha => ?_, fun {a n a' n'} ha ha' hlt => ?_,
        fun {k' b'} hk' => h.block (hlive hk').1,
        fun {k' k'' b' b''} hk' hk'' hlt => h.apart (hlive hk').1 (hlive hk'').1 hlt,
        fun {a n k' b'} ha hk' => ?_, fun x hxlo hxhi => ?_, ?_⟩
      · rcases m.piece h hk ha with ⟨rfl, rfl⟩ | ⟨hold, -⟩
        · dsimp only
          omega
        · exact h.span hold
      · rcases m.piece h hk ha with ⟨rfl, rfl⟩ | ⟨hold, hout⟩ <;>
          rcases m.piece h hk ha' with ⟨rfl, rfl⟩ | ⟨hold', hout'⟩ <;> try omega
        exact h.gap hold hold' hlt
      · obtain ⟨hold', hne⟩ := hlive hk'
        have hout' := m.block h hk hold' hne
        rcases m.piece h hk ha with ⟨rfl, rfl⟩ | ⟨hold, -⟩
        · omega
        · exact h.beside hold hold'
      · by_cases hin : lo ≤ x ∧ x < hi
        · refine .inl ⟨lo, hi - lo, ?_, hin.1, by omega⟩
          exact (m.spans lo).trans (if_pos rfl)
        · obtain ⟨a, n, ha, hax⟩ | ⟨k', b', hk', hbx⟩ := h.cover x hxlo hxhi
          · exact .inl ⟨a, n, m.kept h hk ha hax hin, hax⟩
          · refine .inr ⟨k', b', ?_, hbx⟩
            simp only [TreeMap.getElem?_erase, Nat.compare_eq_eq]
            rw [if_neg, hk']
            rintro rfl
            rw [hk] at hk'
            cases hk'
            omega
      · have htotal := total_erase (fun b => b.len + header) hk
        have hused := h.used
        dsimp only
        omega

end GiveBack

theorem Tiled.take {s : BasedSpace} {base : Nat} (h : Tiled base s) (size align : Nat) :
    Tiled base (s.take size align).2 := by
  cases hr : (s.take size align).1 with
  | none => rwa [take_eq_none hr]
  | some r =>
      obtain ⟨a, n, start, len, hfree, hbehind, hend, -, -, hlen, -, -, hs'⟩ := take_eq_some hr
      rw [hs']
      exact h.carve hfree hbehind hend hlen

theorem run_tiled (base capacity : Nat) (ops : List Op) :
    Tiled base (arena.after (new base capacity) ops) := by
  refine Machine.after_inv (m := arena) (fun s op h => ?_) (tiled_new base capacity) ops
  cases op with
  | take size align => exact h.take size align
  | giveBack at_ => exact h.giveBack at_

theorem run_capacity (base capacity : Nat) (ops : List Op) :
    (arena.after (new base capacity) ops).capacity = capacity := by
  refine Machine.after_inv (m := arena) (I := fun s => s.capacity = capacity)
    (fun s op h => ?_) rfl ops
  cases op with
  | take size align =>
      show (s.take size align).2.capacity = capacity
      cases hr : (s.take size align).1 with
      | none => rwa [take_eq_none hr]
      | some r =>
          obtain ⟨a, n, start, len, -, -, -, -, -, -, -, -, hs'⟩ := take_eq_some hr
          rw [hs']
          exact h
  | giveBack at_ =>
      show (s.giveBack at_).2.capacity = capacity
      unfold giveBack
      split <;> exact h

/-- Giving a block just cut out of a span back restores the spans. -/
theorem giveBack_carve {s : BasedSpace} {base a n start len size : Nat} (h : Tiled base s)
    (hfree : s.free[a]? = some n) (hbehind : a + header ≤ start) (hend : start + len ≤ a + n)
    (hlen : 0 < len) (k : Nat) :
    ((s.carve a n start len size).giveBack start).2.free[k]? = s.free[k]? := by
  have hheader : header = 16 := rfl
  have hcarved : Tiled base (s.carve a n start len size) := h.carve hfree hbehind hend hlen
  have hlive : (s.carve a n start len size).live[start]? = some ⟨len, size, start - header⟩ := by
    simp [carve]
  have hget := getElem?_carveFree (s := s) hbehind hend hlen
  obtain ⟨lo, hi, hmerge, hlo, hhi⟩ := mergeFree_spec hcarved hlive
  simp only [giveBack, hlive]
  rw [hmerge]
  have hcarve : (s.carve a n start len size).free = carveFree s.free a n start len := rfl
  dsimp only at hlo hhi ⊢
  rw [hcarve] at hlo hhi ⊢
  -- the merged span is the one the block was cut out of
  have hlo' : lo = a := by
    by_cases hfront : a + header < start
    · have ha : (carveFree s.free a n start len)[a]? = some (start - header - a) := by
        rw [hget, if_neg (by omega), if_pos rfl, if_pos hfront]
      rcases hlo with ⟨hspan, hlt⟩ | ⟨rfl, hnone⟩
      · rcases Nat.lt_trichotomy lo a with hlt' | heq | hgt
        · have := hcarved.gap hspan ha hlt'
          omega
        · exact heq
        · have := hcarved.gap ha hspan hgt
          omega
      · exact absurd (by omega) (hnone a _ ha)
    · rcases hlo with ⟨hspan, hlt⟩ | ⟨rfl, -⟩
      · rw [hget, if_neg (by omega), if_neg (by omega)] at hspan
        have := h.gap hspan hfree (by omega)
        omega
      · omega
  have hhi' : hi = a + n := by
    rw [hget] at hhi
    by_cases hback : start + len < a + n
    · rw [if_pos ⟨rfl, hback⟩] at hhi
      rcases hhi with ⟨hspan, hlt⟩ | ⟨-, hnone⟩
      · simp only [Option.some.injEq] at hspan
        omega
      · cases hnone
    · rw [if_neg (by omega), if_neg (by omega),
        h.no_span_in hfree (by omega) hend] at hhi
      rcases hhi with ⟨hspan, -⟩ | ⟨rfl, -⟩
      · cases hspan
      · omega
  subst hlo' hhi'
  by_cases ha : lo = k
  · subst ha
    rw [if_pos rfl, hfree, Nat.add_sub_cancel_left]
  · rw [if_neg ha]
    by_cases hstop : start + len = k
    · subst hstop
      rw [if_pos rfl, h.no_span_in hfree (by omega) hend]
    · rw [if_neg hstop, hget, if_neg (fun heq => hstop heq.1), if_neg ha]

theorem dvd_of_isPowerOfTwo {align x : Nat} (hpow : isPowerOfTwo align = true)
    (h : max align granule ∣ x) : align ∣ x := by
  by_cases hle : granule ≤ align
  · rwa [max_eq_left hle] at h
  · rw [max_eq_right (by omega)] at h
    refine dvd_trans ?_ h
    have hlt : align < 16 := Nat.lt_of_not_le hle
    interval_cases align <;> first | decide | (exact absurd hpow (by decide))

theorem mem_freeSpans {s : BasedSpace} {p : Nat × Nat} : p ∈ s.freeSpans ↔
    ∃ a n : Nat, s.free[a]? = some n ∧ p = (a, a + n) := by
  simp only [freeSpans, List.mem_map, Prod.exists, Nearest.mem_toList, eq_comm]

theorem mem_chunks {s : BasedSpace} {p : Nat × Nat} : p ∈ s.chunks ↔
    ∃ (k : Nat) (b : Block), s.live[k]? = some b ∧ p = (b.chunk, k + b.len) := by
  simp only [chunks, List.mem_map, Prod.exists, Nearest.mem_toList, eq_comm]

section Tiling

variable {s : BasedSpace} {base : Nat}

theorem Tiled.gaps (h : Tiled base s) : s.freeSpans.Pairwise (fun p q => p.2 < q.1) := by
  rw [freeSpans, List.pairwise_map]
  exact (Nearest.toList_sorted s.free).imp_of_mem (fun {e e'} he he' hlt =>
    h.gap (Nearest.mem_toList.mp he) (Nearest.mem_toList.mp he') hlt)

theorem Tiled.pairwise (h : Tiled base s) :
    (s.freeSpans ++ s.chunks).Pairwise (fun p q => p.2 ≤ q.1 ∨ q.2 ≤ p.1) := by
  refine List.pairwise_append.mpr ⟨h.gaps.imp (fun hlt => .inl (Nat.le_of_lt hlt)), ?_, ?_⟩
  · rw [chunks, List.pairwise_map]
    exact (Nearest.toList_sorted s.live).imp_of_mem (fun {e e'} he he' hlt =>
      .inl (h.apart (Nearest.mem_toList.mp he) (Nearest.mem_toList.mp he') hlt))
  · intro p hp q hq
    obtain ⟨a, n, ha, rfl⟩ := mem_freeSpans.mp hp
    obtain ⟨k, b, hk, rfl⟩ := mem_chunks.mp hq
    exact h.beside ha hk

/-- A span or a chunk has a byte, and lies in the arena. -/
theorem Tiled.inside (h : Tiled base s) {p : Nat × Nat} (hp : p ∈ s.freeSpans ++ s.chunks) :
    base ≤ p.1 ∧ p.1 < p.2 ∧ p.2 ≤ base + s.capacity := by
  have hheader : header = 16 := rfl
  rcases List.mem_append.mp hp with hp | hp
  · obtain ⟨a, n, ha, rfl⟩ := mem_freeSpans.mp hp
    have := h.span ha
    dsimp only
    omega
  · obtain ⟨k, b, hk, rfl⟩ := mem_chunks.mp hp
    have := h.block hk
    dsimp only
    omega

theorem Tiled.covers_iff (h : Tiled base s) (x : Nat) : (base ≤ x ∧ x < base + s.capacity) ↔
    ∃ p ∈ s.freeSpans ++ s.chunks, p.1 ≤ x ∧ x < p.2 := by
  constructor
  · rintro ⟨hlo, hhi⟩
    obtain ⟨a, n, ha, hin⟩ | ⟨k, b, hk, hin⟩ := h.cover x hlo hhi
    · exact ⟨_, List.mem_append_left _ (mem_freeSpans.mpr ⟨a, n, ha, rfl⟩), hin⟩
    · exact ⟨_, List.mem_append_right _ (mem_chunks.mpr ⟨k, b, hk, rfl⟩), hin⟩
  · rintro ⟨p, hp, hlo, hhi⟩
    have hinside := h.inside hp
    omega

theorem Tiled.inUse_eq (h : Tiled base s) :
    s.inUse = (s.chunks.map (fun p => p.2 - p.1)).sum := by
  have hheader : header = 16 := rfl
  rw [h.used, total, chunks, List.map_map]
  congr 1
  refine List.map_congr_left (fun e he => ?_)
  have := h.block (Nearest.mem_toList.mp he)
  simp only [Function.comp_apply]
  omega

theorem Tiled.take_spec (h : Tiled base s) {size align : Nat} {r : Nat × Nat × Nat}
    (hr : (s.take size align).1 = some r) :
    max align granule ∣ r.1 ∧ (isPowerOfTwo align = true → align ∣ r.1) ∧
      r.2.1 + header = r.1 ∧ size + header ≤ r.2.2 ∧ base ≤ r.2.1 ∧
      r.2.1 + r.2.2 ≤ base + s.capacity ∧ (s.take size align).2.lengthOf r.1 = some size ∧
      ∀ k : Nat, ((s.take size align).2.giveBack r.1).2.free[k]? = s.free[k]? := by
  have hheader : header = 16 := rfl
  obtain ⟨a, n, start, len, hfree, hbehind, hend, hdvd, hsize, hlen, hpow, rfl, hs'⟩ :=
    take_eq_some hr
  have hin := h.span hfree
  refine ⟨hdvd, fun hp => dvd_of_isPowerOfTwo hp hdvd, by dsimp only; omega,
    by dsimp only; omega, by dsimp only; omega, by dsimp only; omega, ?_, fun k => ?_⟩
  · rw [hs']
    simp [lengthOf, BasedSpace.carve]
  · rw [hs']
    exact giveBack_carve h hfree hbehind hend hlen k

end Tiling

/-- After any run, the free spans and the live chunks tile the arena, no two free spans
touch, the bytes in use are those of the live chunks, and a block handed out is at a
multiple of the larger of the alignment asked and the granule, behind its header and
inside the arena, its size as asked; given back at once, it leaves the free spans as they were. -/
theorem arena_tiled (base capacity : Nat) (ops : List Op) :
    let s := arena.after (new base capacity) ops
    (s.freeSpans ++ s.chunks).Pairwise (fun p q => p.2 ≤ q.1 ∨ q.2 ≤ p.1) ∧
      (∀ p ∈ s.freeSpans ++ s.chunks, p.1 < p.2) ∧
      (∀ x, (base ≤ x ∧ x < base + capacity) ↔
        ∃ p ∈ s.freeSpans ++ s.chunks, p.1 ≤ x ∧ x < p.2) ∧
      s.freeSpans.Pairwise (fun p q => p.2 < q.1) ∧
      s.inUse = (s.chunks.map (fun p => p.2 - p.1)).sum ∧
      ∀ size align r, (s.take size align).1 = some r →
        max align granule ∣ r.1 ∧ (isPowerOfTwo align = true → align ∣ r.1) ∧
          r.2.1 + header = r.1 ∧ size + header ≤ r.2.2 ∧ base ≤ r.2.1 ∧
          r.2.1 + r.2.2 ≤ base + capacity ∧ (s.take size align).2.lengthOf r.1 = some size ∧
          ∀ k : Nat, ((s.take size align).2.giveBack r.1).2.free[k]? = s.free[k]? := by
  intro s
  have h : Tiled base s := run_tiled base capacity ops
  have hcapacity : s.capacity = capacity := run_capacity base capacity ops
  refine ⟨h.pairwise, fun p hp => (h.inside hp).2.1, fun x => ?_, h.gaps, h.inUse_eq,
    fun size align r hr => ?_⟩
  · rw [← hcapacity]
    exact h.covers_iff x
  · rw [← hcapacity]
    exact h.take_spec hr

/-- An alignment below the granule that is no power of two is asked for and not kept. -/
theorem three_not_kept : ((new 0 64).take 1 3).1 = some (16, 0, 32) ∧ ¬ 3 ∣ 16 := by
  decide

end BasedSpace

end Orbistoun.Libc.Mspace
