import Mathlib.Tactic
import Orbistoun.Translate.DeviceAddress.Held

/-! # The table a list of mappings builds

What `build` accepts is sorted, aligned and apart, so its chunks are each numbered once; placing them
lays out the map from each chunk to what its mapping adds. A mapping whose end is past the last
64-bit word has no chunks at all, as its end wraps.
-/

namespace Orbistoun.Translate.DeviceAddress

open Orbistoun.Lib

variable {chunk delta bits shift guest count : Nat} {words : List Nat} {chunks : List (Nat × Nat)}
  {mapping : Mapped} {mapped sorted : List Mapped} {table : Table}

/-! ## Chunks placed -/

theorem lookup_eq_none_iff : chunks.lookup chunk = none ↔ ∀ delta, (chunk, delta) ∉ chunks := by
  rw [List.lookup_eq_none_iff]
  constructor
  · intro h delta hmem
    simpa using h (chunk, delta) hmem
  · rintro h ⟨other, delta⟩ hmem
    by_contra heq
    have hsame : chunk = other := by simpa using heq
    exact h delta (hsame ▸ hmem)

theorem mem_of_lookup (h : chunks.lookup chunk = some delta) : (chunk, delta) ∈ chunks := by
  obtain ⟨before, after, rfl, -⟩ := List.lookup_eq_some_iff.mp h
  exact List.mem_append_right _ List.mem_cons_self

/-- Chunks numbered once are looked up as what they are listed with. -/
theorem lookup_of_mem (hnodup : (chunks.map Prod.fst).Nodup) (h : (chunk, delta) ∈ chunks) :
    chunks.lookup chunk = some delta := by
  cases hfound : chunks.lookup chunk with
  | none => exact absurd h (lookup_eq_none_iff.mp hfound delta)
  | some found =>
    have hmem := mem_of_lookup hfound
    have heq := List.inj_on_of_nodup_map hnodup hmem h rfl
    rw [(Prod.mk.inj heq).2]

/-- Chunks fit for a table: numbered once, each an address's, each with a 64-bit word to add. -/
structure Proper (chunks : List (Nat × Nat)) : Prop where
  nodup : (chunks.map Prod.fst).Nodup
  chunk_lt : ∀ entry ∈ chunks, entry.1 < 2 ^ 52
  delta_lt : ∀ entry ∈ chunks, entry.2 < U64.bound

theorem placeFrom_laid {placed rest : List (Nat × Nat)} {words' : List Nat}
    (hproper : Proper (placed ++ rest)) (h : Laid bits words (placed.lookup ·))
    (hplace : placeFrom bits words rest = some words') :
    Laid bits words' ((placed ++ rest).lookup ·) := by
  induction rest generalizing placed words with
  | nil =>
    cases hplace
    rwa [List.append_nil]
  | cons entry rest ih =>
    obtain ⟨chunk, delta⟩ := entry
    have hentry : (chunk, delta) ∈ placed ++ (chunk, delta) :: rest :=
      List.mem_append_right _ List.mem_cons_self
    have hnew : placed.lookup chunk = none := by
      rw [lookup_eq_none_iff]
      intro other hmem
      have hnodup := hproper.nodup
      rw [List.map_append, List.map_cons, List.nodup_append] at hnodup
      exact hnodup.2.2 chunk (List.mem_map.mpr ⟨_, hmem, rfl⟩) chunk List.mem_cons_self rfl
    rw [placeFrom] at hplace
    cases hfree : freeSlot bits words chunk with
    | none =>
      rw [hfree] at hplace
      cases hplace
    | some free =>
      rw [hfree] at hplace
      have hstep := h.placed hfree hnew (hproper.chunk_lt _ hentry) (hproper.delta_lt _ hentry)
      have hmap : Function.update (placed.lookup ·) chunk (some delta) =
          ((placed ++ [(chunk, delta)]).lookup ·) := by
        funext other
        rw [Function.update_apply, List.lookup_append]
        by_cases hother : other = chunk
        · rw [if_pos hother, hother, hnew, Option.none_or, List.lookup_cons_self]
        · rw [if_neg hother, List.lookup_cons, beq_false_of_ne hother]
          simp
      rw [hmap] at hstep
      rw [← List.singleton_append, ← List.append_assoc] at hproper ⊢
      exact ih hproper hstep hplace

theorem place_laid (hbits : 1 ≤ bits) (hproper : Proper chunks)
    (hplace : place bits chunks = some words) : Laid bits words (chunks.lookup ·) := by
  have hproper' : Proper ([] ++ chunks) := hproper
  exact placeFrom_laid hproper' (laid_cleared hbits) hplace

theorem probed_lt {cell : Nat} (h : cell ∈ probed bits chunk) : cell < 2 ^ 30 := by
  obtain ⟨probe, -, rfl⟩ := List.mem_map.mp h
  exact cellOf_lt

theorem length_le_of_laid (hnodup : (chunks.map Prod.fst).Nodup)
    (h : Laid bits words (chunks.lookup ·)) : chunks.length ≤ 2 ^ 30 := by
  have hle := h.holds.length_le hnodup (fun key hkey => by
    obtain ⟨entry, hmem, rfl⟩ := List.mem_map.mp hkey
    exact ⟨entry.2, lookup_of_mem hnodup hmem⟩) (Finset.range (2 ^ 30))
    (fun key cell hcell => Finset.mem_range.mpr (probed_lt hcell))
  rwa [Finset.card_range, List.length_map] at hle

/-! ## The size -/

theorem trailingZeros_two_pow {width k : Nat} (h : k ≤ width) :
    trailingZeros width (2 ^ k) = k := by
  induction width generalizing k with
  | zero =>
    rw [Nat.le_zero.mp h]
    rfl
  | succ width ih =>
    cases k with
    | zero => rfl
    | succ k =>
      rw [trailingZeros, if_neg (by rw [pow_succ]; omega), pow_succ, Nat.mul_div_cancel _ (by decide),
        ih (Nat.le_of_succ_le_succ h)]

/-- A word is a multiple of a power of two exactly where it has as many trailing zeros. -/
theorem le_trailingZeros_iff {width k x : Nat} (h : k ≤ width) :
    k ≤ trailingZeros width x ↔ 2 ^ k ∣ x := by
  induction width generalizing k x with
  | zero =>
    rw [Nat.le_zero.mp h]
    simp
  | succ width ih =>
    cases k with
    | zero => simp
    | succ k =>
      rw [trailingZeros]
      split
      · next hodd =>
        constructor
        · intro hle
          exact absurd hle (Nat.not_succ_le_zero k)
        · rintro ⟨m, rfl⟩
          rw [pow_succ, mul_comm (2 ^ k), mul_assoc] at hodd
          omega
      · next heven =>
        rw [Nat.succ_le_succ_iff, ih (Nat.le_of_succ_le_succ h), pow_succ]
        constructor
        · rintro ⟨m, hm⟩
          exact ⟨m, by rw [mul_right_comm, ← hm]; omega⟩
        · rintro ⟨m, rfl⟩
          exact ⟨m, by rw [mul_right_comm, Nat.mul_div_cancel _ (by decide)]⟩

theorem firstBits_pos : 1 ≤ firstBits count := le_max_right _ _

theorem firstBits_le (h : count ≤ 2 ^ 30) : firstBits count ≤ 31 := by
  have hclog : Nat.clog 2 (max count 1 * 2) ≤ 31 := by
    apply Nat.clog_le_of_le_pow
    omega
  unfold firstBits nextPowerOfTwo
  rw [trailingZeros_two_pow (hclog.trans (by decide))]
  omega

/-- The table fitted: the size is the first or a bounded one, and the chunks are placed in it. -/
theorem fit_ok {tries : Nat} (h : fit chunks shift tries bits = .ok table) :
    table.shift = shift ∧ place table.bits chunks = some table.words ∧ bits ≤ table.bits ∧
      (table.bits = bits ∨ table.bits ≤ bits + tries) := by
  induction tries generalizing bits with
  | zero =>
    rw [fit] at h
    cases hplace : place bits chunks with
    | none =>
      rw [hplace] at h
      cases h
    | some words =>
      rw [hplace] at h
      cases h
      exact ⟨rfl, hplace, Nat.le_refl _, .inl rfl⟩
  | succ tries ih =>
    rw [fit] at h
    cases hplace : place bits chunks with
    | none =>
      rw [hplace] at h
      obtain ⟨hshift, hplaced, hle, hbits⟩ := ih h
      exact ⟨hshift, hplaced, by omega, by omega⟩
    | some words =>
      rw [hplace] at h
      cases h
      exact ⟨rfl, hplace, Nat.le_refl _, .inl rfl⟩

theorem fit_error {tries : Nat} {e : TableError} (h : fit chunks shift tries bits = .error e) :
    e = .TooLarge chunks.length := by
  induction tries generalizing bits with
  | zero =>
    rw [fit] at h
    cases hplace : place bits chunks with
    | none =>
      rw [hplace] at h
      cases h
      rfl
    | some words =>
      rw [hplace] at h
      cases h
  | succ tries ih =>
    rw [fit] at h
    cases hplace : place bits chunks with
    | none =>
      rw [hplace] at h
      exact ih h
    | some words =>
      rw [hplace] at h
      cases h

end Orbistoun.Translate.DeviceAddress
