import Mathlib.Tactic
import Orbistoun.Translate.DeviceAddress.Placed

/-! # Which lists of mappings build a table

A list is refused as misaligned, as overlapping, or for its size; one that is accepted is laid out
chunk by chunk, and every guest address is in the chunk of the one mapping that holds it.
-/

namespace Orbistoun.Translate.DeviceAddress

open Orbistoun.Lib

variable {chunk shift guest : Nat} {mapping one other : Mapped} {mapped sorted : List Mapped}
  {table : Table}

namespace Mapped

/-- A mapping holds the guest addresses from its start up to its length. -/
def Holds (mapping : Mapped) (guest : Nat) : Prop :=
  mapping.guest ≤ guest ∧ guest < mapping.guest + mapping.len

instance (mapping : Mapped) (guest : Nat) : Decidable (mapping.Holds guest) :=
  inferInstanceAs (Decidable (_ ∧ _))

/-- A mapping is not empty and its start and length are multiples of the host's page. -/
def PageAligned (mapping : Mapped) : Prop :=
  mapping.len ≠ 0 ∧ 2 ^ LEAST_CHUNK_SHIFT ∣ mapping.guest ∧ 2 ^ LEAST_CHUNK_SHIFT ∣ mapping.len

/-- Two mappings share no byte. -/
def Apart (one other : Mapped) : Prop := ∀ guest, ¬ (one.Holds guest ∧ other.Holds guest)

def EndsBelow (mapping : Mapped) : Prop := mapping.guest + mapping.len < U64.bound

def delta (mapping : Mapped) : Nat :=
  (mapping.device + U64.bound - mapping.guest) % U64.bound

theorem Apart.symm (h : one.Apart other) : other.Apart one := fun guest hg => h guest hg.symm

end Mapped

/-! ## Alignment -/

theorem two_pow_dvd_or {k a b : Nat} : 2 ^ k ∣ a ||| b ↔ 2 ^ k ∣ a ∧ 2 ^ k ∣ b := by
  rw [Nat.dvd_iff_mod_eq_zero, Nat.dvd_iff_mod_eq_zero, Nat.dvd_iff_mod_eq_zero, Nat.or_mod_two_pow,
    Nat.or_eq_zero_iff]

theorem le_alignment_iff {k : Nat} (h : k ≤ 64) :
    k ≤ trailingZeros 64 (mapping.guest ||| mapping.len) ↔
      2 ^ k ∣ mapping.guest ∧ 2 ^ k ∣ mapping.len := by
  rw [le_trailingZeros_iff h, two_pow_dvd_or]

theorem refused_iff :
    (mapping.len = 0 ∨
        trailingZeros 64 (mapping.guest ||| mapping.len) < LEAST_CHUNK_SHIFT) ↔
      ¬ mapping.PageAligned := by
  rw [← Nat.not_le, le_alignment_iff (by decide)]
  unfold Mapped.PageAligned
  tauto

theorem chunkShift_error (h : ∃ mapping ∈ sorted, ¬ mapping.PageAligned) :
    ∃ guest len, chunkShift shift sorted = .error (.Misaligned guest len) := by
  induction sorted generalizing shift with
  | nil =>
    obtain ⟨_, hmem, -⟩ := h
    cases hmem
  | cons first rest ih =>
    rw [chunkShift]
    by_cases hfirst : first.PageAligned
    · rw [if_neg (fun hbad => refused_iff.mp hbad hfirst)]
      apply ih
      obtain ⟨mapping, hmem, hbad⟩ := h
      rcases List.mem_cons.mp hmem with rfl | hmem
      · exact absurd hfirst hbad
      · exact ⟨mapping, hmem, hbad⟩
    · rw [if_pos (refused_iff.mpr hfirst)]
      exact ⟨_, _, rfl⟩

theorem chunkShift_ok (h : ∀ mapping ∈ sorted, mapping.PageAligned) (hshift : shift ≤ 64) :
    ∃ chosen, chunkShift shift sorted = .ok chosen ∧ chosen ≤ shift ∧
      (LEAST_CHUNK_SHIFT ≤ shift → LEAST_CHUNK_SHIFT ≤ chosen) ∧
      ∀ mapping ∈ sorted, 2 ^ chosen ∣ mapping.guest ∧ 2 ^ chosen ∣ mapping.len := by
  induction sorted generalizing shift with
  | nil => exact ⟨shift, rfl, Nat.le_refl _, id, fun _ hmem => by cases hmem⟩
  | cons first rest ih =>
    have hfirst := h first List.mem_cons_self
    have hleast : LEAST_CHUNK_SHIFT ≤ trailingZeros 64 (first.guest ||| first.len) :=
      (le_alignment_iff (by decide)).mpr hfirst.2
    rw [chunkShift, if_neg (fun hbad => refused_iff.mp hbad hfirst)]
    obtain ⟨chosen, hchosen, hle, hfloor, hdvd⟩ :=
      ih (fun mapping hmem => h mapping (List.mem_cons_of_mem _ hmem))
        ((min_le_left shift _).trans hshift)
    refine ⟨chosen, hchosen, hle.trans (min_le_left _ _), fun hshift => hfloor (le_min hshift hleast),
      ?_⟩
    intro mapping hmem
    rcases List.mem_cons.mp hmem with rfl | hmem
    · exact (le_alignment_iff (hle.trans ((min_le_left shift _).trans hshift))).mp
        (hle.trans (min_le_right _ _))
    · exact hdvd mapping hmem

/-! ## Overlap -/

theorem saturatingAdd_le_iff {x y : Nat} (h : guest + 1 < U64.bound) :
    U64.saturatingAdd x y ≤ guest ↔ x + y ≤ guest := by
  unfold U64.saturatingAdd
  omega

theorem start_lt (h : mapping.PageAligned) : mapping.guest + 1 < U64.bound := by
  have hlt := mapping.guest_lt
  obtain ⟨m, hm⟩ := h.2.1
  unfold LEAST_CHUNK_SHIFT at hm
  unfold U64.bound at hlt ⊢
  omega

theorem apart_error : ∀ {sorted : List Mapped} {e : TableError}, apart sorted = .error e →
    ∃ first second, e = .Overlap first second
  | [], _, h => by cases h
  | [_], _, h => by cases h
  | one :: other :: rest, e, h => by
    rw [apart] at h
    split at h
    · cases h
      exact ⟨_, _, rfl⟩
    · exact apart_error h

theorem apart_ok_iff : ∀ {sorted : List Mapped}, (∀ mapping ∈ sorted, mapping.PageAligned) →
    (apart sorted = .ok () ↔ sorted.Pairwise (fun one other => one.guest + one.len ≤ other.guest))
  | [], _ => iff_of_true rfl List.Pairwise.nil
  | [_], _ => iff_of_true rfl (List.pairwise_singleton _ _)
  | one :: other :: rest, h => by
    have haligned : ∀ mapping ∈ other :: rest, mapping.PageAligned :=
      fun mapping hmem => h mapping (List.mem_cons_of_mem _ hmem)
    have hrest := apart_ok_iff haligned
    have hiff := saturatingAdd_le_iff (start_lt (haligned other List.mem_cons_self))
      (x := one.guest) (y := one.len)
    rw [apart, List.pairwise_cons]
    by_cases hle : one.guest + one.len ≤ other.guest
    · rw [if_neg (Nat.not_lt.mpr (hiff.mpr hle)), hrest]
      constructor
      · intro hpairs
        refine ⟨?_, hpairs⟩
        intro mapping hmem
        rcases List.mem_cons.mp hmem with rfl | hmem
        · exact hle
        · have hnext := (List.pairwise_cons.mp hpairs).1 mapping hmem
          omega
      · exact And.right
    · rw [if_pos (Nat.lt_of_not_le (fun h => hle (hiff.mp h)))]
      apply iff_of_false
      · intro herror
        cases herror
      · intro hpairs
        exact hle (hpairs.1 other List.mem_cons_self)

/-- Mappings in order are apart exactly where each ends at or before the next starts. -/
theorem apart_iff_le (hother : other.PageAligned)
    (hle : one.guest ≤ other.guest) :
    one.Apart other ↔ one.guest + one.len ≤ other.guest := by
  have hlen := Nat.pos_of_ne_zero hother.1
  constructor
  · intro hapart
    by_contra hlt
    exact hapart other.guest ⟨⟨hle, Nat.lt_of_not_le hlt⟩, Nat.le_refl _, Nat.lt_add_of_pos_right hlen⟩
  · rintro hend guest ⟨⟨-, hlt⟩, hge, -⟩
    omega

/-- The mappings in the order of their starts. -/
abbrev inOrder (mapped : List Mapped) : List Mapped :=
  mapped.insertionSort (fun one other => one.guest ≤ other.guest)

theorem inOrder_perm : (inOrder mapped).Perm mapped := List.perm_insertionSort _ _

theorem mem_inOrder : mapping ∈ inOrder mapped ↔ mapping ∈ mapped := inOrder_perm.mem_iff

theorem inOrder_sorted :
    (inOrder mapped).Pairwise (fun one other => one.guest ≤ other.guest) := by
  have : Std.Total (fun one other : Mapped => one.guest ≤ other.guest) :=
    ⟨fun one other => Nat.le_total _ _⟩
  have : IsTrans Mapped (fun one other => one.guest ≤ other.guest) :=
    ⟨fun _ _ _ => Nat.le_trans⟩
  exact List.pairwise_insertionSort _ _

theorem inOrder_apart_iff (h : ∀ mapping ∈ mapped, mapping.PageAligned) :
    (inOrder mapped).Pairwise (fun one other => one.guest + one.len ≤ other.guest) ↔
      mapped.Pairwise Mapped.Apart := by
  rw [← inOrder_perm.pairwise_iff (fun hapart => Mapped.Apart.symm hapart)]
  have hsorted : (inOrder mapped).Pairwise (fun one other => one.guest ≤ other.guest) :=
    inOrder_sorted
  have haligned : ∀ mapping ∈ inOrder mapped, mapping.PageAligned :=
    fun mapping hmem => h mapping (mem_inOrder.mp hmem)
  constructor
  · intro hpairs
    exact (hsorted.and hpairs).imp_of_mem (fun _ hother hboth =>
      (apart_iff_le (haligned _ hother) hboth.1).mpr hboth.2)
  · intro hpairs
    exact (hsorted.and hpairs).imp_of_mem (fun _ hother hboth =>
      (apart_iff_le (haligned _ hother) hboth.1).mp hboth.2)

/-! ## Chunks of mappings -/

theorem mem_chunks {value : Nat} : (chunk, value) ∈ mapping.chunks shift ↔
    mapping.guest / 2 ^ shift ≤ chunk ∧
      chunk < (mapping.guest + mapping.len) % U64.bound / 2 ^ shift ∧ value = mapping.delta := by
  unfold Mapped.chunks
  rw [List.mem_map]
  constructor
  · rintro ⟨other, hmem, heq⟩
    obtain ⟨rfl, rfl⟩ := Prod.mk.inj heq
    rw [List.mem_range'_1] at hmem
    exact ⟨hmem.1, by omega, rfl⟩
  · rintro ⟨hfirst, hlast, rfl⟩
    refine ⟨chunk, ?_, rfl⟩
    rw [List.mem_range'_1]
    omega

theorem div_le_div_iff_of_dvd {n x y : Nat} (hpos : 0 < n) (h : n ∣ x) : x / n ≤ y / n ↔ x ≤ y := by
  rw [Nat.le_div_iff_mul_le hpos, Nat.div_mul_cancel h]

theorem div_lt_div_iff_of_dvd {n x y : Nat} (hpos : 0 < n) (h : n ∣ y) : x / n < y / n ↔ x < y := by
  rw [Nat.div_lt_iff_lt_mul hpos, Nat.div_mul_cancel h]

theorem mem_chunks_iff {value : Nat} (hstart : 2 ^ shift ∣ mapping.guest)
    (hlen : 2 ^ shift ∣ mapping.len) :
    (guest / 2 ^ shift, value) ∈ mapping.chunks shift ↔
      mapping.Holds guest ∧ mapping.EndsBelow ∧ value = mapping.delta := by
  have hpos : 0 < 2 ^ shift := Nat.two_pow_pos shift
  have hlen_lt := mapping.len_lt
  rw [mem_chunks]
  unfold Mapped.Holds
  by_cases hbelow : mapping.EndsBelow
  · rw [Nat.mod_eq_of_lt hbelow, div_le_div_iff_of_dvd hpos hstart,
      div_lt_div_iff_of_dvd hpos (Nat.dvd_add hstart hlen)]
    tauto
  · apply iff_of_false
    · rintro ⟨hfirst, hlast, -⟩
      have hwraps : (mapping.guest + mapping.len) % U64.bound ≤ mapping.guest := by
        have hstart_lt := mapping.guest_lt
        unfold Mapped.EndsBelow at hbelow
        unfold U64.bound at *
        omega
      have hle := Nat.div_le_div_right (c := 2 ^ shift) hwraps
      omega
    · rintro ⟨-, hbelow', -⟩
      exact hbelow hbelow'

theorem delta_lt : mapping.delta < U64.bound := Nat.mod_lt _ (Nat.two_pow_pos 64)

abbrev chunksOf (shift : Nat) (mapped : List Mapped) : List (Nat × Nat) :=
  (inOrder mapped).flatMap (Mapped.chunks shift)

theorem mem_chunksOf {entry : Nat × Nat} :
    entry ∈ chunksOf shift mapped ↔ ∃ mapping ∈ mapped, entry ∈ mapping.chunks shift := by
  rw [List.mem_flatMap]
  simp only [mem_inOrder]

/-- Chunks of aligned mappings that are apart are each numbered once. -/
theorem chunksOf_proper (hleast : LEAST_CHUNK_SHIFT ≤ shift)
    (hapart : (inOrder mapped).Pairwise
      (fun one other => one.guest + one.len ≤ other.guest)) :
    Proper (chunksOf shift mapped) := by
  have hpos : 0 < 2 ^ shift := Nat.two_pow_pos shift
  have hlast : ∀ mapping : Mapped,
      (mapping.guest + mapping.len) % U64.bound ≤ mapping.guest + mapping.len :=
    fun mapping => Nat.mod_le _ _
  constructor
  · rw [List.map_flatMap, List.nodup_flatMap]
    constructor
    · intro mapping _
      unfold Mapped.chunks
      rw [List.map_map]
      apply List.Nodup.map (fun _ _ heq => heq)
      exact List.nodup_range'
    · apply hapart.imp_of_mem
      intro one other hone hother hle chunk hin hin'
      obtain ⟨⟨_, v⟩, hmem, rfl⟩ := List.mem_map.mp hin
      obtain ⟨⟨_, w⟩, hmem', heq⟩ := List.mem_map.mp hin'
      dsimp only at heq
      subst heq
      have hone' := mem_chunks.mp hmem
      have hother' := mem_chunks.mp hmem'
      have hmid := Nat.div_le_div_right (c := 2 ^ shift) ((hlast one).trans hle)
      omega
  · intro entry hmem
    obtain ⟨mapping, -, hchunk⟩ := mem_chunksOf.mp hmem
    obtain ⟨-, hlt, -⟩ := mem_chunks.mp hchunk
    have hbound : (mapping.guest + mapping.len) % U64.bound < 2 ^ 52 * 2 ^ shift := by
      calc (mapping.guest + mapping.len) % U64.bound
          < U64.bound := Nat.mod_lt _ (Nat.two_pow_pos 64)
        _ = 2 ^ 52 * 2 ^ LEAST_CHUNK_SHIFT := rfl
        _ ≤ 2 ^ 52 * 2 ^ shift := Nat.mul_le_mul_left _ (Nat.pow_le_pow_right (by decide) hleast)
    exact hlt.trans ((Nat.div_lt_iff_lt_mul hpos).mpr hbound)
  · intro entry hmem
    obtain ⟨mapping, -, hchunk⟩ := mem_chunksOf.mp hmem
    obtain ⟨-, -, hvalue⟩ := mem_chunks.mp hchunk
    rw [hvalue]
    exact delta_lt

/-! ## Building -/

structure Built (mapped : List Mapped) (table : Table) : Prop where
  aligned : ∀ mapping ∈ mapped, mapping.PageAligned
  apart : mapped.Pairwise Mapped.Apart
  dvd : ∀ mapping ∈ mapped, 2 ^ table.shift ∣ mapping.guest ∧ 2 ^ table.shift ∣ mapping.len
  least : LEAST_CHUNK_SHIFT ≤ table.shift
  bits : table.bits ≤ 31
  laid : Laid table.bits table.words ((chunksOf table.shift mapped).lookup ·)

theorem build_eq : build mapped =
    (chunkShift MOST_CHUNK_SHIFT (inOrder mapped)).bind (fun shift =>
      (apart (inOrder mapped)).bind (fun _ =>
        fit (chunksOf shift mapped) shift
          (MOST_BITS - firstBits (chunksOf shift mapped).length)
          (firstBits (chunksOf shift mapped).length))) := rfl

theorem build_misaligned (h : ∃ mapping ∈ mapped, ¬ mapping.PageAligned) :
    ∃ guest len, build mapped = .error (.Misaligned guest len) := by
  obtain ⟨mapping, hmem, hbad⟩ := h
  have hbad' : ∃ mapping ∈ inOrder mapped, ¬ mapping.PageAligned :=
    ⟨mapping, mem_inOrder.mpr hmem, hbad⟩
  obtain ⟨guest, len, herror⟩ := chunkShift_error hbad'
  refine ⟨guest, len, ?_⟩
  rw [build_eq, herror]
  rfl

/-- Aligned mappings are refused for an overlap, or are tried for their size. -/
theorem build_aligned (h : ∀ mapping ∈ mapped, mapping.PageAligned) :
    ∃ shift, LEAST_CHUNK_SHIFT ≤ shift ∧
      (∀ mapping ∈ mapped, 2 ^ shift ∣ mapping.guest ∧ 2 ^ shift ∣ mapping.len) ∧
      build mapped = (apart (inOrder mapped)).bind (fun _ =>
        fit (chunksOf shift mapped) shift
          (MOST_BITS - firstBits (chunksOf shift mapped).length)
          (firstBits (chunksOf shift mapped).length)) := by
  have haligned : ∀ mapping ∈ inOrder mapped, mapping.PageAligned :=
    fun mapping hmem => h mapping (mem_inOrder.mp hmem)
  have hmost : MOST_CHUNK_SHIFT ≤ 64 := by decide
  obtain ⟨shift, hshift, -, hleast, hdvd⟩ := chunkShift_ok haligned hmost
  refine ⟨shift, hleast (by decide), fun mapping hmem => hdvd mapping (mem_inOrder.mpr hmem), ?_⟩
  rw [build_eq, hshift]
  rfl

theorem build_overlapping (h : ∀ mapping ∈ mapped, mapping.PageAligned)
    (hoverlap : ¬ mapped.Pairwise Mapped.Apart) :
    ∃ first second, build mapped = .error (.Overlap first second) := by
  obtain ⟨shift, -, -, hbuild⟩ := build_aligned h
  rw [hbuild]
  cases hsplit : DeviceAddress.apart (inOrder mapped) with
  | ok _ =>
    have hle := (apart_ok_iff (fun mapping hmem => h mapping (mem_inOrder.mp hmem))).mp hsplit
    exact absurd ((inOrder_apart_iff h).mp hle) hoverlap
  | error e =>
    obtain ⟨first, second, rfl⟩ := apart_error hsplit
    exact ⟨first, second, rfl⟩

theorem build_apart (h : ∀ mapping ∈ mapped, mapping.PageAligned)
    (hapart : mapped.Pairwise Mapped.Apart) :
    (∃ chunks, build mapped = .error (.TooLarge chunks)) ∨
      ∃ table, build mapped = .ok table ∧ Built mapped table := by
  obtain ⟨shift, hleast, hdvd, hbuild⟩ := build_aligned h
  have hle := (inOrder_apart_iff h).mpr hapart
  have hok := (apart_ok_iff (fun mapping hmem => h mapping (mem_inOrder.mp hmem))).mpr hle
  rw [hok] at hbuild
  change build mapped = fit _ _ _ _ at hbuild
  have hproper := chunksOf_proper hleast hle
  cases hfit : fit (chunksOf shift mapped) shift
      (MOST_BITS - firstBits (chunksOf shift mapped).length)
      (firstBits (chunksOf shift mapped).length) with
  | error e =>
    rw [hfit, fit_error hfit] at hbuild
    exact .inl ⟨_, hbuild⟩
  | ok table =>
    rw [hfit] at hbuild
    obtain ⟨hshift, hplace, hfirst, hbits⟩ := fit_ok hfit
    have hlaid := place_laid (firstBits_pos.trans hfirst) hproper hplace
    have hcount := firstBits_le (length_le_of_laid hproper.nodup hlaid)
    subst hshift
    refine .inr ⟨table, hbuild, h, hapart, hdvd, hleast, ?_, hlaid⟩
    unfold MOST_BITS at hbits
    omega

theorem built_of_build (h : build mapped = .ok table) : Built mapped table := by
  by_cases haligned : ∀ mapping ∈ mapped, mapping.PageAligned
  · by_cases hapart : mapped.Pairwise Mapped.Apart
    · rcases build_apart haligned hapart with ⟨_, herror⟩ | ⟨other, hother, hbuilt⟩
      · rw [h] at herror
        cases herror
      · rw [h] at hother
        cases hother
        exact hbuilt
    · obtain ⟨_, _, herror⟩ := build_overlapping haligned hapart
      rw [h] at herror
      cases herror
  · push Not at haligned
    obtain ⟨_, _, herror⟩ := build_misaligned haligned
    rw [h] at herror
    cases herror

end Orbistoun.Translate.DeviceAddress
