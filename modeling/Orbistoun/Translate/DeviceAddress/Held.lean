import Mathlib.Data.List.GetD
import Mathlib.Tactic
import Orbistoun.Lib.Cells
import Orbistoun.Translate.DeviceAddress.Basic

/-! # What a device-address table holds

A slot's words lie in a cell, four words on four: its index as a 32-bit word is a cell's, so slots
apart by `2 ^ 30` share one, and the header's cell is no slot a chunk is found in. A table lays a map
of chunks out in its cells, placing writes a new chunk and redirecting writes an old one over.
-/

namespace Orbistoun.Translate.DeviceAddress

open Orbistoun.Lib

variable {chunk delta bits slot cell index : Nat} {words : List Nat} {map : Nat → Option Nat}

/-! ## Words and halves -/

theorem halves (x : Nat) (hx : x < U64.bound) : lowHalf x ||| (highHalf x <<< 32) = x := by
  unfold U64.bound at hx
  unfold lowHalf highHalf
  rw [Nat.mod_eq_of_lt (show x / 2 ^ 32 < 2 ^ 32 by omega), Nat.or_comm,
    ← Nat.shiftLeft_add_eq_or_of_lt (Nat.mod_lt _ (by decide)), Nat.shiftLeft_eq]
  omega

theorem highHalf_ne_EMPTY (hchunk : chunk < 2 ^ 52) : highHalf chunk ≠ EMPTY := by
  unfold highHalf EMPTY
  omega

theorem chunkSlot_lt (hbits : 1 ≤ bits) : chunkSlot chunk bits < 2 ^ min bits 31 := by
  unfold chunkSlot
  rw [max_eq_right (le_min hbits (by decide)), Nat.div_lt_iff_lt_mul (by positivity), ← pow_add,
    Nat.add_sub_cancel' ((min_le_right _ _).trans (by decide))]
  exact Nat.mod_lt _ (by positivity)

theorem chunkSlot_zero : chunkSlot 0 bits = 0 := by
  simp [chunkSlot]

def cellOf (slot : Nat) : Nat := (slot + 1) % 2 ^ 30

theorem slotWord_eq {word : Nat} (hword : word < 4) : slotWord slot word = 4 * cellOf slot + word := by
  unfold slotWord cellOf HEADER_WORDS SLOT_WORDS
  omega

theorem slotWord_succ {word : Nat} (hword : word < 4) :
    slotWord slot word = slotWord slot 0 + word := by
  unfold slotWord HEADER_WORDS SLOT_WORDS
  omega

theorem cellOf_le : cellOf slot ≤ slot + 1 := Nat.mod_le _ _

theorem cellOf_lt : cellOf slot < 2 ^ 30 := Nat.mod_lt _ (by positivity)

def probed (bits chunk : Nat) : List Nat :=
  (List.range PROBES).map (fun probe => cellOf (chunkSlot chunk bits + probe))

/-- What the words of a cell say: a chunk and what a guest address in it adds. -/
def stored (words : List Nat) (cell : Nat) : Option (Nat × Nat) :=
  if cell ≠ 0 ∧ 4 * cell + 4 ≤ words.length ∧ words.getD (4 * cell + 1) 0 ≠ EMPTY then
    some (held words (4 * cell), held words (4 * cell + 2))
  else none

theorem stored_congr {words' : List Nat} (hlen : words'.length = words.length)
    (h : ∀ word, word < 4 → words'.getD (4 * cell + word) 0 = words.getD (4 * cell + word) 0) :
    stored words' cell = stored words cell := by
  have h0 := h 0 (by decide)
  have h1 := h 1 (by decide)
  have h2 := h 2 (by decide)
  have h3 := h 3 (by decide)
  simp only [Nat.add_zero] at h0
  simp only [stored, held, Nat.add_assoc, Nat.reduceAdd, h0, h1, h2, h3, hlen]

/-! ## Writing -/

theorem getD_put {data : List Nat} (h : index + data.length ≤ words.length) (i : Nat) :
    (Slices.put words index data).getD i 0 =
      if index ≤ i ∧ i < index + data.length then data.getD (i - index) 0 else words.getD i 0 := by
  rw [List.getD_eq_getElem?_getD, Slices.put_getElem? h]
  split
  · rw [List.getD_eq_getElem?_getD]
  · rw [List.getD_eq_getElem?_getD]

theorem stored_put_ne {data : List Nat} {from' other : Nat} (hin : from' + data.length ≤ 4)
    (h : 4 * cell + 4 ≤ words.length) (hne : other ≠ cell) :
    stored (Slices.put words (4 * cell + from') data) other = stored words other := by
  apply stored_congr (Slices.put_length (by omega))
  intro word hword
  rw [getD_put (by omega), if_neg (by omega)]

theorem stored_put_self (hchunk : chunk < 2 ^ 52) (hdelta : delta < U64.bound) (hcell : cell ≠ 0)
    (h : 4 * cell + 4 ≤ words.length) :
    stored (Slices.put words (4 * cell) [lowHalf chunk, highHalf chunk, lowHalf delta, highHalf delta])
      cell = some (chunk, delta) := by
  have hread : ∀ word, word < 4 →
      (Slices.put words (4 * cell)
        [lowHalf chunk, highHalf chunk, lowHalf delta, highHalf delta]).getD (4 * cell + word) 0 =
        [lowHalf chunk, highHalf chunk, lowHalf delta, highHalf delta].getD word 0 := by
    intro word hword
    rw [getD_put h, if_pos ⟨Nat.le_add_right .., Nat.add_lt_add_left hword _⟩,
      Nat.add_sub_cancel_left]
  have hlow := hread 0 (by decide)
  rw [Nat.add_zero] at hlow
  unfold stored held
  rw [Slices.put_length h, Nat.add_assoc, hlow, hread 1 (by decide), hread 2 (by decide),
    hread (2 + 1) (by decide)]
  simp only [List.getD_cons_zero, List.getD_cons_succ]
  rw [if_pos ⟨hcell, h, highHalf_ne_EMPTY hchunk⟩, halves chunk (hchunk.trans (by decide)),
    halves delta hdelta]

theorem stored_put_delta {value : Nat} (hdelta : delta < U64.bound)
    (hstored : stored words cell = some (chunk, value)) :
    stored (Slices.put words (4 * cell + 2) [lowHalf delta, highHalf delta]) cell =
      some (chunk, delta) := by
  unfold stored at hstored
  split at hstored
  · next hfull =>
    obtain ⟨hcell, hroom, hused⟩ := hfull
    have hput := @getD_put (4 * cell + 2) words [lowHalf delta, highHalf delta] hroom
    simp only [List.length_cons, List.length_nil] at hput
    have hlow : ∀ word, word < 2 → (Slices.put words (4 * cell + 2)
        [lowHalf delta, highHalf delta]).getD (4 * cell + word) 0 =
          words.getD (4 * cell + word) 0 := by
      intro word hword
      rw [hput, if_neg (by omega)]
    have hfirst := hlow 0 (by decide)
    simp only [Nat.add_zero] at hfirst
    unfold stored
    rw [Slices.put_length hroom, hlow 1 (by decide), if_pos ⟨hcell, hroom, hused⟩]
    have hchunk : held (Slices.put words (4 * cell + 2) [lowHalf delta, highHalf delta])
        (4 * cell) = held words (4 * cell) := by
      unfold held
      rw [hfirst, hlow 1 (by decide)]
    have hvalue : held (Slices.put words (4 * cell + 2) [lowHalf delta, highHalf delta])
        (4 * cell + 2) = delta := by
      unfold held
      rw [hput, hput, if_pos (by omega), if_pos (by omega), Nat.sub_self, Nat.add_sub_cancel_left]
      exact halves delta hdelta
    rw [hchunk, hvalue, (Prod.mk.inj (Option.some.inj hstored)).1]
  · cases hstored

/-! ## The map a table lays out -/

/-- Words that lay a map of chunks out in the cells of a table of a size. -/
structure Laid (bits : Nat) (words : List Nat) (map : Nat → Option Nat) : Prop where
  sized : 1 ≤ bits
  length : words.length = HEADER_WORDS + (2 ^ bits + PROBES - 1) * SLOT_WORDS
  low : words.getD 0 0 = 0
  high : words.getD 1 0 = 0
  holds : Cells.Holds (probed bits) (stored words) map

theorem Laid.room (h : Laid bits words map) (hslot : slot < 2 ^ bits + PROBES - 1) :
    4 * cellOf slot + 4 ≤ words.length := by
  have hle : cellOf slot ≤ slot + 1 := cellOf_le
  rw [h.length]
  unfold HEADER_WORDS SLOT_WORDS
  omega

theorem probe_lt (hbits : 1 ≤ bits) {probe : Nat} (hprobe : probe < PROBES) :
    chunkSlot chunk bits + probe < 2 ^ bits + PROBES - 1 := by
  have hlt : chunkSlot chunk bits < 2 ^ min bits 31 := chunkSlot_lt hbits
  have hle : 2 ^ min bits 31 ≤ 2 ^ bits := Nat.pow_le_pow_right (by decide) (min_le_left _ _)
  omega

theorem Laid.hit_iff (h : Laid bits words map) {probe : Nat} (hprobe : probe < PROBES)
    (hslot : slot = chunkSlot chunk bits + probe) :
    (words.getD (slotWord slot 0 + 1) 0 ≠ EMPTY ∧ held words (slotWord slot 0) = chunk) ↔
      ∃ value, stored words (cellOf slot) = some (chunk, value) := by
  have hroom := h.room (hslot ▸ probe_lt h.sized hprobe)
  rw [slotWord_eq (by decide)]
  simp only [Nat.add_zero]
  unfold stored
  by_cases hcell : cellOf slot = 0
  · rw [hcell, if_neg (by simp)]
    constructor
    · rintro ⟨-, hzero⟩
      -- the header's words are chunk zero's, whose own slots lie past them
      rw [Nat.mul_zero, held, h.low, h.high] at hzero
      subst hzero
      rw [hslot, Nat.zero_shiftLeft, Nat.or_zero, chunkSlot_zero] at hcell
      unfold cellOf at hcell
      unfold PROBES at hprobe
      omega
    · rintro ⟨_, hnone⟩
      cases hnone
  · by_cases hused : words.getD (4 * cellOf slot + 1) 0 = EMPTY
    · rw [if_neg (by tauto)]
      constructor
      · rintro ⟨hne, -⟩
        exact absurd hused hne
      · rintro ⟨_, hnone⟩
        cases hnone
    · rw [if_pos ⟨hcell, hroom, hused⟩]
      constructor
      · rintro ⟨-, heq⟩
        exact ⟨_, by rw [heq]⟩
      · rintro ⟨_, heq⟩
        exact ⟨hused, (Prod.mk.inj (Option.some.inj heq)).1⟩

/-! ## Finding -/

section Finding

variable {table : Table} {guest device : Nat}

theorem slotOf_congr {other : Nat} (h : guest / 2 ^ table.shift = other / 2 ^ table.shift) :
    table.slotOf guest = table.slotOf other := by
  unfold Table.slotOf
  rw [h]

theorem Laid.reach (h : Laid table.bits table.words map) {probe : Nat} (hprobe : probe < PROBES)
    {word : Nat} (hword : word ≤ 4) :
    slotWord (chunkSlot chunk table.bits + probe) 0 + word ≤ table.words.length := by
  have hlt : chunkSlot chunk table.bits + probe < 2 ^ table.bits + PROBES - 1 :=
    probe_lt h.sized hprobe
  have hroom := h.room hlt
  rw [slotWord_eq (by decide)]
  omega

theorem Laid.slotOf_some (h : Laid table.bits table.words map)
    (hslot : table.slotOf guest = some slot) :
    slot < 2 ^ table.bits + PROBES - 1 ∧
      ∃ value, stored table.words (cellOf slot) = some (guest / 2 ^ table.shift, value) := by
  unfold Table.slotOf at hslot
  dsimp only at hslot
  have hfound := List.find?_some hslot
  have hhit := of_decide_eq_true hfound
  obtain ⟨probe, hprobe, rfl⟩ := List.mem_map.mp (List.mem_of_find?_eq_some hslot)
  rw [List.mem_range] at hprobe
  exact ⟨probe_lt h.sized hprobe, (h.hit_iff hprobe rfl).mp hhit.2⟩

/-- A chunk is found exactly where the map has it. -/
theorem Laid.slotOf_isSome (h : Laid table.bits table.words map) :
    (table.slotOf guest).isSome ↔ ∃ value, map (guest / 2 ^ table.shift) = some value := by
  rw [← h.holds.exists_iff]
  unfold Table.slotOf
  rw [List.find?_isSome]
  constructor
  · rintro ⟨slot, hmem, hhit⟩
    obtain ⟨probe, hprobe, rfl⟩ := List.mem_map.mp hmem
    have hlt := List.mem_range.mp hprobe
    have hstored := (h.hit_iff hlt rfl).mp (of_decide_eq_true hhit).2
    exact ⟨_, List.mem_map.mpr ⟨probe, hprobe, rfl⟩, hstored⟩
  · rintro ⟨cell, hmem, hstored⟩
    obtain ⟨probe, hprobe, rfl⟩ := List.mem_map.mp hmem
    have hlt := List.mem_range.mp hprobe
    refine ⟨_, List.mem_map.mpr ⟨probe, hprobe, rfl⟩, decide_eq_true ⟨?_, ?_⟩⟩
    · exact h.reach hlt (by decide)
    · exact (h.hit_iff hlt rfl).mpr hstored

theorem Laid.slotOf_none (h : Laid table.bits table.words map)
    (hmap : map (guest / 2 ^ table.shift) = none) : table.slotOf guest = none := by
  cases hslot : table.slotOf guest with
  | none => rfl
  | some slot =>
    obtain ⟨value, hvalue⟩ := h.slotOf_isSome.mp (by rw [hslot]; rfl)
    rw [hmap] at hvalue
    cases hvalue

theorem findSome?_guarded {α β : Type} {p : α → Prop} [DecidablePred p] {f : α → β}
    {g : α → Option β} (l : List α) (hg : ∀ a ∈ l, g a = if p a then some (f a) else none) :
    l.findSome? g = (l.find? (fun a => decide (p a))).map f := by
  induction l with
  | nil => rfl
  | cons a l ih =>
    have hrest := ih (fun b hb => hg b (List.mem_cons_of_mem _ hb))
    by_cases ha : p a
    · rw [List.findSome?_cons, hg a List.mem_cons_self, if_pos ha, List.find?_cons,
        decide_eq_true ha]
      rfl
    · rw [List.findSome?_cons, hg a List.mem_cons_self, if_neg ha, List.find?_cons,
        decide_eq_false ha]
      exact hrest

theorem Laid.lookup_eq (h : Laid table.bits table.words map) :
    table.lookup guest = (table.slotOf guest).map
      (fun slot => (guest + held table.words (slotWord slot 2)) % U64.bound) := by
  have hprobe : ∀ probe ∈ List.range PROBES,
      (if slotWord (chunkSlot (guest / 2 ^ table.shift) table.bits + probe) 0 + SLOT_WORDS ≤
          table.words.length then
        if table.words.getD (slotWord (chunkSlot (guest / 2 ^ table.shift) table.bits + probe) 0 + 1)
            0 ≠ EMPTY ∧ held table.words
              (slotWord (chunkSlot (guest / 2 ^ table.shift) table.bits + probe) 0) =
                guest / 2 ^ table.shift then
          some ((guest + held table.words
            (slotWord (chunkSlot (guest / 2 ^ table.shift) table.bits + probe) 0 + 2)) % U64.bound)
        else none
      else none) =
      if slotWord (chunkSlot (guest / 2 ^ table.shift) table.bits + probe) 0 + 2 ≤
          table.words.length ∧
          table.words.getD (slotWord (chunkSlot (guest / 2 ^ table.shift) table.bits + probe) 0 + 1)
            0 ≠ EMPTY ∧ held table.words
              (slotWord (chunkSlot (guest / 2 ^ table.shift) table.bits + probe) 0) =
                guest / 2 ^ table.shift then
        some ((guest + held table.words
          (slotWord (chunkSlot (guest / 2 ^ table.shift) table.bits + probe) 2)) % U64.bound)
      else none := by
    intro probe hprobe
    generalize hslot : chunkSlot (guest / 2 ^ table.shift) table.bits + probe = slot
    have hreach : ∀ word, word ≤ 4 → slotWord slot 0 + word ≤ table.words.length := by
      intro word hword
      rw [← hslot]
      exact h.reach (List.mem_range.mp hprobe) hword
    have hword : slotWord slot 2 = slotWord slot 0 + 2 := slotWord_succ (by decide)
    rw [if_pos (hreach SLOT_WORDS (by decide)), hword]
    simp only [hreach 2 (by decide), true_and]
  unfold Table.lookup
  rw [findSome?_guarded _ hprobe]
  unfold Table.slotOf
  rw [List.find?_map, Option.map_map]
  rfl

theorem stored_delta {value : Nat} (h : stored words (cellOf slot) = some (chunk, value)) :
    held words (slotWord slot 2) = value := by
  unfold stored at h
  split at h
  · rw [slotWord_eq (by decide)]
    exact (Prod.mk.inj (Option.some.inj h)).2
  · cases h

theorem Laid.lookup_map (h : Laid table.bits table.words map) :
    table.lookup guest =
      (map (guest / 2 ^ table.shift)).map (fun delta => (guest + delta) % U64.bound) := by
  rw [h.lookup_eq]
  cases hslot : table.slotOf guest with
  | none =>
    cases hmap : map (guest / 2 ^ table.shift) with
    | none => rfl
    | some value =>
      have hsome := h.slotOf_isSome.mpr ⟨value, hmap⟩
      rw [hslot] at hsome
      cases hsome
  | some slot =>
    obtain ⟨-, value, hstored⟩ := h.slotOf_some hslot
    rw [h.holds.sound _ _ _ hstored, Option.map_some, Option.map_some, stored_delta hstored]

/-! ## Redirecting -/

theorem redirectDelta_lt : table.redirectDelta guest device < U64.bound :=
  Nat.mod_lt _ (Nat.two_pow_pos 64)

/-- Redirecting a chunk the map lacks leaves the table; redirecting one it has writes the copy's
place over the chunk's. -/
theorem Laid.redirect (h : Laid table.bits table.words map) :
    (table.redirect guest device).1 = (map (guest / 2 ^ table.shift)).isSome ∧
      (table.redirect guest device).2.bits = table.bits ∧
      (table.redirect guest device).2.shift = table.shift ∧
      Laid table.bits (table.redirect guest device).2.words
        (if (map (guest / 2 ^ table.shift)).isSome then
          Function.update map (guest / 2 ^ table.shift)
            (some (table.redirectDelta guest device))
        else map) := by
  cases hmap : map (guest / 2 ^ table.shift) with
  | none =>
    rw [redirect_none (h.slotOf_none hmap)]
    exact ⟨rfl, rfl, rfl, h⟩
  | some held =>
    obtain ⟨slot, hslot⟩ := Option.isSome_iff_exists.mp (h.slotOf_isSome.mpr ⟨held, hmap⟩)
    obtain ⟨hlt, value, hstored⟩ := h.slotOf_some hslot
    have hroom := h.room hlt
    rw [redirect_some hslot]
    unfold Table.withDelta
    rw [slotWord_eq (by decide)]
    refine ⟨rfl, rfl, rfl, h.sized, ?_, ?_, ?_, ?_⟩
    · rw [Slices.put_length hroom]
      exact h.length
    · rw [getD_put hroom, if_neg (by omega)]
      exact h.low
    · rw [getD_put hroom, if_neg (by omega)]
      exact h.high
    · rw [Option.isSome_some, if_pos rfl]
      convert h.holds.replace hstored using 1
      funext cell
      by_cases hcell : cell = cellOf slot
      · rw [hcell, Function.update_self]
        exact stored_put_delta redirectDelta_lt hstored
      · rw [Function.update_of_ne hcell]
        exact stored_put_ne (by simp) hroom hcell

end Finding

/-! ## Placing -/

theorem getD_cleared_flatten {count : Nat} (hcell : cell < count) {word : Nat} (hword : word < 4) :
    ((List.replicate count [0, EMPTY, 0, 0]).flatten).getD (4 * cell + word) 0 =
      [0, EMPTY, 0, 0].getD word 0 := by
  induction count generalizing cell with
  | zero => exact absurd hcell (Nat.not_lt_zero _)
  | succ count ih =>
    rw [List.replicate_succ, List.flatten_cons]
    cases cell with
    | zero =>
      rw [Nat.mul_zero, Nat.zero_add]
      exact List.getD_append _ _ _ _ hword
    | succ cell =>
      rw [List.getD_append_right _ _ _ _ (by simp; omega)]
      have hindex : 4 * (cell + 1) + word - [0, EMPTY, 0, 0].length = 4 * cell + word := by
        simp only [List.length_cons, List.length_nil]
        omega
      rw [hindex]
      exact ih (Nat.lt_of_succ_lt_succ hcell)

theorem cleared_length : (cleared bits).length = HEADER_WORDS + (2 ^ bits + PROBES - 1) * SLOT_WORDS := by
  simp [cleared, SLOT_WORDS]

/-- A table of empty slots lays out the empty map. -/
theorem laid_cleared (hbits : 1 ≤ bits) : Laid bits (cleared bits) (fun _ => none) := by
  refine ⟨hbits, cleared_length, rfl, rfl, Cells.Holds.empty ?_⟩
  intro cell
  unfold stored
  rw [if_neg]
  rintro ⟨hcell, hroom, hused⟩
  apply hused
  obtain ⟨cell, rfl⟩ := Nat.exists_eq_add_one_of_ne_zero hcell
  rw [cleared_length] at hroom
  unfold HEADER_WORDS SLOT_WORDS at hroom
  unfold cleared
  rw [List.getD_append_right _ _ _ _ (by simp [HEADER_WORDS]; omega)]
  have hindex : 4 * (cell + 1) + 1 - (List.replicate HEADER_WORDS 0).length = 4 * cell + 1 := by
    simp only [List.length_replicate, HEADER_WORDS]
    omega
  rw [hindex]
  exact getD_cleared_flatten (by omega) (by decide)

theorem Laid.freeSlot (h : Laid bits words map) (hfree : freeSlot bits words chunk = some slot) :
    slot < 2 ^ bits + PROBES - 1 ∧ cellOf slot ∈ probed bits chunk ∧ cellOf slot ≠ 0 ∧
      stored words (cellOf slot) = none := by
  unfold DeviceAddress.freeSlot at hfree
  have hfound := List.find?_some hfree
  have hempty := of_decide_eq_true hfound
  obtain ⟨probe, hprobe, rfl⟩ := List.mem_map.mp (List.mem_of_find?_eq_some hfree)
  rw [slotWord_eq (by decide)] at hempty
  refine ⟨probe_lt h.sized (List.mem_range.mp hprobe), List.mem_map.mpr ⟨probe, hprobe, rfl⟩,
    ?_, ?_⟩
  · intro hcell
    rw [hcell, Nat.mul_zero, Nat.zero_add, h.high] at hempty
    cases hempty
  · unfold stored
    rw [if_neg]
    rintro ⟨-, -, hused⟩
    exact hused hempty

theorem Laid.placed (h : Laid bits words map) (hfree : DeviceAddress.freeSlot bits words chunk = some slot)
    (hnew : map chunk = none) (hchunk : chunk < 2 ^ 52) (hdelta : delta < U64.bound) :
    Laid bits (Slices.put words (slotWord slot 0)
      [lowHalf chunk, highHalf chunk, lowHalf delta, highHalf delta])
      (Function.update map chunk (some delta)) := by
  obtain ⟨hlt, hnear, hcell, hempty⟩ := h.freeSlot hfree
  have hroom := h.room hlt
  rw [slotWord_eq (by decide), Nat.add_zero]
  refine ⟨h.sized, ?_, ?_, ?_, ?_⟩
  · rw [Slices.put_length hroom]
    exact h.length
  · rw [getD_put hroom, if_neg (by omega)]
    exact h.low
  · rw [getD_put hroom, if_neg (by omega)]
    exact h.high
  · convert h.holds.insert hnew hnear hempty using 1
    funext cell
    by_cases hsame : cell = cellOf slot
    · rw [hsame, Function.update_self]
      exact stored_put_self hchunk hdelta hcell hroom
    · rw [Function.update_of_ne hsame, ← Nat.add_zero (4 * cellOf slot)]
      exact stored_put_ne (by simp) hroom hsame

end Orbistoun.Translate.DeviceAddress
