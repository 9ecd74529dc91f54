import Mathlib.Tactic
import Orbistoun.Lib.Probing
import Orbistoun.Lib.Slices

/-! # Images a dispatch selects from a descriptor table at run time

The host places every descriptor in a directory, a table of slots found by hash and a bounded
probe, and grows it until each lies within the probes of its own slot. The module looks the eight
words its registers hold up in the directory, in the wrapping arithmetic of its emitted words.
-/

namespace Orbistoun.Translate.Selected

open Orbistoun.Lib

/-! ## The directory -/

/-- Words one slot takes: a descriptor's eight words, then its tag. -/
def SELECTED_DIRECTORY_SLOT_WORDS : Nat := 9

def SELECTED_DIRECTORY_PROBES : Nat := 4

/-- In a slot's tag: the image is a cube. -/
def SELECTED_CUBE_TAG : UInt32 := 0x80000000

def SELECTED_HASH : UInt32 := 0x9e3779b1

def MOST_SELECTED_IMAGES : Nat := 4096

/-- An image's descriptor words, and whether it is a cube. -/
abbrev Descriptor := (Fin 8 → UInt32) × Bool

/-- The hash of a descriptor's words a directory places it by. -/
def selectedImageHash (words : Fin 8 → UInt32) : UInt32 :=
  (List.ofFn words).foldl (fun hash word =>
    let mixed := (hash ^^^ word) * SELECTED_HASH
    mixed ^^^ (mixed >>> 15)) 0

def slotAt (slot : Nat) : Nat := 1 + slot * SELECTED_DIRECTORY_SLOT_WORDS

def shapeTag (cube : Bool) : UInt32 := if cube then SELECTED_CUBE_TAG else 0

def tagOf (place : Nat) (cube : Bool) : UInt32 := (UInt32.ofNat place + 1) ||| shapeTag cube

def place (mask : UInt32) (index : Nat) (descriptor : Descriptor) (table : List UInt32) :
    Option (List UInt32) :=
  let home := selectedImageHash descriptor.1 &&& mask
  let free := ((List.range SELECTED_DIRECTORY_PROBES).map
    (fun probe => ((home + UInt32.ofNat probe) &&& mask).toNat)).find?
      (fun slot => decide (table.getD (slotAt slot + 8) 0 = 0))
  free.map (fun slot =>
    (Slices.put table (slotAt slot) (List.ofFn descriptor.1)).set (slotAt slot + 8)
      (tagOf index descriptor.2))

/-- Every descriptor placed in turn; nothing where one finds no slot. -/
def fill (mask : UInt32) : Nat → List Descriptor → List UInt32 → Option (List UInt32)
  | _, [], table => some table
  | index, descriptor :: descriptors, table =>
    (place mask index descriptor table).bind (fill mask (index + 1) descriptors)

/-- A table of empty slots under its mask. -/
def cleared (slots : Nat) : List UInt32 :=
  UInt32.ofNat (slots - 1) :: List.replicate (slots * SELECTED_DIRECTORY_SLOT_WORDS) 0

/-- Tables of twice as many slots each time, until one takes every descriptor. -/
def grow (descriptors : List Descriptor) (slots : Nat) (hpos : 0 < slots) :
    Option (List UInt32) :=
  if slots - 1 < 2 ^ 32 then
    match fill (UInt32.ofNat (slots - 1)) 0 descriptors (cleared slots) with
    | some table => some table
    | none => grow descriptors (slots * 2) (by omega)
  else none
termination_by 2 ^ 32 + 1 - slots

/-- The smallest power of two at or above a number. -/
def nextPowerOfTwo (n : Nat) : Nat := 2 ^ Nat.clog 2 n

/-- A directory of the descriptors, each found at its place in the arrays. -/
def selectedDirectory (descriptors : List Descriptor) : Option (List UInt32) :=
  if MOST_SELECTED_IMAGES < descriptors.length then none
  else grow descriptors (max (nextPowerOfTwo (descriptors.length * 2)) 4) (by omega)

/-! ## The emitted lookup -/

def directoryWord (table : List UInt32) (index : UInt32) : UInt32 := table.getD index.toNat 0

def probedSlot (mask : UInt32) (words : Fin 8 → UInt32) (probe : Nat) : UInt32 :=
  ((selectedImageHash words &&& mask) + UInt32.ofNat probe) &&& mask

def firstWord (slot : UInt32) : UInt32 := slot * UInt32.ofNat SELECTED_DIRECTORY_SLOT_WORDS + 1

/-- Whether a slot holds the words in the access's shape, and the place its tag names. -/
def probeHit (table : List UInt32) (words : Fin 8 → UInt32) (cube : Bool) (slot : UInt32) :
    Bool × UInt32 :=
  let first := firstWord slot
  let same := decide (∀ n : Fin 8, directoryWord table (first + UInt32.ofNat n) = words n)
  let tag := directoryWord table (first + 8)
  let tagPlace := tag &&& ~~~SELECTED_CUBE_TAG
  let filled := decide (tagPlace ≠ 0)
  let shaped := decide (tag &&& SELECTED_CUBE_TAG = shapeTag cube)
  (same && filled && shaped, tagPlace - 1)

def probeAt (table : List UInt32) (words : Fin 8 → UInt32) (cube : Bool) (probe : Nat) :
    Bool × UInt32 :=
  probeHit table words cube (probedSlot (directoryWord table 0) words probe)

/-- The place of the image the eight words name, and whether the directory lacks them in the
access's shape. -/
def selectedLookup (table : List UInt32) (words : Fin 8 → UInt32) (cube : Bool) :
    UInt32 × Bool :=
  let (place, found) := (List.range SELECTED_DIRECTORY_PROBES).foldl (fun (place, found) probe =>
    let (hit, index) := probeAt table words cube probe
    (if hit then index else place, found || hit)) ((0 : UInt32), false)
  let last := UInt32.ofNat (MOST_SELECTED_IMAGES - 1)
  (if place < last then place else last, !found)

/-! ## Tags -/

theorem ofNat_place_toNat {index : Nat} (h : index < MOST_SELECTED_IMAGES) :
    (UInt32.ofNat index + 1).toNat = index + 1 := by
  unfold MOST_SELECTED_IMAGES at h
  rw [UInt32.toNat_add, UInt32.toNat_ofNat_of_lt' (by unfold UInt32.size; omega)]
  exact Nat.mod_eq_of_lt (show index + 1 < 2 ^ 32 by omega)

theorem tagOf_place {index : Nat} (h : index < MOST_SELECTED_IMAGES) (cube : Bool) :
    tagOf index cube &&& ~~~SELECTED_CUBE_TAG = UInt32.ofNat index + 1 := by
  apply UInt32.toNat_inj.mp
  have hindex := ofNat_place_toNat h
  unfold MOST_SELECTED_IMAGES at h
  have hbits : (~~~SELECTED_CUBE_TAG).toNat = 2 ^ 31 - 1 := by decide
  rw [UInt32.toNat_and, hbits, Nat.and_two_pow_sub_one_eq_mod, tagOf, UInt32.toNat_or,
    Nat.or_mod_two_pow, hindex, Nat.mod_eq_of_lt (show index + 1 < 2 ^ 31 by omega)]
  have hshape : (shapeTag cube).toNat % 2 ^ 31 = 0 := by
    cases cube <;> decide
  rw [hshape, Nat.or_zero]

theorem tagOf_shape {index : Nat} (h : index < MOST_SELECTED_IMAGES) (cube : Bool) :
    tagOf index cube &&& SELECTED_CUBE_TAG = shapeTag cube := by
  apply UInt32.toNat_inj.mp
  have hindex := ofNat_place_toNat h
  unfold MOST_SELECTED_IMAGES at h
  have hbit : SELECTED_CUBE_TAG.toNat = 2 ^ 31 := by decide
  have hlow : (index + 1) &&& 2 ^ 31 = 0 := by
    apply Nat.eq_of_testBit_eq
    intro i
    rw [Nat.testBit_and, Nat.testBit_two_pow, Nat.zero_testBit]
    by_cases hi : 31 = i
    · subst hi
      rw [Nat.testBit_lt_two_pow (by omega), Bool.false_and]
    · rw [decide_eq_false hi, Bool.and_false]
  have hshape : (shapeTag cube).toNat &&& 2 ^ 31 = (shapeTag cube).toNat := by
    cases cube <;> decide
  rw [UInt32.toNat_and, hbit, tagOf, UInt32.toNat_or, hindex, Nat.and_or_distrib_right, hlow,
    hshape, Nat.zero_or]

theorem shapeTag_inj {cube other : Bool} (h : shapeTag cube = shapeTag other) : cube = other := by
  cases cube <;> cases other <;> first | rfl | exact absurd h (by decide)

theorem tagOf_ne_zero {index : Nat} (h : index < MOST_SELECTED_IMAGES) (cube : Bool) :
    tagOf index cube ≠ 0 := by
  intro hzero
  have hplace := tagOf_place h cube
  rw [hzero, UInt32.zero_and] at hplace
  have := congrArg UInt32.toNat hplace
  rw [ofNat_place_toNat h] at this
  cases this

/-! ## Slots -/

def maskOf (k : Nat) : UInt32 := UInt32.ofNat (2 ^ k - 1)

variable {k : Nat} {table : List UInt32}

theorem maskOf_toNat (hk : k ≤ 32) : (maskOf k).toNat = 2 ^ k - 1 := by
  apply UInt32.toNat_ofNat_of_lt'
  have := Nat.pow_le_pow_right (show 0 < 2 by decide) hk
  have := Nat.two_pow_pos k
  unfold UInt32.size
  omega

theorem and_maskOf_toNat (hk : k ≤ 32) (x : UInt32) : (x &&& maskOf k).toNat = x.toNat % 2 ^ k := by
  rw [UInt32.toNat_and, maskOf_toNat hk, Nat.and_two_pow_sub_one_eq_mod]

theorem probedSlot_toNat (hk : k ≤ 32) (words : Fin 8 → UInt32) {probe : Nat}
    (hprobe : probe < SELECTED_DIRECTORY_PROBES) :
    (probedSlot (maskOf k) words probe).toNat
      = ((selectedImageHash words).toNat + probe) % 2 ^ k := by
  unfold SELECTED_DIRECTORY_PROBES at hprobe
  unfold probedSlot
  rw [and_maskOf_toNat hk, UInt32.toNat_add, and_maskOf_toNat hk,
    UInt32.toNat_ofNat_of_lt' (by unfold UInt32.size; omega),
    Nat.mod_mod_of_dvd _ (Nat.pow_dvd_pow 2 hk), Nat.mod_add_mod]

structure Seated (k : Nat) (placed : List Descriptor) (seats : List Nat) (table : List UInt32) :
    Prop where
  length : table.length = slotAt (2 ^ k)
  mask : table.getD 0 0 = maskOf k
  count : seats.length = placed.length
  inside : ∀ slot ∈ seats, slot < 2 ^ k
  held : ∀ (i : Nat) (descriptor : Descriptor) (slot : Nat), placed[i]? = some descriptor →
    seats[i]? = some slot →
      (∃ d, d < SELECTED_DIRECTORY_PROBES ∧
        ((selectedImageHash descriptor.1).toNat + d) % 2 ^ k = slot) ∧
      (∀ n : Fin 8, table.getD (slotAt slot + n.val) 0 = descriptor.1 n) ∧
      table.getD (slotAt slot + 8) 0 = tagOf i descriptor.2
  empty : ∀ slot, slot < 2 ^ k → slot ∉ seats → table.getD (slotAt slot + 8) 0 = 0

theorem Seated.cleared : Seated k [] [] (Selected.cleared (2 ^ k)) where
  length := by
    simp [Selected.cleared, slotAt, Nat.add_comm]
  mask := rfl
  count := rfl
  inside := by simp
  held := by simp
  empty := by
    intro slot _ _
    unfold Selected.cleared slotAt
    rw [show 1 + slot * SELECTED_DIRECTORY_SLOT_WORDS + 8
      = slot * SELECTED_DIRECTORY_SLOT_WORDS + 8 + 1 by omega]
    rw [List.getD_cons_succ, List.getD_eq_getElem?_getD, List.getElem?_replicate]
    split <;> rfl

theorem Seated.tag_eq_zero_iff {placed : List Descriptor} {seats : List Nat}
    (h : Seated k placed seats table) (hmost : placed.length ≤ MOST_SELECTED_IMAGES) {slot : Nat}
    (hslot : slot < 2 ^ k) : table.getD (slotAt slot + 8) 0 = 0 ↔ slot ∉ seats := by
  constructor
  · intro hzero hmem
    obtain ⟨i, hi, hseat⟩ := List.getElem_of_mem hmem
    have hplaced : i < placed.length := by
      rw [← h.count]
      exact hi
    have hheld := h.held i placed[i] slot (List.getElem?_eq_getElem hplaced)
      (by rw [List.getElem?_eq_getElem hi, hseat])
    rw [hheld.2.2] at hzero
    exact tagOf_ne_zero (Nat.lt_of_lt_of_le hplaced hmost) _ hzero
  · exact h.empty slot hslot

def written (table : List UInt32) (index slot : Nat) (descriptor : Descriptor) : List UInt32 :=
  (Slices.put table (slotAt slot) (List.ofFn descriptor.1)).set (slotAt slot + 8)
    (tagOf index descriptor.2)

theorem slotAt_apart {slot other : Nat} (h : slot ≠ other) :
    slotAt slot + 9 ≤ slotAt other ∨ slotAt other + 9 ≤ slotAt slot := by
  unfold slotAt SELECTED_DIRECTORY_SLOT_WORDS
  omega

theorem slotAt_within {slot : Nat} (h : slot < 2 ^ k) : slotAt slot + 9 ≤ slotAt (2 ^ k) := by
  unfold slotAt SELECTED_DIRECTORY_SLOT_WORDS
  omega

section Written

variable {index slot : Nat} {descriptor : Descriptor}

theorem put_words_length (hroom : slotAt slot + 9 ≤ table.length) :
    (Slices.put table (slotAt slot) (List.ofFn descriptor.1)).length = table.length := by
  apply Slices.put_length
  rw [List.length_ofFn]
  omega

theorem written_length (hroom : slotAt slot + 9 ≤ table.length) :
    (written table index slot descriptor).length = table.length := by
  unfold written
  rw [List.length_set, put_words_length hroom]

theorem written_word (hroom : slotAt slot + 9 ≤ table.length) (n : Fin 8) :
    (written table index slot descriptor).getD (slotAt slot + n.val) 0 = descriptor.1 n := by
  have hn := n.isLt
  unfold written
  rw [List.getD_eq_getElem?_getD, List.getElem?_set_ne (by omega),
    Slices.put_getElem? (by rw [List.length_ofFn]; omega),
    if_pos (by rw [List.length_ofFn]; omega), Nat.add_sub_cancel_left, List.getElem?_ofFn,
    dif_pos hn, Option.getD_some]

theorem written_tag (hroom : slotAt slot + 9 ≤ table.length) :
    (written table index slot descriptor).getD (slotAt slot + 8) 0 = tagOf index descriptor.2 := by
  unfold written
  rw [List.getD_eq_getElem?_getD, List.getElem?_set_self (by rw [put_words_length hroom]; omega),
    Option.getD_some]

theorem written_elsewhere (hroom : slotAt slot + 9 ≤ table.length) {at' : Nat}
    (hapart : at' < slotAt slot ∨ slotAt slot + 9 ≤ at') :
    (written table index slot descriptor).getD at' 0 = table.getD at' 0 := by
  unfold written
  rw [List.getD_eq_getElem?_getD, List.getElem?_set_ne (by omega),
    Slices.put_getElem? (by rw [List.length_ofFn]; omega),
    if_neg (by rw [List.length_ofFn]; omega), List.getD_eq_getElem?_getD]

end Written

theorem Seated.step {placed : List Descriptor} {seats : List Nat} {slot : Nat}
    {descriptor : Descriptor} (h : Seated k placed seats table)
    (hseat : Probing.seat (2 ^ k) SELECTED_DIRECTORY_PROBES seats
      (selectedImageHash descriptor.1).toNat = some slot) :
    Seated k (placed ++ [descriptor]) (seats ++ [slot])
      (written table placed.length slot descriptor) := by
  have hslot : slot < 2 ^ k := Probing.seat_lt (Nat.two_pow_pos k) hseat
  have hroom : slotAt slot + 9 ≤ table.length := by
    rw [h.length]
    exact slotAt_within hslot
  have hfree : slot ∉ seats := Probing.seat_free hseat
  have hapart : ∀ other, other ≠ slot → ∀ n, n < 9 →
      (written table placed.length slot descriptor).getD (slotAt other + n) 0
        = table.getD (slotAt other + n) 0 := by
    intro other hne n hn
    apply written_elsewhere hroom
    have := slotAt_apart hne
    omega
  refine ⟨?_, ?_, ?_, ?_, ?_, ?_⟩
  · rw [written_length hroom, h.length]
  · rw [written_elsewhere hroom (by unfold slotAt; omega), h.mask]
  · rw [List.length_append, List.length_append, h.count]
    rfl
  · intro other hmem
    rcases List.mem_append.mp hmem with hold | hnew
    · exact h.inside other hold
    · rw [List.mem_singleton.mp hnew]
      exact hslot
  · intro i held other hheld hother
    rcases Nat.lt_or_ge i placed.length with hi | hi
    · rw [List.getElem?_append_left hi] at hheld
      rw [List.getElem?_append_left (by rw [h.count]; exact hi)] at hother
      have hne : other ≠ slot := by
        rintro rfl
        exact hfree (List.mem_of_getElem? hother)
      obtain ⟨hnear, hwords, htag⟩ := h.held i held other hheld hother
      refine ⟨hnear, ?_, ?_⟩
      · intro n
        rw [hapart other hne n (by omega)]
        exact hwords n
      · rw [hapart other hne 8 (by omega)]
        exact htag
    · have hlast : i = placed.length := by
        have := (List.getElem?_eq_some_iff.mp hheld).1
        rw [List.length_append, List.length_singleton] at this
        omega
      subst hlast
      rw [List.getElem?_concat_length] at hheld
      rw [← h.count, List.getElem?_concat_length] at hother
      cases hheld
      cases hother
      exact ⟨Probing.seat_near hseat, written_word hroom, written_tag hroom⟩
  · intro other hother hnot
    rw [List.mem_append, not_or] at hnot
    have hne : other ≠ slot := fun heq => hnot.2 (List.mem_singleton.mpr heq)
    rw [hapart other hne 8 (by omega)]
    exact h.empty other hother hnot.1

theorem place_eq {placed : List Descriptor} {seats : List Nat} (hk : k ≤ 32)
    (h : Seated k placed seats table) (hmost : placed.length ≤ MOST_SELECTED_IMAGES)
    (descriptor : Descriptor) :
    place (maskOf k) placed.length descriptor table =
      (Probing.seat (2 ^ k) SELECTED_DIRECTORY_PROBES seats
        (selectedImageHash descriptor.1).toNat).map
          (fun slot => written table placed.length slot descriptor) := by
  have hslots : (List.range SELECTED_DIRECTORY_PROBES).map
      (fun probe => (probedSlot (maskOf k) descriptor.1 probe).toNat) =
        (List.range SELECTED_DIRECTORY_PROBES).map
          (fun d => ((selectedImageHash descriptor.1).toNat + d) % 2 ^ k) := by
    apply List.map_congr_left
    intro probe hprobe
    exact probedSlot_toNat hk _ (List.mem_range.mp hprobe)
  show ((_ : List Nat).find? _).map _ = _
  rw [show (List.range SELECTED_DIRECTORY_PROBES).map (fun probe =>
      (((selectedImageHash descriptor.1 &&& maskOf k) + UInt32.ofNat probe) &&& maskOf k).toNat)
        = _ from hslots]
  unfold Probing.seat written
  congr 1
  apply List.find?_congr
  intro slot hmem
  obtain ⟨d, -, rfl⟩ := List.mem_map.mp hmem
  exact decide_eq_decide.mpr (h.tag_eq_zero_iff hmost (Nat.mod_lt _ (Nat.two_pow_pos k)))

/-! ## The whole list -/

/-- The slots a ring of `2 ^ k` gives the descriptors from their hashes, in order. -/
def seating (k : Nat) (seats : List Nat) (descriptors : List Descriptor) : Option (List Nat) :=
  Probing.settle (2 ^ k) SELECTED_DIRECTORY_PROBES seats
    (descriptors.map (fun descriptor => (selectedImageHash descriptor.1).toNat))

/-- No descriptor comes when the slots of a ring of `2 ^ k` its probes reach are all taken. -/
def Fits (k : Nat) (descriptors : List Descriptor) : Prop :=
  (seating k [] descriptors).isSome = true

instance (k : Nat) (descriptors : List Descriptor) : Decidable (Fits k descriptors) :=
  inferInstanceAs (Decidable (_ = true))

theorem Fits.larger {descriptors : List Descriptor} {larger : Nat} (hle : k ≤ larger)
    (h : Fits k descriptors) : Fits larger descriptors :=
  Probing.settle_finer (Nat.pow_dvd_pow 2 hle) (by simp) h

theorem fill_seated {placed rest : List Descriptor} {seats : List Nat} (hk : k ≤ 32)
    (h : Seated k placed seats table) (hmost : (placed ++ rest).length ≤ MOST_SELECTED_IMAGES) :
    (fill (maskOf k) placed.length rest table).isSome = (seating k seats rest).isSome ∧
      ∀ filled, fill (maskOf k) placed.length rest table = some filled →
        ∃ seated, Seated k (placed ++ rest) seated filled := by
  induction rest generalizing placed seats table with
  | nil =>
    refine ⟨rfl, ?_⟩
    intro filled hfilled
    cases hfilled
    rw [List.append_nil]
    exact ⟨seats, h⟩
  | cons descriptor rest ih =>
    rw [List.length_append, List.length_cons] at hmost
    unfold fill seating
    rw [place_eq hk h (by omega), List.map_cons, Probing.settle]
    cases hseat : Probing.seat (2 ^ k) SELECTED_DIRECTORY_PROBES seats
        (selectedImageHash descriptor.1).toNat with
    | none =>
      refine ⟨rfl, ?_⟩
      intro filled hfilled
      cases hfilled
    | some slot =>
      have hnext := ih (h.step hseat) (by
        rw [List.length_append, List.length_append, List.length_singleton]
        omega)
      rw [List.length_append, List.length_singleton, List.append_assoc] at hnext
      exact hnext

theorem fill_cleared {descriptors : List Descriptor} (hk : k ≤ 32)
    (hmost : descriptors.length ≤ MOST_SELECTED_IMAGES) :
    ((fill (maskOf k) 0 descriptors (cleared (2 ^ k))).isSome ↔ Fits k descriptors) ∧
      ∀ table, fill (maskOf k) 0 descriptors (cleared (2 ^ k)) = some table →
        ∃ seats, Seated k descriptors seats table := by
  have hfill := fill_seated hk Seated.cleared (show ([] ++ descriptors).length ≤ _ from hmost)
  exact ⟨Bool.eq_iff_iff.mp hfill.1, hfill.2⟩

theorem grow_past {descriptors : List Descriptor} {slots : Nat} (hpos : 0 < slots)
    (hpast : 2 ^ 32 < slots) : grow descriptors slots hpos = none := by
  unfold grow
  rw [if_neg (by omega)]

theorem grow_seated {descriptors : List Descriptor}
    (hmost : descriptors.length ≤ MOST_SELECTED_IMAGES) (left : Nat) (hleft : k + left = 33) :
    ((grow descriptors (2 ^ k) (Nat.two_pow_pos k)).isSome ↔ k ≤ 32 ∧ Fits 32 descriptors) ∧
      ∀ table, grow descriptors (2 ^ k) (Nat.two_pow_pos k) = some table →
        ∃ j seats, k ≤ j ∧ j ≤ 32 ∧ Fits j descriptors ∧ Seated j descriptors seats table ∧
          ∀ i, k ≤ i → Fits i descriptors → j ≤ i := by
  induction left generalizing k with
  | zero =>
    have hpast : 2 ^ 32 < 2 ^ k := Nat.pow_lt_pow_right (by decide) (by omega)
    rw [grow_past _ hpast]
    refine ⟨?_, ?_⟩
    · constructor
      · intro h
        cases h
      · rintro ⟨hk, -⟩
        omega
    · intro table h
      cases h
  | succ left ih =>
    have hk : k ≤ 32 := by omega
    have hsize := Nat.pow_le_pow_right (show 0 < 2 by decide) hk
    have hpos := Nat.two_pow_pos k
    obtain ⟨hfits, hseated⟩ := @fill_cleared k descriptors hk hmost
    unfold grow
    rw [if_pos (by omega)]
    cases hfill : fill (UInt32.ofNat (2 ^ k - 1)) 0 descriptors (cleared (2 ^ k)) with
    | some table =>
      have hfit : Fits k descriptors := hfits.mp (by rw [maskOf, hfill]; rfl)
      refine ⟨⟨fun _ => ⟨hk, hfit.larger hk⟩, fun _ => rfl⟩, ?_⟩
      intro table' htable'
      cases htable'
      obtain ⟨seats, hseats⟩ := hseated table hfill
      exact ⟨k, seats, le_refl k, hk, hfit, hseats, fun i hi _ => hi⟩
    | none =>
      have hunfit : ¬Fits k descriptors := by
        intro hfit
        have := hfits.mpr hfit
        rw [maskOf, hfill] at this
        cases this
      obtain ⟨hnext, htable⟩ := ih (show k + 1 + left = 33 by omega)
      refine ⟨?_, ?_⟩
      · constructor
        · intro h
          exact ⟨hk, (hnext.mp h).2⟩
        · rintro ⟨-, hfit⟩
          have hk' : k ≠ 32 := by
            rintro rfl
            exact hunfit hfit
          exact hnext.mpr ⟨by omega, hfit⟩
      · intro table h
        obtain ⟨j, seats, hj, hj', hfits', hseats, hleast⟩ := htable table h
        refine ⟨j, seats, by omega, hj', hfits', hseats, ?_⟩
        intro i hi hfit
        apply hleast i _ hfit
        rcases Nat.lt_or_eq_of_le hi with hlt | rfl
        · exact hlt
        · exact absurd hfit hunfit

/-- The table starts at a power of two far below the last. -/
theorem slots_two_pow {count : Nat} (hmost : count ≤ MOST_SELECTED_IMAGES) :
    ∃ k, k ≤ 13 ∧ max (nextPowerOfTwo (count * 2)) 4 = 2 ^ k := by
  have hle : Nat.clog 2 (count * 2) ≤ 13 := by
    apply Nat.clog_le_of_le_pow
    unfold MOST_SELECTED_IMAGES at hmost
    omega
  rcases Nat.lt_or_ge (Nat.clog 2 (count * 2)) 2 with hsmall | hlarge
  · exact ⟨2, by decide, max_eq_right (Nat.pow_le_pow_right (by decide) (Nat.le_of_lt hsmall))⟩
  · exact ⟨_, hle, max_eq_left (Nat.pow_le_pow_right (show 0 < 2 by decide) hlarge)⟩

theorem selectedDirectory_seated {descriptors : List Descriptor}
    (hmost : descriptors.length ≤ MOST_SELECTED_IMAGES) :
    ((selectedDirectory descriptors).isSome ↔ Fits 32 descriptors) ∧
      ∀ table, selectedDirectory descriptors = some table →
        ∃ j seats, j ≤ 32 ∧ Fits j descriptors ∧ Seated j descriptors seats table ∧
          (Fits 28 descriptors → j ≤ 28) := by
  obtain ⟨k, hk, hslots⟩ := slots_two_pow hmost
  have hstart : selectedDirectory descriptors
      = grow descriptors (2 ^ k) (Nat.two_pow_pos k) := by
    unfold selectedDirectory
    rw [if_neg (Nat.not_lt.mpr hmost)]
    simp only [hslots]
  obtain ⟨hsome, htable⟩ := grow_seated hmost (33 - k) (show k + (33 - k) = 33 by omega)
  rw [hstart]
  refine ⟨?_, ?_⟩
  · rw [hsome]
    exact and_iff_right (by omega)
  · intro table h
    obtain ⟨j, seats, -, hj, hfits, hseats, hleast⟩ := htable table h
    exact ⟨j, seats, hj, hfits, hseats, fun hfit => hleast 28 (by omega) hfit⟩

/-! ## The lookup -/

def ReadsSlots (table : List UInt32) : Prop :=
  ∀ (words : Fin 8 → UInt32) (probe n : Nat), probe < SELECTED_DIRECTORY_PROBES → n ≤ 8 →
    let slot := probedSlot (directoryWord table 0) words probe
    (firstWord slot + UInt32.ofNat n).toNat = slotAt slot.toNat + n

/-- The lookup finds each descriptor listed at its own place, and no other, and what it reads is
within the arrays. -/
structure Answers (descriptors : List Descriptor) (table : List UInt32) : Prop where
  found : ∀ (i : Nat) (words : Fin 8 → UInt32) (cube : Bool),
    descriptors[i]? = some (words, cube) →
      selectedLookup table words cube = (UInt32.ofNat i, false)
  missing : ∀ (words : Fin 8 → UInt32) (cube : Bool), (words, cube) ∉ descriptors →
    (selectedLookup table words cube).2 = true
  inside : ∀ (words : Fin 8 → UInt32) (cube : Bool),
    (selectedLookup table words cube).1.toNat < MOST_SELECTED_IMAGES

variable {descriptors : List Descriptor} {seats : List Nat}

theorem firstWord_toNat {slot : UInt32} {n : Nat} (hslot : slot.toNat < 2 ^ 28) (hn : n ≤ 8) :
    (firstWord slot + UInt32.ofNat n).toNat = slotAt slot.toNat + n := by
  have hwidth : (UInt32.ofNat 9).toNat = 9 := rfl
  have hone : (1 : UInt32).toNat = 1 := rfl
  unfold firstWord slotAt SELECTED_DIRECTORY_SLOT_WORDS
  rw [UInt32.toNat_add, UInt32.toNat_add, UInt32.toNat_mul, hwidth, hone,
    UInt32.toNat_ofNat_of_lt' (by unfold UInt32.size; omega)]
  omega

theorem Seated.readsSlots (h : Seated k descriptors seats table) (hk : k ≤ 28) :
    ReadsSlots table := by
  intro words probe n hprobe hn
  apply firstWord_toNat _ hn
  rw [show directoryWord table 0 = maskOf k from h.mask, probedSlot_toNat (by omega) words hprobe]
  exact Nat.lt_of_lt_of_le (Nat.mod_lt _ (Nat.two_pow_pos k))
    (Nat.pow_le_pow_right (by decide) hk)

section Probe

variable {words : Fin 8 → UInt32} {cube : Bool} {slot : UInt32}

theorem directoryWord_slot (hslot : slot.toNat < 2 ^ 28) {n : Nat} (hn : n ≤ 8) :
    directoryWord table (firstWord slot + UInt32.ofNat n)
      = table.getD (slotAt slot.toNat + n) 0 := by
  unfold directoryWord
  rw [firstWord_toNat hslot hn]

theorem probeHit_seat (h : Seated k descriptors seats table)
    (hmost : descriptors.length ≤ MOST_SELECTED_IMAGES) (hslot : slot.toNat < 2 ^ 28) {i : Nat}
    {descriptor : Descriptor} (hlisted : descriptors[i]? = some descriptor)
    (hseat : seats[i]? = some slot.toNat) :
    probeHit table words cube slot = (decide (descriptor = (words, cube)), UInt32.ofNat i) := by
  obtain ⟨-, hwords, htag⟩ := h.held i descriptor slot.toNat hlisted hseat
  have hi : i < MOST_SELECTED_IMAGES :=
    Nat.lt_of_lt_of_le (List.getElem?_eq_some_iff.mp hlisted).1 hmost
  have hread : ∀ n : Fin 8,
      directoryWord table (firstWord slot + UInt32.ofNat n) = descriptor.1 n := by
    intro n
    rw [directoryWord_slot hslot (by omega), hwords n]
  have htagged : directoryWord table (firstWord slot + 8) = tagOf i descriptor.2 := by
    rw [← htag]
    exact directoryWord_slot hslot (le_refl 8)
  have hfilled : UInt32.ofNat i + 1 ≠ 0 := by
    intro hzero
    have := ofNat_place_toNat hi
    rw [hzero] at this
    cases this
  have hsame : (decide (∀ n : Fin 8, descriptor.1 n = words n) && decide (UInt32.ofNat i + 1 ≠ 0) &&
      decide (shapeTag descriptor.2 = shapeTag cube)) = decide (descriptor = (words, cube)) := by
    rw [decide_eq_true hfilled, Bool.and_true, Bool.eq_iff_iff, Bool.and_eq_true,
      decide_eq_true_iff, decide_eq_true_iff, decide_eq_true_iff]
    constructor
    · rintro ⟨hw, hc⟩
      exact Prod.ext (funext hw) (shapeTag_inj hc)
    · rintro rfl
      exact ⟨fun _ => rfl, rfl⟩
  simp only [probeHit, hread, htagged, tagOf_place hi, tagOf_shape hi, hsame]
  rw [UInt32.add_sub_cancel]

theorem probeHit_empty (h : Seated k descriptors seats table) (hslot : slot.toNat < 2 ^ 28)
    (hinside : slot.toNat < 2 ^ k) (hfree : slot.toNat ∉ seats) :
    (probeHit table words cube slot).1 = false := by
  have htag : directoryWord table (firstWord slot + 8) = 0 := by
    rw [← h.empty slot.toNat hinside hfree]
    exact directoryWord_slot hslot (le_refl 8)
  simp [probeHit, htag]

end Probe

theorem foldl_hits (f : Nat → Bool × UInt32) (v : UInt32) (probes : List Nat)
    (h : ∀ probe ∈ probes, (f probe).1 = true → (f probe).2 = v) (place : UInt32) (found : Bool) :
    probes.foldl (fun (acc : UInt32 × Bool) probe =>
      (if (f probe).1 then (f probe).2 else acc.1, acc.2 || (f probe).1)) (place, found) =
      (if probes.any (fun probe => (f probe).1) then v else place,
        found || probes.any (fun probe => (f probe).1)) := by
  induction probes generalizing place found with
  | nil => simp
  | cons probe probes ih =>
    rw [List.foldl_cons, ih (fun p hp => h p (List.mem_cons_of_mem _ hp)), List.any_cons]
    cases hhit : (f probe).1 with
    | false => simp
    | true =>
      rw [h probe List.mem_cons_self hhit]
      simp

theorem selectedLookup_eq {words : Fin 8 → UInt32} {cube : Bool} {v : UInt32}
    (h : ∀ probe, probe < SELECTED_DIRECTORY_PROBES →
      (probeAt table words cube probe).1 = true → (probeAt table words cube probe).2 = v) :
    selectedLookup table words cube =
      (let hits := (List.range SELECTED_DIRECTORY_PROBES).any
        (fun probe => (probeAt table words cube probe).1)
      let place := if hits then v else 0
      (if place < UInt32.ofNat (MOST_SELECTED_IMAGES - 1) then place
        else UInt32.ofNat (MOST_SELECTED_IMAGES - 1), !hits)) := by
  have hfold := foldl_hits (probeAt table words cube) v (List.range SELECTED_DIRECTORY_PROBES)
    (fun probe hp => h probe (List.mem_range.mp hp)) 0 false
  rw [Bool.false_or] at hfold
  unfold selectedLookup
  simp only [hfold]

/-- What is clamped to the arrays' last place lies within them. -/
theorem selectedLookup_inside (words : Fin 8 → UInt32) (cube : Bool) :
    (selectedLookup table words cube).1.toNat < MOST_SELECTED_IMAGES := by
  have hlast : (UInt32.ofNat (MOST_SELECTED_IMAGES - 1)).toNat = MOST_SELECTED_IMAGES - 1 := rfl
  unfold selectedLookup
  split
  next place found _ =>
    show (if place < _ then place else _).toNat < _
    split
    · next hlt =>
      rw [UInt32.lt_iff_toNat_lt, hlast] at hlt
      omega
    · rw [hlast]
      decide

section Lookup

variable {words : Fin 8 → UInt32} {cube : Bool}

theorem Seated.probedSlot_toNat (h : Seated k descriptors seats table) (hk : k ≤ 32) {probe : Nat}
    (hprobe : probe < SELECTED_DIRECTORY_PROBES) :
    (probedSlot (directoryWord table 0) words probe).toNat
      = ((selectedImageHash words).toNat + probe) % 2 ^ k := by
  rw [show directoryWord table 0 = maskOf k from h.mask]
  exact Selected.probedSlot_toNat hk words hprobe

theorem Seated.probeAt_hit (h : Seated k descriptors seats table) (hk : k ≤ 28)
    (hmost : descriptors.length ≤ MOST_SELECTED_IMAGES) {probe : Nat}
    (hprobe : probe < SELECTED_DIRECTORY_PROBES) (hhit : (probeAt table words cube probe).1 = true) :
    ∃ i, descriptors[i]? = some (words, cube) ∧
      (probeAt table words cube probe).2 = UInt32.ofNat i := by
  have hring : (probedSlot (directoryWord table 0) words probe).toNat < 2 ^ k := by
    rw [h.probedSlot_toNat (by omega) hprobe]
    exact Nat.mod_lt _ (Nat.two_pow_pos k)
  have hslot := Nat.lt_of_lt_of_le hring (Nat.pow_le_pow_right (by decide) hk)
  unfold probeAt at hhit ⊢
  by_cases hmem : (probedSlot (directoryWord table 0) words probe).toNat ∈ seats
  · obtain ⟨i, hi, hseat⟩ := List.getElem_of_mem hmem
    have hplaced : i < descriptors.length := by
      rw [← h.count]
      exact hi
    have hread := @probeHit_seat k table descriptors seats words cube _ h hmost hslot i _
      (List.getElem?_eq_getElem hplaced) (by rw [List.getElem?_eq_getElem hi, hseat])
    rw [hread] at hhit ⊢
    refine ⟨i, ?_, rfl⟩
    rw [List.getElem?_eq_getElem hplaced, of_decide_eq_true hhit]
  · rw [probeHit_empty h hslot hring hmem] at hhit
    cases hhit

theorem Seated.any_hit (h : Seated k descriptors seats table) (hk : k ≤ 28)
    (hmost : descriptors.length ≤ MOST_SELECTED_IMAGES) {i : Nat}
    (hlisted : descriptors[i]? = some (words, cube)) :
    (List.range SELECTED_DIRECTORY_PROBES).any (fun probe => (probeAt table words cube probe).1)
      = true := by
  have hi := (List.getElem?_eq_some_iff.mp hlisted).1
  have hseat : i < seats.length := by
    rw [h.count]
    exact hi
  obtain ⟨⟨d, hd, hslot⟩, -⟩ := h.held i _ seats[i] hlisted (List.getElem?_eq_getElem hseat)
  have hprobed := @Seated.probedSlot_toNat k table descriptors seats words h (by omega) d hd
  rw [hslot] at hprobed
  have hring : (probedSlot (directoryWord table 0) words d).toNat < 2 ^ 28 := by
    rw [hprobed]
    exact Nat.lt_of_lt_of_le (h.inside _ (List.getElem_mem hseat))
      (Nat.pow_le_pow_right (by decide) hk)
  rw [List.any_eq_true]
  refine ⟨d, List.mem_range.mpr hd, ?_⟩
  unfold probeAt
  rw [probeHit_seat h hmost hring hlisted (by rw [hprobed, List.getElem?_eq_getElem hseat])]
  exact decide_eq_true rfl

theorem Seated.answers (h : Seated k descriptors seats table) (hk : k ≤ 28)
    (hmost : descriptors.length ≤ MOST_SELECTED_IMAGES) (hdistinct : descriptors.Nodup) :
    Answers descriptors table where
  found := by
    intro i words cube hlisted
    have hi := (List.getElem?_eq_some_iff.mp hlisted).1
    have hone : ∀ probe, probe < SELECTED_DIRECTORY_PROBES →
        (probeAt table words cube probe).1 = true →
          (probeAt table words cube probe).2 = UInt32.ofNat i := by
      intro probe hprobe hhit
      obtain ⟨i', hlisted', hplace⟩ := h.probeAt_hit hk hmost hprobe hhit
      have hsame : i = i' := (List.getElem?_inj hi hdistinct).mp (by rw [hlisted, hlisted'])
      rw [hplace, hsame]
    have hsmall : i < 4096 := Nat.lt_of_lt_of_le hi hmost
    rw [selectedLookup_eq hone, h.any_hit hk hmost hlisted]
    show (if UInt32.ofNat i < 4095 then UInt32.ofNat i else 4095, false) = _
    rw [Prod.mk.injEq, and_iff_left rfl]
    split
    · rfl
    · next hlast =>
      rw [UInt32.lt_iff_toNat_lt, UInt32.toNat_ofNat_of_lt' (by unfold UInt32.size; omega)] at hlast
      have h4095 : i = 4095 := by
        have : (4095 : UInt32).toNat = 4095 := rfl
        omega
      rw [h4095]
      rfl
  missing := by
    intro words cube hnot
    have hnone : ∀ probe, probe < SELECTED_DIRECTORY_PROBES →
        (probeAt table words cube probe).1 = false := by
      intro probe hprobe
      by_contra hhit
      obtain ⟨i, hlisted, -⟩ := h.probeAt_hit hk hmost hprobe (Bool.eq_true_of_not_eq_false hhit)
      exact hnot (List.mem_of_getElem? hlisted)
    have hlookup := @selectedLookup_eq table words cube 0 (by
      intro probe hprobe hhit
      rw [hnone probe hprobe] at hhit
      cases hhit)
    have hany : (List.range SELECTED_DIRECTORY_PROBES).any
        (fun probe => (probeAt table words cube probe).1) = false := by
      rw [List.any_eq_false]
      intro probe hprobe
      rw [hnone probe (List.mem_range.mp hprobe)]
      exact Bool.false_ne_true
    rw [hlookup, hany]
    rfl
  inside := selectedLookup_inside

end Lookup

/-- The words the hash of which is the last slot of every ring. -/
def lastWords : Fin 8 → UInt32 := ![0, 0, 0, 0, 0, 0, 0, 0xccff8df3]

/-- A table too large for its word indices does not read the slots it means. -/
theorem Seated.le_of_readsSlots (h : Seated k descriptors seats table) (hk : k ≤ 32)
    (hreads : ReadsSlots table) : k ≤ 28 := by
  by_contra hlarge
  have hbig := Nat.pow_le_pow_right (show 0 < 2 by decide) (show 29 ≤ k by omega)
  have hhash : (selectedImageHash lastWords).toNat = 2 ^ 32 - 1 := by decide +kernel
  have hmask : (2 ^ 32 - 1) &&& (2 ^ k - 1) = 2 ^ k - 1 := by
    rw [Nat.and_comm, Nat.and_two_pow_sub_one_eq_mod]
    apply Nat.mod_eq_of_lt
    have := Nat.pow_le_pow_right (show 0 < 2 by decide) hk
    omega
  have hslot : (probedSlot (directoryWord table 0) lastWords 0).toNat = 2 ^ k - 1 := by
    rw [h.probedSlot_toNat hk (by decide), hhash, Nat.add_zero, ← Nat.and_two_pow_sub_one_eq_mod,
      hmask]
  have hread := hreads lastWords 0 0 (by decide) (by decide)
  have hlt := (firstWord (probedSlot (directoryWord table 0) lastWords 0) + UInt32.ofNat 0).toNat_lt
  rw [hread, hslot] at hlt
  unfold slotAt SELECTED_DIRECTORY_SLOT_WORDS at hlt
  omega

/-- There is a directory exactly where the descriptors fit the largest ring, and one whose lookups
read the slots they probe and answer as they should exactly where they fit a ring of `2 ^ 28`. -/
theorem selectedDirectory_answers (descriptors : List Descriptor)
    (hmost : descriptors.length ≤ MOST_SELECTED_IMAGES) (hdistinct : descriptors.Nodup) :
    ((selectedDirectory descriptors).isSome ↔ Fits 32 descriptors) ∧
      ((∃ table, selectedDirectory descriptors = some table ∧ ReadsSlots table ∧
        Answers descriptors table) ↔ Fits 28 descriptors) := by
  obtain ⟨hsome, htable⟩ := selectedDirectory_seated hmost
  refine ⟨hsome, ?_⟩
  constructor
  · rintro ⟨table, hdirectory, hreads, -⟩
    obtain ⟨k, seats, hk, hfits, hseats, -⟩ := htable table hdirectory
    exact hfits.larger (hseats.le_of_readsSlots hk hreads)
  · intro hfit
    obtain ⟨table, hdirectory⟩ := Option.isSome_iff_exists.mp (hsome.mpr (hfit.larger (by decide)))
    obtain ⟨k, seats, -, -, hseats, hleast⟩ := htable table hdirectory
    exact ⟨table, hdirectory, hseats.readsSlots (hleast hfit),
      hseats.answers (hleast hfit) hmost hdistinct⟩

/-- One image's words in both shapes, and another's. -/
def threeImages : List Descriptor :=
  [(![7, 0, 0, 0, 0, 0, 0, 0], true), (![7, 0, 0, 0, 0, 0, 0, 0], false),
    (![9, 0, 0, 0, 0, 0, 0, 0], false)]

theorem selectedDirectory_answers_three :
    ∃ table, selectedDirectory threeImages = some table ∧ ReadsSlots table ∧
      Answers threeImages table :=
  (selectedDirectory_answers threeImages (by decide) (by decide)).2.mpr (by decide +kernel)

/-- Five images the words of which differ and have one hash. -/
def fiveAlike : List Descriptor :=
  [(![0, 0, 0, 0, 0, 0, 1, 0x9e3645df], false), (![0, 0, 0, 0, 0, 0, 2, 0x3c6e8bbf], false),
    (![0, 0, 0, 0, 0, 0, 3, 0xdaa7d85f], false), (![0, 0, 0, 0, 0, 0, 4, 0x78dd177f], false),
    (![0, 0, 0, 0, 0, 0, 5, 0x17154e5f], false)]

theorem fiveAlike_no_directory :
    fiveAlike.length ≤ MOST_SELECTED_IMAGES ∧ fiveAlike.Nodup ∧
      selectedDirectory fiveAlike = none := by
  refine ⟨by decide, by decide, ?_⟩
  have hunfit : ¬Fits 32 fiveAlike := by decide +kernel
  obtain ⟨hsome, -⟩ := selectedDirectory_seated (show fiveAlike.length ≤ _ by decide)
  exact Option.not_isSome_iff_eq_none.mp (fun h => hunfit (hsome.mp h))

end Orbistoun.Translate.Selected
