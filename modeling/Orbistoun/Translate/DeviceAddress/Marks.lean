import Mathlib.Tactic
import Orbistoun.Translate.DeviceAddress.Built

/-! # Redirects and marks

A redirect moves where a chunk is reached and never which slot holds it. The slots marked are those
of the chunks written and touched, and taking the marks answers each of the chunks once.
-/

namespace Orbistoun.Translate.DeviceAddress

open Orbistoun.Lib

variable {chunk slot shift guest width : Nat} {mapped : List Mapped} {table : Table}
  {map : Nat → Option Nat} {redirects : List (Nat × Nat)} {marks : List Nat}

/-! ## Redirects -/

def lastRedirect (shift chunk : Nat) (redirects : List (Nat × Nat)) : Option Nat :=
  (redirects.reverse.find? (fun redirect => redirect.1 / 2 ^ shift == chunk)).map Prod.snd

theorem lastRedirect_snoc (redirect : Nat × Nat) :
    lastRedirect shift chunk (redirects ++ [redirect]) =
      if redirect.1 / 2 ^ shift = chunk then some redirect.2
      else lastRedirect shift chunk redirects := by
  unfold lastRedirect
  rw [List.reverse_append, List.reverse_singleton, List.singleton_append, List.find?_cons]
  by_cases h : redirect.1 / 2 ^ shift = chunk
  · rw [if_pos h, beq_iff_eq.mpr h]
    rfl
  · rw [if_neg h, beq_eq_false_iff_ne.mpr h]

def redirectedDelta (shift chunk : Nat) (redirects : List (Nat × Nat)) (delta : Nat) : Nat :=
  (lastRedirect shift chunk redirects).elim delta
    (fun device => (device + U64.bound - chunk * 2 ^ shift) % U64.bound)

theorem lastRedirect_nil : lastRedirect shift chunk [] = none := by
  unfold lastRedirect
  rw [List.reverse_nil, List.find?_nil, Option.map_none]

theorem redirectedDelta_nil (delta : Nat) : redirectedDelta shift chunk [] delta = delta := by
  unfold redirectedDelta
  rw [lastRedirect_nil, Option.elim_none]

theorem redirectedDelta_same {redirect : Nat × Nat} (h : redirect.1 / 2 ^ shift = chunk)
    (delta : Nat) : redirectedDelta shift chunk (redirects ++ [redirect]) delta =
      (redirect.2 + U64.bound - chunk * 2 ^ shift) % U64.bound := by
  unfold redirectedDelta
  rw [lastRedirect_snoc, if_pos h, Option.elim_some]

theorem redirectedDelta_other {redirect : Nat × Nat} (h : redirect.1 / 2 ^ shift ≠ chunk)
    (delta : Nat) : redirectedDelta shift chunk (redirects ++ [redirect]) delta =
      redirectedDelta shift chunk redirects delta := by
  unfold redirectedDelta
  rw [lastRedirect_snoc, if_neg h]

theorem redirected_snoc (table : Table) (redirects : List (Nat × Nat)) (redirect : Nat × Nat) :
    table.redirected (redirects ++ [redirect]) =
      ((table.redirected redirects).redirect redirect.1 redirect.2).2 := by
  unfold Table.redirected
  rw [List.foldl_append, List.foldl_cons, List.foldl_nil]

theorem redirected_map (map : Nat → Option Nat) {later : Table} (hshift : later.shift = shift)
    (redirects : List (Nat × Nat)) (redirect : Nat × Nat) :
    (fun chunk => (map chunk).map (redirectedDelta shift chunk (redirects ++ [redirect]))) =
      if ((map (redirect.1 / 2 ^ shift)).map (redirectedDelta shift
          (redirect.1 / 2 ^ shift) redirects)).isSome then
        Function.update (fun chunk => (map chunk).map (redirectedDelta shift chunk redirects))
          (redirect.1 / 2 ^ shift) (some (later.redirectDelta redirect.1 redirect.2))
      else fun chunk => (map chunk).map (redirectedDelta shift chunk redirects) := by
  funext chunk
  rw [Option.isSome_map]
  cases hchunk : map (redirect.1 / 2 ^ shift) with
  | none =>
    rw [Option.isSome_none, if_neg Bool.false_ne_true]
    by_cases hsame : redirect.1 / 2 ^ shift = chunk
    · rw [← hsame, hchunk, Option.map_none, Option.map_none]
    · cases map chunk with
      | none => rw [Option.map_none, Option.map_none]
      | some delta => rw [Option.map_some, Option.map_some, redirectedDelta_other hsame]
  | some held =>
    rw [Option.isSome_some, if_pos rfl, Function.update_apply]
    by_cases hsame : redirect.1 / 2 ^ shift = chunk
    · rw [if_pos hsame.symm, ← hsame, hchunk, Option.map_some, redirectedDelta_same rfl]
      unfold Table.redirectDelta
      rw [hshift]
    · rw [if_neg (Ne.symm hsame)]
      cases map chunk with
      | none => rw [Option.map_none, Option.map_none]
      | some delta => rw [Option.map_some, Option.map_some, redirectedDelta_other hsame]

theorem Laid.redirected (h : Laid table.bits table.words map) (redirects : List (Nat × Nat)) :
    (table.redirected redirects).bits = table.bits ∧
      (table.redirected redirects).shift = table.shift ∧
      Laid table.bits (table.redirected redirects).words
        (fun chunk => (map chunk).map (redirectedDelta table.shift chunk redirects)) := by
  induction redirects using List.reverseRecOn with
  | nil =>
    have hmap : (fun chunk => (map chunk).map (redirectedDelta table.shift chunk [])) = map := by
      funext chunk
      cases map chunk with
      | none => rw [Option.map_none]
      | some delta => rw [Option.map_some, redirectedDelta_nil]
    rw [hmap]
    exact ⟨rfl, rfl, h⟩
  | append_singleton redirects redirect ih =>
    obtain ⟨hbits, hshift, hlaid⟩ := ih
    rw [← hbits] at hlaid
    have hnext := @Laid.redirect _ _ redirect.1 redirect.2 hlaid
    rw [hshift, hbits] at hnext
    rw [redirected_snoc, redirected_map map hshift]
    exact ⟨hnext.2.1, hnext.2.2.1, hnext.2.2.2⟩

/-! ## Marks -/

def Table.named (table : Table) (slot : Nat) : Option Nat :=
  if table.words.getD (slotWord slot 0 + 1) 0 ≠ EMPTY then some (held table.words (slotWord slot 0))
  else none

/-- The marks of slots within the words are all taken: each used slot's chunk is answered where its
mark is set, and every mark is cleared. -/
theorem takeMarked_eq (marks : List Nat) (slot : Nat)
    (hroom : ∀ i < marks.length, slotWord (slot + i) 0 + width ≤ table.words.length) :
    table.takeMarked width slot marks =
      ((List.range marks.length).filterMap (fun i =>
          if marks.getD i 0 ≠ 0 then table.named (slot + i) else none),
        List.replicate marks.length 0) := by
  induction marks generalizing slot with
  | nil => rfl
  | cons mark marks ih =>
    have hrest : ∀ i < marks.length, slotWord (slot + 1 + i) 0 + width ≤ table.words.length := by
      intro i hi
      have h := hroom (i + 1) (Nat.succ_lt_succ hi)
      rwa [Nat.add_comm i 1, ← Nat.add_assoc] at h
    have hfirst := hroom 0 (Nat.succ_pos _)
    rw [Nat.add_zero] at hfirst
    have htail : (fun i => if (mark :: marks).getD (i + 1) 0 ≠ 0 then table.named (slot + (i + 1))
        else none) = fun i => if marks.getD i 0 ≠ 0 then table.named (slot + 1 + i) else none := by
      funext i
      rw [List.getD_cons_succ, Nat.add_comm i 1, ← Nat.add_assoc]
    rw [Table.takeMarked, ih (slot + 1) hrest, List.length_cons, List.range_succ_eq_map,
      List.filterMap_cons, List.filterMap_map, List.getD_cons_zero, Nat.add_zero slot]
    simp only [Function.comp_def, Nat.succ_eq_add_one, htail, List.replicate_succ]
    by_cases hmark : mark = 0
    · rw [if_pos hmark, if_neg (not_not_intro hmark)]
    · rw [if_neg hmark, if_pos hfirst, if_pos hmark]
      unfold Table.named
      split <;> rfl

theorem slots_eq (h : table.bits ≤ 31) : table.slots = 2 ^ table.bits + PROBES - 1 := by
  have hpow : 2 ^ table.bits ≤ 2 ^ 31 := Nat.pow_le_pow_right (by decide) h
  unfold Table.slots
  rw [Nat.mod_eq_of_lt (show table.bits < 32 by omega)]
  apply Nat.mod_eq_of_lt
  unfold PROBES
  omega

/-- The marks a dispatch leaves: of each kind, one for each slot, set exactly for the slots of the
guest addresses it reached. -/
structure Marked (table : Table) (marks : List Nat) (written touched : Set Nat) : Prop where
  room : marks.length = MARK_SINK_WORDS + table.slots + table.slots
  words : ∀ guest, guest ∈ written ∨ guest ∈ touched → guest < U64.bound
  written : ∀ slot < table.slots, marks.getD (MARK_SINK_WORDS + slot) 0 ≠ 0 ↔
    ∃ guest ∈ written, table.slotOf guest = some slot
  touched : ∀ slot < table.slots, marks.getD (MARK_SINK_WORDS + table.slots + slot) 0 ≠ 0 ↔
    ∃ guest ∈ touched, table.slotOf guest = some slot

section Taking

variable {addresses written touched : Set Nat}

theorem Laid.named (h : Laid table.bits table.words map) (hslot : table.slotOf guest = some slot) :
    table.named slot = some (guest / 2 ^ table.shift) := by
  obtain ⟨-, value, hstored⟩ := h.slotOf_some hslot
  unfold stored at hstored
  split at hstored
  · next hused =>
    have hindex : slotWord slot 0 = 4 * cellOf slot := by
      rw [slotWord_eq (by decide), Nat.add_zero]
    unfold Table.named
    rw [hindex, if_pos hused.2.2, (Prod.mk.inj (Option.some.inj hstored)).1]
  · cases hstored

def Table.reached (table : Table) (marks : List Nat) : List Nat :=
  (List.range table.slots).filterMap (fun slot =>
    if marks.getD slot 0 ≠ 0 then table.named slot else none)

theorem mem_reached (h : Laid table.bits table.words map) (hbits : table.bits ≤ 31)
    (hmarks : ∀ slot < table.slots, marks.getD slot 0 ≠ 0 ↔
      ∃ guest ∈ addresses, table.slotOf guest = some slot) :
    chunk ∈ table.reached marks ↔
      ∃ guest ∈ addresses, (table.slotOf guest).isSome ∧ chunk = guest / 2 ^ table.shift := by
  unfold Table.reached
  rw [List.mem_filterMap]
  constructor
  · rintro ⟨slot, hmem, hnamed⟩
    split at hnamed
    · next hset =>
      obtain ⟨guest, hguest, hslot⟩ := (hmarks slot (List.mem_range.mp hmem)).mp hset
      rw [h.named hslot] at hnamed
      exact ⟨guest, hguest, by rw [hslot]; rfl, (Option.some.inj hnamed).symm⟩
    · cases hnamed
  · rintro ⟨guest, hguest, hsome, rfl⟩
    obtain ⟨slot, hslot⟩ := Option.isSome_iff_exists.mp hsome
    have hlt : slot < table.slots := by
      rw [slots_eq hbits]
      exact (h.slotOf_some hslot).1
    refine ⟨slot, List.mem_range.mpr hlt, ?_⟩
    rw [if_pos ((hmarks slot hlt).mpr ⟨guest, hguest, hslot⟩)]
    exact h.named hslot

theorem nodup_reached (h : Laid table.bits table.words map)
    (hmarks : ∀ slot < table.slots, marks.getD slot 0 ≠ 0 ↔
      ∃ guest ∈ addresses, table.slotOf guest = some slot) : (table.reached marks).Nodup := by
  have hslot : ∀ slot < table.slots, ∀ chunk,
      (if marks.getD slot 0 ≠ 0 then table.named slot else none) = some chunk →
        ∃ guest, table.slotOf guest = some slot ∧ guest / 2 ^ table.shift = chunk := by
    intro slot hlt chunk hnamed
    split at hnamed
    · next hset =>
      obtain ⟨guest, -, hslot⟩ := (hmarks slot hlt).mp hset
      rw [h.named hslot] at hnamed
      exact ⟨guest, hslot, Option.some.inj hnamed⟩
    · cases hnamed
  unfold Table.reached
  rw [List.nodup_iff_pairwise_ne, List.pairwise_filterMap]
  apply List.nodup_range.imp_of_mem
  intro one other hone hother hne chunk hchunk chunk' hchunk' heq
  obtain ⟨guest, hguest, rfl⟩ := hslot one (List.mem_range.mp hone) _ hchunk
  obtain ⟨guest', hguest', rfl⟩ := hslot other (List.mem_range.mp hother) _ hchunk'
  rw [slotOf_congr heq, hguest'] at hguest
  exact hne (Option.some.inj hguest).symm

theorem takeMarked_slots (h : Laid table.bits table.words map) (hbits : table.bits ≤ 31)
    (hwidth : width ≤ 4) (hlen : marks.length = table.slots) :
    table.takeMarked width 0 marks =
      (table.reached marks, List.replicate table.slots 0) := by
  rw [takeMarked_eq, hlen]
  · simp only [Nat.zero_add]
    rfl
  · intro slot hslot
    rw [hlen, slots_eq hbits] at hslot
    have hroom := h.room hslot
    rw [Nat.zero_add, slotWord_eq (by decide)]
    omega

theorem base_eq (hguest : guest < U64.bound) :
    table.base (guest / 2 ^ table.shift) = guest / 2 ^ table.shift * 2 ^ table.shift := by
  apply Nat.mod_eq_of_lt
  exact Nat.lt_of_le_of_lt (Nat.div_mul_le_self _ _) hguest

theorem nodup_map_base {chunks : List Nat} (hnodup : chunks.Nodup)
    (hchunks : ∀ chunk ∈ chunks, ∃ guest, guest < U64.bound ∧ chunk = guest / 2 ^ table.shift) :
    (chunks.map table.base).Nodup := by
  apply List.Nodup.map_on _ hnodup
  intro one hone other hother heq
  obtain ⟨guest, hguest, rfl⟩ := hchunks one hone
  obtain ⟨guest', hguest', rfl⟩ := hchunks other hother
  rw [base_eq hguest, base_eq hguest'] at heq
  exact Nat.eq_of_mul_eq_mul_right (Nat.two_pow_pos _) heq

theorem getD_drop (marks : List Nat) (from' slot : Nat) :
    (marks.drop from').getD slot 0 = marks.getD (from' + slot) 0 := by
  rw [List.getD_eq_getElem?_getD, List.getElem?_drop, List.getD_eq_getElem?_getD]

theorem getD_take (marks : List Nat) {count slot : Nat} (h : slot < count) :
    (marks.take count).getD slot 0 = marks.getD slot 0 := by
  rw [List.getD_eq_getElem?_getD, List.getElem?_take_of_lt h, List.getD_eq_getElem?_getD]

/-- Taking the touched marks answers each chunk touched once and clears no other mark. -/
theorem takeTouched_marked (h : Laid table.bits table.words map) (hbits : table.bits ≤ 31)
    (hmarked : Marked table marks written touched) :
    (table.takeTouched marks).1.Nodup ∧
      (∀ start, start ∈ (table.takeTouched marks).1 ↔ ∃ guest ∈ touched,
        (table.slotOf guest).isSome ∧ start = guest / 2 ^ table.shift * 2 ^ table.shift) ∧
      Marked table (table.takeTouched marks).2 written ∅ := by
  have hlen : (marks.drop (MARK_SINK_WORDS + table.slots)).length = table.slots := by
    rw [List.length_drop, hmarked.room]
    omega
  have hfront : (marks.take (MARK_SINK_WORDS + table.slots)).length =
      MARK_SINK_WORDS + table.slots := by
    rw [List.length_take, hmarked.room]
    omega
  have hmarks : ∀ slot < table.slots,
      (marks.drop (MARK_SINK_WORDS + table.slots)).getD slot 0 ≠ 0 ↔
        ∃ guest ∈ touched, table.slotOf guest = some slot := by
    intro slot hslot
    rw [getD_drop]
    exact hmarked.touched slot hslot
  have hmem : ∀ chunk, chunk ∈ table.reached (marks.drop (MARK_SINK_WORDS + table.slots)) ↔
      ∃ guest ∈ touched, (table.slotOf guest).isSome ∧ chunk = guest / 2 ^ table.shift :=
    fun chunk => mem_reached h hbits hmarks
  unfold Table.takeTouched
  dsimp only
  rw [takeMarked_slots h hbits (by decide) hlen]
  dsimp only
  refine ⟨?_, ?_, ?_, ?_, ?_, ?_⟩
  · rw [(List.perm_insertionSort _ _).nodup_iff]
    apply nodup_map_base (nodup_reached h hmarks)
    intro chunk hchunk
    obtain ⟨guest, hguest, -, rfl⟩ := (hmem chunk).mp hchunk
    exact ⟨guest, hmarked.words guest (.inr hguest), rfl⟩
  · intro start
    rw [List.mem_insertionSort, List.mem_map]
    constructor
    · rintro ⟨chunk, hchunk, rfl⟩
      obtain ⟨guest, hguest, hsome, rfl⟩ := (hmem chunk).mp hchunk
      exact ⟨guest, hguest, hsome, base_eq (hmarked.words guest (.inr hguest))⟩
    · rintro ⟨guest, hguest, hsome, rfl⟩
      exact ⟨_, (hmem _).mpr ⟨guest, hguest, hsome, rfl⟩,
        base_eq (hmarked.words guest (.inr hguest))⟩
  · rw [List.length_append, hfront, List.length_replicate]
  · rintro guest (hguest | hguest)
    · exact hmarked.words guest (.inl hguest)
    · exact hguest.elim
  · intro slot hslot
    rw [List.getD_append _ _ _ _ (by rw [hfront]; omega), getD_take _ (by omega)]
    exact hmarked.written slot hslot
  · intro slot hslot
    rw [List.getD_append_right _ _ _ _ (by rw [hfront]; omega), hfront, Nat.add_sub_cancel_left]
    apply iff_of_false
    · rw [List.getD_replicate _ hslot]
      exact not_not_intro rfl
    · rintro ⟨guest, hguest, -⟩
      exact hguest

/-- Taking the written marks answers each chunk written once, with its length, and clears no touched
mark. -/
theorem takeWritten_marked (h : Laid table.bits table.words map) (hbits : table.bits ≤ 31)
    (hmarked : Marked table marks written touched) :
    (table.takeWritten marks).1.Nodup ∧
      (∀ range, range ∈ (table.takeWritten marks).1 ↔ ∃ guest ∈ written,
        (table.slotOf guest).isSome ∧
          range = (guest / 2 ^ table.shift * 2 ^ table.shift, 2 ^ table.shift)) ∧
      Marked table (table.takeWritten marks).2 ∅ touched := by
  have hsink : min MARK_SINK_WORDS marks.length = MARK_SINK_WORDS := by
    rw [hmarked.room]
    omega
  have hlen : ((marks.drop MARK_SINK_WORDS).take table.slots).length = table.slots := by
    rw [List.length_take, List.length_drop, hmarked.room]
    omega
  have hmarks : ∀ slot < table.slots,
      ((marks.drop MARK_SINK_WORDS).take table.slots).getD slot 0 ≠ 0 ↔
        ∃ guest ∈ written, table.slotOf guest = some slot := by
    intro slot hslot
    rw [getD_take _ hslot, getD_drop]
    exact hmarked.written slot hslot
  have hmem : ∀ chunk, chunk ∈ table.reached ((marks.drop MARK_SINK_WORDS).take table.slots) ↔
      ∃ guest ∈ written, (table.slotOf guest).isSome ∧ chunk = guest / 2 ^ table.shift :=
    fun chunk => mem_reached h hbits hmarks
  unfold Table.takeWritten
  dsimp only
  rw [hsink, takeMarked_slots h hbits (by decide) hlen]
  dsimp only
  refine ⟨?_, ?_, ?_, ?_, ?_, ?_⟩
  · rw [(List.perm_insertionSort _ _).nodup_iff]
    have hbases : ((table.reached ((marks.drop MARK_SINK_WORDS).take table.slots)).map
        table.base).Nodup := by
      apply nodup_map_base (nodup_reached h hmarks)
      intro chunk hchunk
      obtain ⟨guest, hguest, -, rfl⟩ := (hmem chunk).mp hchunk
      exact ⟨guest, hmarked.words guest (.inl hguest), rfl⟩
    apply List.Nodup.of_map Prod.fst
    rw [List.map_map]
    exact hbases
  · intro range
    rw [List.mem_insertionSort, List.mem_map]
    constructor
    · rintro ⟨chunk, hchunk, rfl⟩
      obtain ⟨guest, hguest, hsome, rfl⟩ := (hmem chunk).mp hchunk
      exact ⟨guest, hguest, hsome, by rw [base_eq (hmarked.words guest (.inl hguest))]⟩
    · rintro ⟨guest, hguest, hsome, rfl⟩
      exact ⟨_, (hmem _).mpr ⟨guest, hguest, hsome, rfl⟩,
        by rw [base_eq (hmarked.words guest (.inl hguest))]⟩
  · rw [List.length_append, List.length_append, List.length_replicate, List.length_replicate,
      List.length_drop, List.length_drop, hmarked.room]
    omega
  · rintro guest (hguest | hguest)
    · exact hguest.elim
    · exact hmarked.words guest (.inr hguest)
  · intro slot hslot
    apply iff_of_false
    · rw [List.append_assoc, List.getD_append_right _ _ _ _ (by rw [List.length_replicate]; omega),
        List.length_replicate, Nat.add_sub_cancel_left,
        List.getD_append _ _ _ _ (by rw [List.length_replicate]; exact hslot),
        List.getD_replicate _ hslot]
      exact not_not_intro rfl
    · rintro ⟨guest, hguest, -⟩
      exact hguest
  · intro slot hslot
    have hfront : (List.replicate MARK_SINK_WORDS 0 ++ List.replicate table.slots 0).length =
        MARK_SINK_WORDS + table.slots := by
      rw [List.length_append, List.length_replicate, List.length_replicate]
    rw [List.getD_append_right _ _ _ _ (by rw [hfront]; omega), hfront, Nat.add_sub_cancel_left,
      getD_drop, getD_drop, ← Nat.add_assoc]
    exact hmarked.touched slot hslot

end Taking

end Orbistoun.Translate.DeviceAddress
