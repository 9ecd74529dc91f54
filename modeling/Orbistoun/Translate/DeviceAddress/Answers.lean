import Mathlib.Tactic
import Orbistoun.Translate.DeviceAddress.Marks

/-! # What a table answers

A table a list of mappings built, after any redirects, answers a guest address with the last
redirect of its chunk, or its mapping, exactly when every mapping ends below the top of the address
space; the chunk of a mapping that reaches the top is in no slot.
-/

namespace Orbistoun.Translate.DeviceAddress

open Orbistoun.Lib

variable {shift guest : Nat} {mapping : Mapped} {mapped : List Mapped} {table : Table}

/-- What a lookup is to answer: the last redirect of the address's chunk, or else the address's place
in the mapping that holds it, and nothing where none does. -/
def answer (mapped : List Mapped) (shift : Nat) (redirects : List (Nat × Nat)) (guest : Nat) :
    Option Nat :=
  (mapped.find? (fun mapping => decide (mapping.Holds guest))).map (fun mapping =>
    match lastRedirect shift (guest / 2 ^ shift) redirects with
    | some device => (device + guest % 2 ^ shift) % U64.bound
    | none => (mapping.device + (guest - mapping.guest)) % U64.bound)

/-- What a table is to answer after any redirects, of lookups, slots and marks. -/
structure Answers (mapped : List Mapped) (table : Table) : Prop where
  lookup : ∀ redirects guest, guest < U64.bound →
    (table.redirected redirects).lookup guest = answer mapped table.shift redirects guest
  slot : ∀ redirects guest, (table.redirected redirects).lookup guest =
    ((table.redirected redirects).slotOf guest).map (fun slot =>
      (guest + held (table.redirected redirects).words (slotWord slot 2)) % U64.bound)
  written : ∀ redirects marks written touched,
    Marked (table.redirected redirects) marks written touched →
      ((table.redirected redirects).takeWritten marks).1.Nodup ∧
      (∀ range, range ∈ ((table.redirected redirects).takeWritten marks).1 ↔ ∃ guest ∈ written,
        ((table.redirected redirects).slotOf guest).isSome ∧
          range = (guest / 2 ^ table.shift * 2 ^ table.shift, 2 ^ table.shift)) ∧
      Marked (table.redirected redirects)
        ((table.redirected redirects).takeWritten marks).2 ∅ touched
  touched : ∀ redirects marks written touched,
    Marked (table.redirected redirects) marks written touched →
      ((table.redirected redirects).takeTouched marks).1.Nodup ∧
      (∀ start, start ∈ ((table.redirected redirects).takeTouched marks).1 ↔ ∃ guest ∈ touched,
        ((table.redirected redirects).slotOf guest).isSome ∧
          start = guest / 2 ^ table.shift * 2 ^ table.shift) ∧
      Marked (table.redirected redirects)
        ((table.redirected redirects).takeTouched marks).2 written ∅

theorem Built.map_some_iff (h : Built mapped table) {value : Nat} :
    (chunksOf table.shift mapped).lookup (guest / 2 ^ table.shift) = some value ↔
      ∃ mapping ∈ mapped, mapping.Holds guest ∧ mapping.EndsBelow ∧ value = mapping.delta := by
  have hsorted := (inOrder_apart_iff h.aligned).mpr h.apart
  have hproper := chunksOf_proper h.least hsorted
  constructor
  · intro hfound
    obtain ⟨mapping, hmem, hchunk⟩ := mem_chunksOf.mp (mem_of_lookup hfound)
    have hdvd := h.dvd mapping hmem
    exact ⟨mapping, hmem, (mem_chunks_iff hdvd.1 hdvd.2).mp hchunk⟩
  · rintro ⟨mapping, hmem, hholds⟩
    have hdvd := h.dvd mapping hmem
    apply lookup_of_mem hproper.nodup
    exact mem_chunksOf.mpr ⟨mapping, hmem, (mem_chunks_iff hdvd.1 hdvd.2).mpr hholds⟩

theorem Built.lookup_eq (h : Built mapped table) (redirects : List (Nat × Nat)) (guest : Nat) :
    (table.redirected redirects).lookup guest =
      ((chunksOf table.shift mapped).lookup (guest / 2 ^ table.shift)).map (fun delta =>
        (guest + redirectedDelta table.shift (guest / 2 ^ table.shift) redirects delta) %
          U64.bound) := by
  obtain ⟨hbits, hshift, hlaid⟩ := h.laid.redirected redirects
  rw [← hbits] at hlaid
  rw [hlaid.lookup_map, hshift, Option.map_map, Function.comp_def]

theorem add_delta (h : mapping.Holds guest) :
    (guest + mapping.delta) % U64.bound = (mapping.device + (guest - mapping.guest)) % U64.bound := by
  have hstart := mapping.guest_lt
  have hle := h.1
  unfold Mapped.delta
  unfold U64.bound at *
  omega

theorem add_redirected (hguest : guest < U64.bound) (device : Nat) :
    (guest + (device + U64.bound - guest / 2 ^ shift * 2 ^ shift) % U64.bound) % U64.bound =
      (device + guest % 2 ^ shift) % U64.bound := by
  have hsplit := Nat.div_add_mod' guest (2 ^ shift)
  unfold U64.bound at *
  omega

theorem Built.lookup_answer (h : Built mapped table)
    (hbelow : ∀ mapping ∈ mapped, mapping.EndsBelow) (redirects : List (Nat × Nat))
    (hguest : guest < U64.bound) :
    (table.redirected redirects).lookup guest = answer mapped table.shift redirects guest := by
  rw [h.lookup_eq]
  unfold answer
  cases hfind : mapped.find? (fun mapping => decide (mapping.Holds guest)) with
  | none =>
    have hnone : (chunksOf table.shift mapped).lookup (guest / 2 ^ table.shift) = none := by
      rw [Option.eq_none_iff_forall_ne_some]
      intro value hvalue
      obtain ⟨mapping, hmem, hholds, -⟩ := h.map_some_iff.mp hvalue
      exact List.find?_eq_none.mp hfind mapping hmem (decide_eq_true hholds)
    rw [hnone, Option.map_none, Option.map_none]
  | some mapping =>
    have hmem := List.mem_of_find?_eq_some hfind
    have hfound := List.find?_some hfind
    have hholds : mapping.Holds guest := of_decide_eq_true hfound
    have hvalue := h.map_some_iff.mpr ⟨mapping, hmem, hholds, hbelow mapping hmem, rfl⟩
    rw [hvalue, Option.map_some, Option.map_some]
    unfold redirectedDelta
    cases hlast : lastRedirect table.shift (guest / 2 ^ table.shift) redirects with
    | none => rw [Option.elim_none, add_delta hholds]
    | some device => rw [Option.elim_some, add_redirected hguest]

theorem Built.answers_iff (h : Built mapped table) :
    Answers mapped table ↔ ∀ mapping ∈ mapped, mapping.EndsBelow := by
  constructor
  · intro hanswers mapping hmem
    by_contra htop
    have hlookup := hanswers.lookup [] mapping.guest mapping.guest_lt
    have hlen := Nat.pos_of_ne_zero (h.aligned mapping hmem).1
    have hholds : mapping.Holds mapping.guest :=
      ⟨Nat.le_refl _, Nat.lt_add_of_pos_right hlen⟩
    have hnone : (chunksOf table.shift mapped).lookup (mapping.guest / 2 ^ table.shift) = none := by
      rw [Option.eq_none_iff_forall_ne_some]
      intro value hvalue
      obtain ⟨other, hother, hother', hbelow, -⟩ := h.map_some_iff.mp hvalue
      by_cases hsame : other = mapping
      · exact htop (hsame ▸ hbelow)
      · have hsymm : Std.Symm Mapped.Apart := ⟨fun _ _ hapart => hapart.symm⟩
        have hapart := h.apart.forall hother hmem hsame
        exact hapart mapping.guest ⟨hother', hholds⟩
    rw [h.lookup_eq, hnone] at hlookup
    have hfound : (mapped.find? (fun m => decide (m.Holds mapping.guest))).isSome := by
      rw [List.find?_isSome]
      exact ⟨mapping, hmem, decide_eq_true hholds⟩
    unfold answer at hlookup
    rw [← Option.isSome_map, ← hlookup] at hfound
    cases hfound
  · intro hbelow
    constructor
    · exact fun redirects guest hguest => h.lookup_answer hbelow redirects hguest
    · intro redirects guest
      obtain ⟨hbits, -, hlaid⟩ := h.laid.redirected redirects
      rw [← hbits] at hlaid
      exact hlaid.lookup_eq
    · intro redirects marks written touched hmarked
      obtain ⟨hbits, hshift, hlaid⟩ := h.laid.redirected redirects
      rw [← hbits] at hlaid
      rw [← hshift]
      exact takeWritten_marked hlaid (hbits ▸ h.bits) hmarked
    · intro redirects marks written touched hmarked
      obtain ⟨hbits, hshift, hlaid⟩ := h.laid.redirected redirects
      rw [← hbits] at hlaid
      rw [← hshift]
      exact takeTouched_marked hlaid (hbits ▸ h.bits) hmarked

/-- Empty, unaligned and overlapping mappings are refused, and others only for their size; a table
built answers for its mappings exactly where they all end below the top. -/
theorem table_answers (mapped : List Mapped) :
    ((∃ mapping ∈ mapped, ¬ mapping.PageAligned) ∨ ¬ mapped.Pairwise Mapped.Apart →
      ∃ e, build mapped = .error e) ∧
    ((∀ mapping ∈ mapped, mapping.PageAligned) → mapped.Pairwise Mapped.Apart →
      (∃ chunks, build mapped = .error (.TooLarge chunks)) ∨ ∃ table, build mapped = .ok table) ∧
    ∀ table, build mapped = .ok table →
      (Answers mapped table ↔ ∀ mapping ∈ mapped, mapping.EndsBelow) := by
  refine ⟨?_, ?_, fun table h => (built_of_build h).answers_iff⟩
  · intro hbad
    by_cases haligned : ∀ mapping ∈ mapped, mapping.PageAligned
    · rcases hbad with ⟨mapping, hmem, hbad⟩ | hoverlap
      · exact absurd (haligned mapping hmem) hbad
      · obtain ⟨first, second, herror⟩ := build_overlapping haligned hoverlap
        exact ⟨_, herror⟩
    · push Not at haligned
      obtain ⟨guest, len, herror⟩ := build_misaligned haligned
      exact ⟨_, herror⟩
  · intro haligned hapart
    rcases build_apart haligned hapart with herror | ⟨table, htable, -⟩
    · exact .inl herror
    · exact .inr ⟨table, htable⟩

def lastPage : Mapped :=
  ⟨2 ^ 64 - 4096, 4096, 0, by decide, by decide, by decide⟩

/-- The last page builds a table that finds none of it. -/
theorem last_page_not_found :
    build [lastPage] = .ok ⟨cleared 1, 1, 12⟩ ∧ lastPage.Holds (2 ^ 64 - 4096) ∧
      Table.lookup ⟨cleared 1, 1, 12⟩ (2 ^ 64 - 4096) = none := by
  decide +kernel

end Orbistoun.Translate.DeviceAddress
