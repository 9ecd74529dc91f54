import Mathlib.Data.List.TakeWhile
import Orbistoun.Gpu.Cp.Packet
import Orbistoun.Lib.Writes

/-! # A dispatch's global buffer

The guest pages the global loads and stores of a dispatch reach, each whole, behind a hash
table of each page's number and where its words start. A page lies at its own slot or within
a fixed number of probes of it, and what the stores changed is written back page by page.
-/

namespace Orbistoun.Gpu.GlobalPages

open Orbistoun.Gpu.Cp (Byte u32Max toLeBytes)
open Orbistoun.Lib.Writes

def PAGE : Nat := 4096

def PAGE_WORDS : Nat := PAGE / 4

/-- The largest table, as a power of two. -/
def MOST_TABLE_BITS : Nat := 24

/-- How many slots from its own a held page's lookup searches. -/
def GLOBAL_PAGE_PROBES : Nat := 2

/-- The multiplier of the hash: the golden ratio's fraction of 2^32. -/
def GLOBAL_PAGE_HASH : Nat := 0x9e3779b1

def u32 (x : Nat) : Nat := x % 2 ^ 32

def globalPageSlot (page bits : Nat) : Nat :=
  u32 ((u32 page ^^^ u32 (page / 2 ^ 32)) * GLOBAL_PAGE_HASH) / 2 ^ (32 - max 1 (min bits 31))

/-- The pages held: whole pages of the guest's address space, ascending. -/
structure Pages where
  pages : List Nat
  ascending : pages.Pairwise (· < ·)
  whole : ∀ page ∈ pages, PAGE ∣ page ∧ page < 2 ^ 64

/-- The slots a page may lie in, its own first. -/
def probes (page bits : Nat) : List Nat :=
  (List.range GLOBAL_PAGE_PROBES).map (fun probe => (globalPageSlot page bits + probe) % 2 ^ bits)

def placedLoop (bits : Nat) : List Nat → List Nat → Option (List Nat)
  | [], _ => some []
  | page :: rest, taken =>
      match (probes (page / PAGE) bits).find? (fun slot => slot ∉ taken) with
      | none => none
      | some slot => (placedLoop bits rest (slot :: taken)).map (slot :: ·)

namespace Pages

variable (p : Pages)

def placed (bits : Nat) : Option (List Nat) := placedLoop bits p.pages []

/-- The table's size as a power of two: the least, of at least four slots a page, that places
every page. -/
def tableBits : Option Nat :=
  let least := max (Nat.clog 2 (max p.pages.length 1 * 4)) 1
  (List.range' least (MOST_TABLE_BITS + 1 - least)).find? (fun bits => (p.placed bits).isSome)

/-- How many words the buffer takes. -/
def words : Option Nat :=
  p.tableBits.map (fun bits => 1 + 3 * 2 ^ bits + p.pages.length * PAGE_WORDS)

end Pages

def resize (words : List Nat) : List Nat :=
  words.take PAGE_WORDS ++ List.replicate (PAGE_WORDS - words.length) 0

/-- A slot of the table filled in: the page's number, and where its words start. -/
def setSlot (words : List Nat) (slot number start : Nat) : List Nat :=
  ((words.set (1 + 3 * slot) (u32 number)).set (2 + 3 * slot) (u32 (number / 2 ^ 32))).set
    (3 + 3 * slot) start

/-- The loop that fills the table in and puts each page that can be read behind it. -/
def fill (read : Nat → Option (List Nat)) : List (Nat × Nat) → List Nat → List Nat
  | [], words => words
  | (page, slot) :: rest, words =>
      match read page with
      | none => fill read rest words
      | some held =>
          if words.length ≤ u32Max then
            fill read rest (setSlot words slot (page / PAGE) words.length ++ resize held)
          else fill read rest words

def Pages.bufferWords (p : Pages) (read : Nat → Option (List Nat)) : List Nat :=
  match p.tableBits with
  | none => []
  | some bits =>
      match p.placed bits with
      | none => []
      | some slots => fill read (p.pages.zip slots) (bits :: List.replicate (3 * 2 ^ bits) 0)

def slotAt (words : List Nat) (slot : Nat) : Option (Nat × Nat × Nat) :=
  match words[1 + 3 * slot]?, words[2 + 3 * slot]?, words[3 + 3 * slot]? with
  | some low, some high, some start => some (low, high, start)
  | _, _, _ => none

/-- Where the word at an address lies in the buffer, as the module looks it up. -/
def lookup (words : List Nat) (address : Nat) : Option Nat :=
  match words[0]? with
  | none => none
  | some bits =>
      let number := address / PAGE
      (probes number bits).findSome? (fun slot =>
        match slotAt words slot with
        | none => none
        | some (low, high, start) =>
            if start ≠ 0 ∧ low = u32 number ∧ high = u32 (number / 2 ^ 32) then
              some (start + address % PAGE / 4)
            else none)

/-! ## Writing back -/

/-- The runs of words that differ, from an address on: what they were beside what they are. -/
def pageRuns (address : Nat) (words : List (Nat × Nat)) : List (Nat × List Nat) :=
  match words with
  | [] => []
  | (was, now) :: rest =>
      if was = now then pageRuns (address + 4) rest
      else
        let run := rest.takeWhile (fun w => w.1 != w.2)
        (address, now :: run.map Prod.snd) ::
          pageRuns (address + 4 * (run.length + 1)) (rest.dropWhile (fun w => w.1 != w.2))
  termination_by words.length
  decreasing_by
    · simp
    · have := List.length_dropWhile_le (fun w : Nat × Nat => w.1 != w.2) rest
      simp
      omega

def pageAt (words : List Nat) (start : Nat) : Option (List Nat) :=
  if start + PAGE_WORDS ≤ words.length then some ((words.drop start).take PAGE_WORDS) else none

def slotRuns (before after : List Nat) (slot : Nat) : List (Nat × List Nat) :=
  match slotAt before slot with
  | none => []
  | some (low, high, start) =>
      match (pageAt before start).filter (fun _ => start ≠ 0), pageAt after start with
      | some was, some now => pageRuns ((high * 2 ^ 32 ||| low) * PAGE) (was.zip now)
      | _, _ => []

def changedRuns (before after : List Nat) : List (Nat × List Nat) :=
  let slots := (before.head?.map (fun bits => 2 ^ min bits MOST_TABLE_BITS)).getD 0
  ((List.range slots).flatMap (slotRuns before after)).mergeSort (fun r s => r.1 ≤ s.1)

/-- A run written back to guest memory, a word as four bytes. -/
def runWrite (run : Nat × List Nat) : Write Byte := ⟨run.1, run.2.flatMap (toLeBytes 4)⟩

/-! ## Placement -/

/-- Slots for pages: one each, none twice, each one the page's lookup comes to. -/
structure Placed (bits : Nat) (pages slots taken : List Nat) : Prop where
  length : slots.length = pages.length
  distinct : slots.Nodup
  untaken : ∀ slot ∈ slots, slot ∉ taken
  probed : ∀ e ∈ pages.zip slots, e.2 ∈ probes (e.1 / PAGE) bits

theorem placedLoop_placed {bits : Nat} {pages taken slots : List Nat}
    (h : placedLoop bits pages taken = some slots) : Placed bits pages slots taken := by
  induction pages generalizing taken slots with
  | nil =>
      cases h
      exact ⟨rfl, List.nodup_nil, by simp, by simp⟩
  | cons page rest ih =>
      unfold placedLoop at h
      split at h
      · cases h
      · next slot hfind =>
        obtain ⟨later, hlater, rfl⟩ := Option.map_eq_some_iff.mp h
        have hrest := ih hlater
        have hfree : slot ∉ taken := by simpa using List.find?_some hfind
        have hprobe : slot ∈ probes (page / PAGE) bits := List.mem_of_find?_eq_some hfind
        constructor
        · rw [List.length_cons, List.length_cons, hrest.length]
        · apply List.nodup_cons.mpr
          exact ⟨fun hmem => hrest.untaken slot hmem List.mem_cons_self, hrest.distinct⟩
        · intro other hother htaken
          rcases List.mem_cons.mp hother with rfl | hother
          · exact hfree htaken
          · exact hrest.untaken other hother (List.mem_cons_of_mem _ htaken)
        · intro e he
          rw [List.zip_cons_cons] at he
          rcases List.mem_cons.mp he with rfl | he
          · exact hprobe
          · exact hrest.probed e he

theorem lt_of_mem_probes {page bits slot : Nat} (h : slot ∈ probes page bits) : slot < 2 ^ bits := by
  obtain ⟨probe, -, rfl⟩ := List.mem_map.mp h
  exact Nat.mod_lt _ (Nat.two_pow_pos bits)

/-! ## The buffer -/

/-- A page in the buffer: its address, its slot, and where its words start. -/
structure Held where
  page : Nat
  slot : Nat
  start : Nat
  words : List Nat

def Held.entry (h : Held) : Nat × Nat × Nat :=
  (u32 (h.page / PAGE), u32 (h.page / PAGE / 2 ^ 32), h.start)

/-- The words of a buffer that holds some pages: its table's size, a table with an entry for
each of them and nothing in the other slots, and the pages behind it. -/
structure Laid (bits : Nat) (held : List Held) (words : List Nat) : Prop where
  size : words[0]? = some bits
  table : 1 + 3 * 2 ^ bits ≤ words.length
  filled : ∀ h ∈ held, slotAt words h.slot = some h.entry
  empty : ∀ slot < 2 ^ bits, (∀ h ∈ held, h.slot ≠ slot) → slotAt words slot = some (0, 0, 0)
  behind : ∀ h ∈ held, 1 + 3 * 2 ^ bits ≤ h.start
  pages : ∀ h ∈ held, pageAt words h.start = some h.words

theorem length_resize (words : List Nat) : (resize words).length = PAGE_WORDS := by
  unfold resize
  rw [List.length_append, List.length_take, List.length_replicate]
  omega

theorem length_setSlot (words : List Nat) (slot number start : Nat) :
    (setSlot words slot number start).length = words.length := by
  simp [setSlot]

theorem getElem?_setSlot (words : List Nat) (slot number start i : Nat) :
    (setSlot words slot number start)[i]? =
      if 3 + 3 * slot = i then (if i < words.length then some start else none)
      else if 2 + 3 * slot = i then
        (if i < words.length then some (u32 (number / 2 ^ 32)) else none)
      else if 1 + 3 * slot = i then (if i < words.length then some (u32 number) else none)
      else words[i]? := by
  unfold setSlot
  simp only [List.getElem?_set, List.length_set]
  split_ifs <;> first | rfl | omega

theorem slotAt_setSlot {words : List Nat} {bits slot : Nat} (number start : Nat) (more : List Nat)
    (htable : 1 + 3 * 2 ^ bits ≤ words.length) (hslot : slot < 2 ^ bits) :
    slotAt (setSlot words slot number start ++ more) slot =
      some (u32 number, u32 (number / 2 ^ 32), start) := by
  have hlength := length_setSlot words slot number start
  have hlow : (setSlot words slot number start)[1 + 3 * slot]? = some (u32 number) := by
    rw [getElem?_setSlot, if_neg (by omega), if_neg (by omega), if_pos rfl, if_pos (by omega)]
  have hhigh : (setSlot words slot number start)[2 + 3 * slot]? =
      some (u32 (number / 2 ^ 32)) := by
    rw [getElem?_setSlot, if_neg (by omega), if_pos rfl, if_pos (by omega)]
  have hstart : (setSlot words slot number start)[3 + 3 * slot]? = some start := by
    rw [getElem?_setSlot, if_pos rfl, if_pos (by omega)]
  unfold slotAt
  rw [List.getElem?_append_left (by omega), List.getElem?_append_left (by omega),
    List.getElem?_append_left (by omega), hlow, hhigh, hstart]

theorem getElem?_setSlot_of_ne {words : List Nat} {slot i : Nat} (number start : Nat)
    (h : i < 1 + 3 * slot ∨ 3 + 3 * slot < i) :
    (setSlot words slot number start)[i]? = words[i]? := by
  rw [getElem?_setSlot, if_neg (by omega), if_neg (by omega), if_neg (by omega)]

theorem slotAt_setSlot_of_ne {words : List Nat} {bits slot other : Nat} (number start : Nat)
    (more : List Nat) (htable : 1 + 3 * 2 ^ bits ≤ words.length) (hother : other < 2 ^ bits)
    (hne : slot ≠ other) :
    slotAt (setSlot words slot number start ++ more) other = slotAt words other := by
  have hlength := length_setSlot words slot number start
  unfold slotAt
  rw [List.getElem?_append_left (by omega), List.getElem?_append_left (by omega),
    List.getElem?_append_left (by omega), getElem?_setSlot_of_ne _ _ (by omega),
    getElem?_setSlot_of_ne _ _ (by omega), getElem?_setSlot_of_ne _ _ (by omega)]

theorem pageAt_some {words page : List Nat} {start : Nat} :
    pageAt words start = some page ↔ page.length = PAGE_WORDS ∧
      start + PAGE_WORDS ≤ words.length ∧ ∀ k < PAGE_WORDS, words[start + k]? = page[k]? := by
  unfold pageAt
  constructor
  · intro h
    split at h
    · next hfits =>
      cases h
      refine ⟨?_, hfits, fun k hk => ?_⟩
      · rw [List.length_take, List.length_drop]
        omega
      · rw [List.getElem?_take, if_pos hk, List.getElem?_drop]
    · cases h
  · rintro ⟨hlength, hfits, hwords⟩
    rw [if_pos hfits]
    congr 1
    apply List.ext_getElem?
    intro k
    by_cases hk : k < PAGE_WORDS
    · rw [List.getElem?_take, if_pos hk, List.getElem?_drop, hwords k hk]
    · rw [List.getElem?_take, if_neg hk, List.getElem?_eq_none (by omega)]

theorem pageAt_setSlot {words : List Nat} {bits slot start : Nat} (number new : Nat)
    (more : List Nat) {page : List Nat} (hslot : slot < 2 ^ bits)
    (hstart : 1 + 3 * 2 ^ bits ≤ start) (hpage : pageAt words start = some page) :
    pageAt (setSlot words slot number new ++ more) start = some page := by
  obtain ⟨hlength, hfits, hwords⟩ := pageAt_some.mp hpage
  have hset := length_setSlot words slot number new
  apply pageAt_some.mpr
  refine ⟨hlength, ?_, fun k hk => ?_⟩
  · rw [List.length_append, hset]
    omega
  · rw [List.getElem?_append_left (by omega), getElem?_setSlot_of_ne _ _ (by omega), hwords k hk]

theorem Laid.hold {bits : Nat} {held : List Held} {words : List Nat} (h : Laid bits held words)
    (page : Nat) {slot : Nat} (hslot : slot < 2 ^ bits) (hfree : ∀ g ∈ held, g.slot ≠ slot)
    (hin : ∀ g ∈ held, g.slot < 2 ^ bits) (content : List Nat) :
    Laid bits (held ++ [⟨page, slot, words.length, resize content⟩])
      (setSlot words slot (page / PAGE) words.length ++ resize content) := by
  have htable := h.table
  have hset := length_setSlot words slot (page / PAGE) words.length
  constructor
  · rw [List.getElem?_append_left (by omega), getElem?_setSlot_of_ne _ _ (by omega)]
    exact h.size
  · rw [List.length_append]
    omega
  · intro g hg
    rcases List.mem_append.mp hg with hg | hg
    · rw [slotAt_setSlot_of_ne _ _ _ htable (hin g hg) (hfree g hg).symm]
      exact h.filled g hg
    · rw [List.mem_singleton.mp hg]
      exact slotAt_setSlot _ _ _ htable hslot
  · intro other hother hnone
    have hne : slot ≠ other := hnone _ (List.mem_append_right _ List.mem_cons_self)
    rw [slotAt_setSlot_of_ne _ _ _ htable hother hne]
    exact h.empty other hother (fun g hg => hnone g (List.mem_append_left _ hg))
  · intro g hg
    rcases List.mem_append.mp hg with hg | hg
    · exact h.behind g hg
    · rw [List.mem_singleton.mp hg]
      exact htable
  · intro g hg
    rcases List.mem_append.mp hg with hg | hg
    · exact pageAt_setSlot _ _ _ hslot (h.behind g hg) (h.pages g hg)
    · rw [List.mem_singleton.mp hg]
      change pageAt _ words.length = some (resize content)
      apply pageAt_some.mpr
      refine ⟨length_resize content, ?_, fun k hk => ?_⟩
      · rw [List.length_append, hset, length_resize]
      · rw [List.getElem?_append_right (by omega), hset, Nat.add_sub_cancel_left]

/-- The pages that go into the buffer when it has so many words already. -/
def heldLoop (read : Nat → Option (List Nat)) : List (Nat × Nat) → Nat → List Held
  | [], _ => []
  | (page, slot) :: rest, length =>
      match read page with
      | none => heldLoop read rest length
      | some content =>
          if length ≤ u32Max then
            ⟨page, slot, length, resize content⟩ :: heldLoop read rest (length + PAGE_WORDS)
          else heldLoop read rest length

theorem heldLoop_mem {read : Nat → Option (List Nat)} {rest : List (Nat × Nat)} {length : Nat}
    {h : Held} (hh : h ∈ heldLoop read rest length) :
    (h.page, h.slot) ∈ rest ∧ ∃ content, read h.page = some content ∧ h.words = resize content := by
  induction rest generalizing length with
  | nil => cases hh
  | cons e rest ih =>
      obtain ⟨page, slot⟩ := e
      have hlater : ∀ {length}, h ∈ heldLoop read rest length →
          (h.page, h.slot) ∈ (page, slot) :: rest ∧
            ∃ content, read h.page = some content ∧ h.words = resize content := by
        intro length hmem
        obtain ⟨hin, hcontent⟩ := ih hmem
        exact ⟨List.mem_cons_of_mem _ hin, hcontent⟩
      unfold heldLoop at hh
      split at hh
      · exact hlater hh
      · next content hread =>
        split at hh
        · rcases List.mem_cons.mp hh with rfl | hh
          · exact ⟨List.mem_cons_self, content, hread, rfl⟩
          · exact hlater hh
        · exact hlater hh

/-- What the loop leaves holds the pages there were and those it puts in. -/
theorem fill_laid {bits : Nat} (read : Nat → Option (List Nat)) {rest : List (Nat × Nat)}
    {held : List Held} {words : List Nat} (h : Laid bits held words)
    (hin : ∀ g ∈ held, g.slot < 2 ^ bits) (hslots : ∀ e ∈ rest, e.2 < 2 ^ bits)
    (hfree : ∀ g ∈ held, ∀ e ∈ rest, g.slot ≠ e.2)
    (hdistinct : rest.Pairwise (fun d e => d.2 ≠ e.2)) :
    Laid bits (held ++ heldLoop read rest words.length) (fill read rest words) := by
  induction rest generalizing held words with
  | nil =>
      rw [heldLoop, List.append_nil]
      exact h
  | cons e rest ih =>
      obtain ⟨page, slot⟩ := e
      obtain ⟨hfirst, hlater⟩ := List.pairwise_cons.mp hdistinct
      have hslots' : ∀ e ∈ rest, e.2 < 2 ^ bits := fun e he => hslots e (List.mem_cons_of_mem _ he)
      have hfree' : ∀ g ∈ held, ∀ e ∈ rest, g.slot ≠ e.2 := fun g hg e he =>
        hfree g hg e (List.mem_cons_of_mem _ he)
      have hslot : slot < 2 ^ bits := hslots _ List.mem_cons_self
      unfold heldLoop fill
      cases hread : read page with
      | none => exact ih h hin hslots' hfree' hlater
      | some content =>
          dsimp only
          by_cases hfits : words.length ≤ u32Max
          · rw [if_pos hfits, if_pos hfits]
            have hnew := h.hold page hslot
              (fun g hg => hfree g hg _ List.mem_cons_self) hin content
            have hlength : (setSlot words slot (page / PAGE) words.length ++ resize content).length =
                words.length + PAGE_WORDS := by
              rw [List.length_append, length_setSlot, length_resize]
            have hrest := ih hnew ?_ hslots' ?_ hlater
            · rw [hlength, List.append_assoc, List.singleton_append] at hrest
              exact hrest
            · intro g hg
              rcases List.mem_append.mp hg with hg | hg
              · exact hin g hg
              · rw [List.mem_singleton.mp hg]
                exact hslot
            · intro g hg e he
              rcases List.mem_append.mp hg with hg | hg
              · exact hfree' g hg e he
              · rw [List.mem_singleton.mp hg]
                exact hfirst e he
          · rw [if_neg hfits, if_neg hfits]
            exact ih h hin hslots' hfree' hlater

/-- Before any page is put in. -/
theorem laid_nil (bits : Nat) : Laid bits [] (bits :: List.replicate (3 * 2 ^ bits) 0) := by
  constructor
  · rfl
  · simp [Nat.add_comm]
  · intro h hh
    cases hh
  · intro slot hslot _
    unfold slotAt
    have hzero : ∀ i < 3 * 2 ^ bits, (bits :: List.replicate (3 * 2 ^ bits) 0)[i + 1]? = some 0 := by
      intro i hi
      rw [List.getElem?_cons_succ, List.getElem?_replicate, if_pos hi]
    rw [show 1 + 3 * slot = 3 * slot + 1 by omega, show 2 + 3 * slot = 3 * slot + 1 + 1 by omega,
      show 3 + 3 * slot = 3 * slot + 2 + 1 by omega, hzero _ (by omega), hzero _ (by omega),
      hzero _ (by omega)]
  · intro h hh
    cases hh
  · intro h hh
    cases hh

/-- A page is held: it is one of the pages, it can be read, and its words start where a table
entry can say. -/
def Pages.Holds (p : Pages) (read : Nat → Option (List Nat)) (page : Nat) (content : List Nat) :
    Prop :=
  page ∈ p.pages ∧ read page = some content ∧ ∃ bits, p.tableBits = some bits ∧
    1 + 3 * 2 ^ bits +
      PAGE_WORDS * (p.pages.takeWhile (· != page)).countP (fun q => (read q).isSome) ≤ u32Max

theorem exists_held_iff {read : Nat → Option (List Nat)} {pages slots : List Nat} {length : Nat}
    (hlength : slots.length = pages.length) (hdistinct : pages.Nodup) {page : Nat} :
    (∃ h ∈ heldLoop read (pages.zip slots) length, h.page = page) ↔
      page ∈ pages ∧ (read page).isSome = true ∧
        length + PAGE_WORDS * (pages.takeWhile (· != page)).countP (fun q => (read q).isSome) ≤
          u32Max := by
  induction pages generalizing slots length with
  | nil => simp [heldLoop]
  | cons first pages ih =>
      obtain ⟨slot, slots, rfl⟩ : ∃ slot later, slots = slot :: later := by
        cases slots with
        | nil => cases hlength
        | cons slot slots => exact ⟨slot, slots, rfl⟩
      obtain ⟨hfirst, hpages⟩ := List.nodup_cons.mp hdistinct
      have hlength' : slots.length = pages.length := by simpa using hlength
      rw [List.zip_cons_cons]
      unfold heldLoop
      by_cases heq : first = page
      · subst heq
        have hnone : ∀ length, ¬ ∃ h ∈ heldLoop read (pages.zip slots) length, h.page = first := by
          rintro length ⟨h, hmem, hpage⟩
          obtain ⟨hin, -⟩ := heldLoop_mem hmem
          rw [hpage] at hin
          exact hfirst (List.of_mem_zip hin).1
        cases hread : read first with
        | none =>
            simp only [Option.isSome_none, Bool.false_eq_true, false_and, and_false, iff_false]
            exact hnone length
        | some content =>
            dsimp only
            by_cases hfits : length ≤ u32Max
            · rw [if_pos hfits]
              simp [hfits]
            · rw [if_neg hfits]
              simp only [List.mem_cons_self, Option.isSome_some, true_and]
              have hover : ¬ length + PAGE_WORDS *
                  ((first :: pages).takeWhile (· != first)).countP (fun q => (read q).isSome) ≤
                    u32Max := by omega
              exact iff_of_false (hnone length) hover
      · have hwhile : (first :: pages).takeWhile (· != page) =
            first :: pages.takeWhile (· != page) := by
          rw [List.takeWhile_cons, if_pos (by simpa using heq)]
        have hmem : page ∈ first :: pages ↔ page ∈ pages := by
          rw [List.mem_cons]
          exact or_iff_right (fun h => heq h.symm)
        rw [hwhile, hmem]
        cases hread : read first with
        | none =>
            rw [List.countP_cons_of_neg (by simp [hread])]
            exact ih hlength' hpages
        | some content =>
            rw [List.countP_cons_of_pos (by simp [hread]), Nat.mul_add, Nat.mul_one]
            dsimp only
            by_cases hfits : length ≤ u32Max
            · rw [if_pos hfits]
              have hrest : (∃ h ∈ heldLoop read (pages.zip slots) (length + PAGE_WORDS),
                  h.page = page) ↔ _ := ih hlength' hpages
              rw [show ∀ n, length + (PAGE_WORDS * n + PAGE_WORDS) =
                length + PAGE_WORDS + PAGE_WORDS * n by intro n; omega, ← hrest]
              simp [heq]
            · rw [if_neg hfits, ih hlength' hpages]
              constructor
              · rintro ⟨-, -, hle⟩
                omega
              · rintro ⟨-, -, hle⟩
                omega

theorem heldLoop_pages (read : Nat → Option (List Nat)) (rest : List (Nat × Nat)) (length : Nat) :
    ((heldLoop read rest length).map Held.page).Sublist (rest.map Prod.fst) := by
  induction rest generalizing length with
  | nil => exact List.Sublist.refl _
  | cons e rest ih =>
      unfold heldLoop
      split
      · exact (ih length).cons _
      · split
        · exact (ih _).cons_cons _
        · exact (ih length).cons _

theorem Pages.nodup (p : Pages) : p.pages.Nodup := p.ascending.imp (fun h => Nat.ne_of_lt h)

/-- The buffer of pages a table was found for: the pages held, each once, in its own slot or
one its lookup comes to. -/
structure Buffered (p : Pages) (read : Nat → Option (List Nat)) (bits : Nat) (held : List Held) :
    Prop where
  laid : Laid bits held (p.bufferWords read)
  holds : ∀ page content, p.Holds read page content ↔
    ∃ h ∈ held, h.page = page ∧ read page = some content
  content : ∀ h ∈ held, ∃ content, read h.page = some content ∧ h.words = resize content
  page : ∀ h ∈ held, h.page ∈ p.pages
  probed : ∀ h ∈ held, h.slot ∈ probes (h.page / PAGE) bits
  once : (held.map Held.page).Nodup

theorem exists_buffered {p : Pages} {bits : Nat} (hbits : p.tableBits = some bits)
    (read : Nat → Option (List Nat)) : ∃ held, Buffered p read bits held := by
  have hfound : (p.placed bits).isSome = true := by
    unfold Pages.tableBits at hbits
    have hsome := List.find?_some hbits
    exact hsome
  obtain ⟨slots, hslots⟩ := Option.isSome_iff_exists.mp hfound
  have hplaced := placedLoop_placed hslots
  have hwords : p.bufferWords read =
      fill read (p.pages.zip slots) (bits :: List.replicate (3 * 2 ^ bits) 0) := by
    unfold Pages.bufferWords
    rw [hbits]
    dsimp only
    rw [hslots]
  have hlength : (bits :: List.replicate (3 * 2 ^ bits) 0).length = 1 + 3 * 2 ^ bits := by
    simp [Nat.add_comm]
  have hdistinct : (p.pages.zip slots).Pairwise (fun d e => d.2 ≠ e.2) := by
    have hsnd : (p.pages.zip slots).map Prod.snd = slots :=
      List.map_snd_zip (Nat.le_of_eq hplaced.length)
    have hnodup := hplaced.distinct
    rw [← hsnd] at hnodup
    exact List.pairwise_map.mp hnodup
  have hlaid := fill_laid read (laid_nil bits) (by simp)
    (fun e he => lt_of_mem_probes (hplaced.probed e he)) (by simp) hdistinct
  rw [List.nil_append, hlength] at hlaid
  refine ⟨heldLoop read (p.pages.zip slots) (1 + 3 * 2 ^ bits), ?_, ?_, ?_, ?_, ?_, ?_⟩
  · rw [hwords]
    exact hlaid
  · intro page content
    have hexists : (∃ h ∈ heldLoop read (p.pages.zip slots) (1 + 3 * 2 ^ bits), h.page = page) ↔ _ :=
      exists_held_iff hplaced.length p.nodup
    constructor
    · rintro ⟨hmem, hread, bits', hbits', hfits⟩
      rw [hbits] at hbits'
      cases hbits'
      obtain ⟨h, hh, hpage⟩ := hexists.mpr ⟨hmem, by simp [hread], hfits⟩
      exact ⟨h, hh, hpage, hread⟩
    · rintro ⟨h, hh, hpage, hread⟩
      obtain ⟨hmem, -, hfits⟩ := hexists.mp ⟨h, hh, hpage⟩
      exact ⟨hmem, hread, bits, hbits, hfits⟩
  · intro h hh
    exact (heldLoop_mem hh).2
  · intro h hh
    exact (List.of_mem_zip (heldLoop_mem hh).1).1
  · intro h hh
    have hprobed := hplaced.probed (h.page, h.slot) (heldLoop_mem hh).1
    dsimp only at hprobed
    exact hprobed
  · apply List.Nodup.sublist (heldLoop_pages read (p.pages.zip slots) (1 + 3 * 2 ^ bits))
    rw [List.map_fst_zip (Nat.le_of_eq hplaced.length.symm)]
    exact p.nodup

/-! ## Looking an address up -/

/-- The two halves of a number tell it from every other. -/
theorem eq_of_halves {m n : Nat} (hm : m < 2 ^ 64) (hn : n < 2 ^ 64) (hlow : u32 m = u32 n)
    (hhigh : u32 (m / 2 ^ 32) = u32 (n / 2 ^ 32)) : m = n := by
  unfold u32 at hlow hhigh
  omega

def answers (words : List Nat) (address slot : Nat) : Option Nat :=
  match slotAt words slot with
  | none => none
  | some (low, high, start) =>
      if start ≠ 0 ∧ low = u32 (address / PAGE) ∧ high = u32 (address / PAGE / 2 ^ 32) then
        some (start + address % PAGE / 4)
      else none

section

variable {p : Pages} {read : Nat → Option (List Nat)} {bits : Nat} {held : List Held}

theorem Buffered.number_lt (b : Buffered p read bits held) {h : Held} (hh : h ∈ held) :
    h.page / PAGE < 2 ^ 64 := by
  have hlt := (p.whole h.page (b.page h hh)).2
  exact Nat.lt_of_le_of_lt (Nat.div_le_self _ _) hlt

theorem Buffered.lookup_eq (b : Buffered p read bits held) (address : Nat) :
    lookup (p.bufferWords read) address =
      (probes (address / PAGE) bits).findSome? (answers (p.bufferWords read) address) := by
  unfold lookup
  rw [b.laid.size]
  rfl

theorem Buffered.answers_own (b : Buffered p read bits held) {h : Held} (hh : h ∈ held)
    {address : Nat} (hpage : h.page / PAGE = address / PAGE) :
    answers (p.bufferWords read) address h.slot = some (h.start + address % PAGE / 4) := by
  unfold answers
  rw [b.laid.filled h hh]
  have hstart := b.laid.behind h hh
  unfold Held.entry
  rw [hpage]
  exact if_pos ⟨by omega, rfl, rfl⟩

theorem Buffered.of_answers (b : Buffered p read bits held) {address slot i : Nat}
    (hlt : address < 2 ^ 64) (hslot : slot < 2 ^ bits)
    (h : answers (p.bufferWords read) address slot = some i) :
    ∃ g ∈ held, g.page / PAGE = address / PAGE ∧ i = g.start + address % PAGE / 4 := by
  have hnumber : address / PAGE < 2 ^ 64 := Nat.lt_of_le_of_lt (Nat.div_le_self _ _) hlt
  unfold answers at h
  by_cases hheld : ∃ g ∈ held, g.slot = slot
  · obtain ⟨g, hg, rfl⟩ := hheld
    rw [b.laid.filled g hg] at h
    unfold Held.entry at h
    dsimp only at h
    split at h
    · next hmatch =>
      cases h
      exact ⟨g, hg, eq_of_halves (b.number_lt hg) hnumber hmatch.2.1 hmatch.2.2, rfl⟩
    · cases h
  · have hempty := b.laid.empty slot hslot (fun g hg heq => hheld ⟨g, hg, heq⟩)
    rw [hempty] at h
    simp at h

theorem page_eq_of_number (p : Pages) {page address : Nat} (hpage : page ∈ p.pages) :
    page / PAGE = address / PAGE ↔ page = address / PAGE * PAGE := by
  obtain ⟨number, rfl⟩ := (p.whole page hpage).1
  have hpos : 0 < PAGE := by decide
  rw [Nat.mul_div_cancel_left _ hpos, Nat.mul_comm]
  constructor
  · intro h
    rw [h]
  · intro h
    exact Nat.eq_of_mul_eq_mul_right hpos h

theorem Buffered.lookup_held (b : Buffered p read bits held) {h : Held} (hh : h ∈ held)
    {address : Nat} (hlt : address < 2 ^ 64) (hpage : h.page = address / PAGE * PAGE) :
    lookup (p.bufferWords read) address = some (h.start + address % PAGE / 4) := by
  have hnumber := (page_eq_of_number p (b.page h hh)).mpr hpage
  have hown := b.answers_own hh hnumber
  have hprobe := b.probed h hh
  rw [hnumber] at hprobe
  rw [b.lookup_eq]
  cases hfound : (probes (address / PAGE) bits).findSome? (answers (p.bufferWords read) address) with
  | none =>
      have hnone := List.findSome?_eq_none_iff.mp hfound h.slot hprobe
      rw [hown] at hnone
      cases hnone
  | some i =>
      obtain ⟨slot, hslot, hanswer⟩ := List.exists_of_findSome?_eq_some hfound
      obtain ⟨g, hg, hsame, hi⟩ := b.of_answers hlt (lt_of_mem_probes hslot) hanswer
      have hgpage := (page_eq_of_number p (b.page g hg)).mp hsame
      have heq : g = h := List.inj_on_of_nodup_map b.once hg hh (hgpage.trans hpage.symm)
      rw [hi, heq]

theorem Buffered.of_lookup (b : Buffered p read bits held) {address i : Nat} (hlt : address < 2 ^ 64)
    (h : lookup (p.bufferWords read) address = some i) :
    ∃ g ∈ held, g.page = address / PAGE * PAGE ∧ i = g.start + address % PAGE / 4 := by
  rw [b.lookup_eq] at h
  obtain ⟨slot, hslot, hanswer⟩ := List.exists_of_findSome?_eq_some h
  obtain ⟨g, hg, hsame, hi⟩ := b.of_answers hlt (lt_of_mem_probes hslot) hanswer
  exact ⟨g, hg, (page_eq_of_number p (b.page g hg)).mp hsame, hi⟩

end

/-! ## The runs that changed -/

/-- Two runs share no byte. -/
def Apart (r s : Nat × List Nat) : Prop :=
  r.1 + 4 * r.2.length ≤ s.1 ∨ s.1 + 4 * s.2.length ≤ r.1

/-- The runs of a stretch of words: one behind another inside it, none empty, and holding a
word for each that differs and for no other. -/
structure RunsOf (address : Nat) (words : List (Nat × Nat)) (runs : List (Nat × List Nat)) :
    Prop where
  inside : ∀ r ∈ runs, r.2 ≠ [] ∧ address ≤ r.1 ∧
    r.1 + 4 * r.2.length ≤ address + 4 * words.length
  ordered : runs.Pairwise (fun r s => r.1 + 4 * r.2.length ≤ s.1)
  changed : ∀ k was now, words[k]? = some (was, now) → was ≠ now →
    ∃ r ∈ runs, ∃ i, r.1 + 4 * i = address + 4 * k ∧ r.2[i]? = some now
  kept : ∀ k was, words[k]? = some (was, was) → ∀ r ∈ runs,
    address + 4 * k + 4 ≤ r.1 ∨ r.1 + 4 * r.2.length ≤ address + 4 * k

theorem pageRuns_runsOf (address : Nat) (words : List (Nat × Nat)) :
    RunsOf address words (pageRuns address words) := by
  fun_induction pageRuns address words with
  | case1 address =>
      exact ⟨by simp, List.Pairwise.nil, by simp, by simp⟩
  | case2 address was rest ih =>
      constructor
      · intro r hr
        obtain ⟨hne, hlow, hhigh⟩ := ih.inside r hr
        rw [List.length_cons]
        exact ⟨hne, by omega, by omega⟩
      · exact ih.ordered
      · intro k was' now' hk hdiffer
        cases k with
        | zero =>
            cases hk
            exact absurd rfl hdiffer
        | succ k =>
            obtain ⟨r, hr, i, hat, hget⟩ := ih.changed k was' now' hk hdiffer
            exact ⟨r, hr, i, by omega, hget⟩
      · intro k was' hk r hr
        cases k with
        | zero =>
            have hlow := (ih.inside r hr).2.1
            exact Or.inl (by omega)
        | succ k =>
            have hkept := ih.kept k was' hk r hr
            omega
  | case3 address was now rest hdiffer run ih =>
      have hsplit : run ++ rest.dropWhile (fun w => w.1 != w.2) = rest := List.takeWhile_append_dropWhile
      have hlength : run.length + (rest.dropWhile (fun w => w.1 != w.2)).length = rest.length := by
        rw [← List.length_append, hsplit]
      constructor
      · intro r hr
        rcases List.mem_cons.mp hr with rfl | hr
        · simp only [List.length_cons, List.length_map]
          exact ⟨by simp, Nat.le_refl _, by omega⟩
        · obtain ⟨hne, hlow, hhigh⟩ := ih.inside r hr
          rw [List.length_cons]
          exact ⟨hne, by omega, by omega⟩
      · apply List.Pairwise.cons _ ih.ordered
        intro s hs
        have hlow := (ih.inside s hs).2.1
        simp only [List.length_cons, List.length_map]
        omega
      · intro k was' now' hk hdiffer'
        cases k with
        | zero =>
            cases hk
            exact ⟨_, List.mem_cons_self, 0, rfl, rfl⟩
        | succ k =>
            rw [List.getElem?_cons_succ, ← hsplit] at hk
            by_cases hin : k < run.length
            · rw [List.getElem?_append_left hin] at hk
              refine ⟨_, List.mem_cons_self, k + 1, rfl, ?_⟩
              rw [List.getElem?_cons_succ, List.getElem?_map, hk]
              rfl
            · rw [List.getElem?_append_right (Nat.le_of_not_lt hin)] at hk
              obtain ⟨r, hr, i, hat, hget⟩ := ih.changed _ was' now' hk hdiffer'
              exact ⟨r, List.mem_cons_of_mem _ hr, i, by omega, hget⟩
      · intro k was' hk r hr
        cases k with
        | zero =>
            cases hk
            exact absurd rfl hdiffer
        | succ k =>
            rw [List.getElem?_cons_succ, ← hsplit] at hk
            by_cases hin : k < run.length
            · rw [List.getElem?_append_left hin] at hk
              have hmem : (was', was') ∈ run := List.mem_of_getElem? hk
              have hsame := List.mem_takeWhile_imp hmem
              simp at hsame
            · rw [List.getElem?_append_right (Nat.le_of_not_lt hin)] at hk
              rcases List.mem_cons.mp hr with rfl | hr
              · simp only [List.length_cons, List.length_map]
                exact Or.inr (by omega)
              · have hkept := ih.kept _ was' hk r hr
                omega

/-- A slot of the largest table holds a number below the bound of words. -/
theorem number_of_halves {n : Nat} (hn : n < 2 ^ 64) : u32 (n / 2 ^ 32) * 2 ^ 32 ||| u32 n = n := by
  have hlow : u32 n < 2 ^ 32 := Nat.mod_lt _ (by decide)
  rw [Nat.mul_comm, ← Nat.two_pow_add_eq_or_of_lt hlow]
  unfold u32
  omega

theorem tableBits_le {p : Pages} {bits : Nat} (h : p.tableBits = some bits) :
    bits ≤ MOST_TABLE_BITS := by
  unfold Pages.tableBits at h
  have hmem := List.mem_of_find?_eq_some h
  obtain ⟨i, hi, rfl⟩ := List.mem_range'.mp hmem
  omega

/-- The words of a held page in another buffer of the same length. -/
def Held.now (after : List Nat) (h : Held) : List Nat := (after.drop h.start).take PAGE_WORDS

section

variable {p : Pages} {read : Nat → Option (List Nat)} {bits : Nat} {held : List Held}

theorem Buffered.slotRuns_held (b : Buffered p read bits held) {after : List Nat}
    (hlength : after.length = (p.bufferWords read).length) {h : Held} (hh : h ∈ held) :
    slotRuns (p.bufferWords read) after h.slot = pageRuns h.page (h.words.zip (h.now after)) := by
  have hstart := b.laid.behind h hh
  have hpage := b.laid.pages h hh
  obtain ⟨-, hfits, -⟩ := pageAt_some.mp hpage
  have hnow : pageAt after h.start = some (h.now after) := if_pos (by omega)
  have hnumber : (u32 (h.page / PAGE / 2 ^ 32) * 2 ^ 32 ||| u32 (h.page / PAGE)) * PAGE = h.page := by
    rw [number_of_halves (b.number_lt hh)]
    exact Nat.div_mul_cancel (p.whole h.page (b.page h hh)).1
  have hfilter : (pageAt (p.bufferWords read) h.start).filter (fun _ => h.start ≠ 0) =
      some h.words := by
    rw [hpage]
    exact if_pos (by simp; omega)
  unfold slotRuns
  rw [b.laid.filled h hh]
  unfold Held.entry
  dsimp only
  rw [hfilter, hnow, hnumber]

theorem Buffered.slotRuns_empty (b : Buffered p read bits held) (after : List Nat) {slot : Nat}
    (hslot : slot < 2 ^ bits) (hnone : ∀ h ∈ held, h.slot ≠ slot) :
    slotRuns (p.bufferWords read) after slot = [] := by
  unfold slotRuns
  rw [b.laid.empty slot hslot hnone]
  dsimp only
  have hfilter : (pageAt (p.bufferWords read) 0).filter (fun _ => decide ((0 : Nat) ≠ 0)) = none := by
    simp
  rw [hfilter]

theorem Buffered.mem_changedRuns (b : Buffered p read bits held) (hbits : bits ≤ MOST_TABLE_BITS)
    {after : List Nat} (hlength : after.length = (p.bufferWords read).length)
    {r : Nat × List Nat} :
    r ∈ changedRuns (p.bufferWords read) after ↔
      ∃ h ∈ held, r ∈ pageRuns h.page (h.words.zip (h.now after)) := by
  have hhead : (p.bufferWords read).head? = some bits := by
    rw [List.head?_eq_getElem?]
    exact b.laid.size
  unfold changedRuns
  rw [List.mem_mergeSort, hhead]
  simp only [Option.map_some, Option.getD_some, Nat.min_eq_left hbits, List.mem_flatMap,
    List.mem_range]
  constructor
  · rintro ⟨slot, hslot, hr⟩
    by_cases hheld : ∃ h ∈ held, h.slot = slot
    · obtain ⟨h, hh, rfl⟩ := hheld
      rw [b.slotRuns_held hlength hh] at hr
      exact ⟨h, hh, hr⟩
    · rw [b.slotRuns_empty after hslot (fun h hh heq => hheld ⟨h, hh, heq⟩)] at hr
      cases hr
  · rintro ⟨h, hh, hr⟩
    refine ⟨h.slot, lt_of_mem_probes (b.probed h hh), ?_⟩
    rw [b.slotRuns_held hlength hh]
    exact hr

theorem Buffered.length_zip (b : Buffered p read bits held) {after : List Nat}
    (hlength : after.length = (p.bufferWords read).length) {h : Held} (hh : h ∈ held) :
    (h.words.zip (h.now after)).length = PAGE_WORDS := by
  obtain ⟨hwords, hfits, -⟩ := pageAt_some.mp (b.laid.pages h hh)
  unfold Held.now
  rw [List.length_zip, List.length_take, List.length_drop, hwords]
  omega

theorem Buffered.run_inside (b : Buffered p read bits held) {after : List Nat}
    (hlength : after.length = (p.bufferWords read).length) {h : Held} (hh : h ∈ held)
    {r : Nat × List Nat} (hr : r ∈ pageRuns h.page (h.words.zip (h.now after))) :
    r.2 ≠ [] ∧ h.page ≤ r.1 ∧ r.1 + 4 * r.2.length ≤ h.page + PAGE := by
  obtain ⟨hne, hlow, hhigh⟩ := (pageRuns_runsOf h.page (h.words.zip (h.now after))).inside r hr
  rw [b.length_zip hlength hh] at hhigh
  have hpage : 4 * PAGE_WORDS = PAGE := by decide
  exact ⟨hne, hlow, by omega⟩

/-- Pages that are not the same share no byte. -/
theorem pages_apart (p : Pages) {page page' : Nat} (hpage : page ∈ p.pages) (hpage' : page' ∈ p.pages)
    (hne : page ≠ page') : page + PAGE ≤ page' ∨ page' + PAGE ≤ page := by
  obtain ⟨m, rfl⟩ := (p.whole page hpage).1
  obtain ⟨n, rfl⟩ := (p.whole page' hpage').1
  unfold PAGE at hne ⊢
  omega

theorem Buffered.runs_apart (b : Buffered p read bits held) (hbits : bits ≤ MOST_TABLE_BITS)
    {after : List Nat} (hlength : after.length = (p.bufferWords read).length) :
    (changedRuns (p.bufferWords read) after).Pairwise Apart := by
  have hhead : (p.bufferWords read).head? = some bits := by
    rw [List.head?_eq_getElem?]
    exact b.laid.size
  unfold changedRuns
  rw [hhead]
  simp only [Option.map_some, Option.getD_some, Nat.min_eq_left hbits]
  have hsymm : ∀ {r s : Nat × List Nat}, Apart r s → Apart s r := fun h => Or.symm h
  rw [List.Perm.pairwise_iff hsymm (List.mergeSort_perm _ _), List.pairwise_flatMap]
  constructor
  · intro slot hslot
    by_cases hheld : ∃ h ∈ held, h.slot = slot
    · obtain ⟨h, hh, rfl⟩ := hheld
      rw [b.slotRuns_held hlength hh]
      exact (pageRuns_runsOf h.page _).ordered.imp (fun hle => Or.inl hle)
    · rw [b.slotRuns_empty after (List.mem_range.mp hslot) (fun h hh heq => hheld ⟨h, hh, heq⟩)]
      exact List.Pairwise.nil
  · apply List.nodup_range.imp_of_mem
    intro slot slot' hslot hslot' hne r hr s hs
    by_cases hheld : ∃ h ∈ held, h.slot = slot
    · by_cases hheld' : ∃ h ∈ held, h.slot = slot'
      · obtain ⟨h, hh, rfl⟩ := hheld
        obtain ⟨g, hg, rfl⟩ := hheld'
        rw [b.slotRuns_held hlength hh] at hr
        rw [b.slotRuns_held hlength hg] at hs
        obtain ⟨-, hrlow, hrhigh⟩ := b.run_inside hlength hh hr
        obtain ⟨-, hslow, hshigh⟩ := b.run_inside hlength hg hs
        have hpages : h.page ≠ g.page := by
          intro heq
          have hsame : h = g := List.inj_on_of_nodup_map b.once hh hg heq
          exact hne (by rw [hsame])
        rcases pages_apart p (b.page h hh) (b.page g hg) hpages with hle | hle
        · exact Or.inl (by omega)
        · exact Or.inr (by omega)
      · rw [b.slotRuns_empty after (List.mem_range.mp hslot')
          (fun h hh heq => hheld' ⟨h, hh, heq⟩)] at hs
        cases hs
    · rw [b.slotRuns_empty after (List.mem_range.mp hslot)
        (fun h hh heq => hheld ⟨h, hh, heq⟩)] at hr
      cases hr

theorem Buffered.runs_ascending (b : Buffered p read bits held) (hbits : bits ≤ MOST_TABLE_BITS)
    {after : List Nat} (hlength : after.length = (p.bufferWords read).length) :
    (changedRuns (p.bufferWords read) after).Pairwise (fun r s => r.1 + 4 * r.2.length ≤ s.1) := by
  have hsorted : (changedRuns (p.bufferWords read) after).Pairwise (fun r s => r.1 ≤ s.1) := by
    have hmerge : (changedRuns (p.bufferWords read) after).Pairwise
        (fun r s => decide (r.1 ≤ s.1) = true) := by
      apply List.pairwise_mergeSort
      · intro r s t
        simp only [decide_eq_true_eq]
        omega
      · intro r s
        simp only [Bool.or_eq_true, decide_eq_true_eq]
        omega
    exact hmerge.imp (fun h => of_decide_eq_true h)
  apply (hsorted.and (b.runs_apart hbits hlength)).imp_of_mem
  intro r s _ hs hboth
  obtain ⟨hle, hapart⟩ := hboth
  obtain ⟨h, hh, hs⟩ := (b.mem_changedRuns hbits hlength).mp hs
  have hpos := List.length_pos_of_ne_nil (b.run_inside hlength hh hs).1
  unfold Apart at hapart
  omega

end

/-! ## Guest memory -/

def byteOf (word i : Nat) : Byte := ((toLeBytes 4 word)[i]?).getD 0

theorem length_wordBytes (word : Nat) : (toLeBytes 4 word).length = 4 := rfl

theorem length_runWrite (run : Nat × List Nat) :
    (runWrite run).values.length = 4 * run.2.length := by
  unfold runWrite
  rw [List.length_flatMap]
  simp only [length_wordBytes, List.map_const', List.sum_replicate, smul_eq_mul]
  exact Nat.mul_comm _ _

theorem getElem?_wordBytes (words : List Nat) (i j : Nat) (hj : j < 4) :
    (words.flatMap (toLeBytes 4))[4 * i + j]? = words[i]?.map (fun word => byteOf word j) := by
  induction words generalizing i with
  | nil => simp
  | cons word words ih =>
      rw [List.flatMap_cons]
      cases i with
      | zero =>
          rw [List.getElem?_append_left (by rw [length_wordBytes]; omega), List.getElem?_cons_zero,
            Nat.mul_zero, Nat.zero_add, List.getElem?_eq_getElem (by rw [length_wordBytes]; omega)]
          rw [Option.map_some]
          unfold byteOf
          rw [List.getElem?_eq_getElem (by rw [length_wordBytes]; omega)]
          rfl
      | succ i =>
          rw [List.getElem?_append_right (by rw [length_wordBytes]; omega), length_wordBytes,
            List.getElem?_cons_succ, ← ih i]
          congr 1
          omega

theorem at?_runWrite {run : Nat × List Nat} {address i word : Nat} (j : Nat)
    (hat : run.1 + 4 * i + j = address) (hj : j < 4) (hword : run.2[i]? = some word) :
    (runWrite run).at? address = some (byteOf word j) := by
  have hget : (runWrite run).values[4 * i + j]? = some (byteOf word j) := by
    unfold runWrite
    rw [getElem?_wordBytes _ _ _ hj, hword]
    rfl
  have hput := at?_eq_some hget
  rw [show (runWrite run).start + (4 * i + j) = address by
    rw [← hat, Nat.add_assoc]; rfl] at hput
  exact hput

/-- What the stores changed goes back: the runs are listed one behind another and each lies in
a page held; written to a memory that holds the pages as they were, they leave each page as it
is in the buffer after; and they reach no other page. -/
structure WritesBack (words after : List Nat) (holds : Nat → List Nat → Prop) : Prop where
  ascending : (changedRuns words after).Pairwise (fun r s => r.1 + 4 * r.2.length ≤ s.1)
  within : ∀ r ∈ changedRuns words after, r.2 ≠ [] ∧ ∃ page content, holds page content ∧
    page ≤ r.1 ∧ r.1 + 4 * r.2.length ≤ page + PAGE
  equal : ∀ memory : Nat → Byte,
    (∀ address < 2 ^ 64, ∀ i word, lookup words address = some i → words[i]? = some word →
      memory address = byteOf word (address % 4)) →
    ∀ address < 2 ^ 64, ∀ i word, lookup words address = some i → after[i]? = some word →
      apply memory ((changedRuns words after).map runWrite) address = byteOf word (address % 4)
  others : ∀ (memory : Nat → Byte) (address : Nat),
    (∀ content, ¬ holds (address / PAGE * PAGE) content) →
      apply memory ((changedRuns words after).map runWrite) address = memory address

/-- A buffer serves the pages held: an address of one is found at its word, an address of no
other is found, and what the stores changed goes back. -/
structure Serves (p : Pages) (read : Nat → Option (List Nat)) (holds : Nat → List Nat → Prop) :
    Prop where
  found : ∀ address < 2 ^ 64, ∀ content, holds (address / PAGE * PAGE) content →
    ∃ i, lookup (p.bufferWords read) address = some i ∧
      (p.bufferWords read)[i]? = (resize content)[address % PAGE / 4]?
  absent : ∀ address < 2 ^ 64, (∀ content, ¬ holds (address / PAGE * PAGE) content) →
    lookup (p.bufferWords read) address = none
  back : ∀ after : List Nat, after.length = (p.bufferWords read).length →
    WritesBack (p.bufferWords read) after holds

section

variable {p : Pages} {read : Nat → Option (List Nat)} {bits : Nat} {held : List Held}

theorem Buffered.getElem?_zip (b : Buffered p read bits held) {after : List Nat} {h : Held}
    (hh : h ∈ held) {k was now : Nat} (hk : k < PAGE_WORDS)
    (hwas : (p.bufferWords read)[h.start + k]? = some was) (hnow : after[h.start + k]? = some now) :
    (h.words.zip (h.now after))[k]? = some (was, now) := by
  obtain ⟨-, -, hwords⟩ := pageAt_some.mp (b.laid.pages h hh)
  have hfirst : h.words[k]? = some was := (hwords k hk).symm.trans hwas
  have hsecond : (h.now after)[k]? = some now := by
    unfold Held.now
    rw [List.getElem?_take, if_pos hk, List.getElem?_drop, hnow]
  rw [List.getElem?_zip_eq_some]
  exact ⟨hfirst, hsecond⟩

theorem Buffered.writes_apart (b : Buffered p read bits held) (hbits : bits ≤ MOST_TABLE_BITS)
    {after : List Nat} (hlength : after.length = (p.bufferWords read).length) :
    ((changedRuns (p.bufferWords read) after).map runWrite).Pairwise Write.Apart := by
  apply List.pairwise_map.mpr
  apply (b.runs_apart hbits hlength).imp
  intro r s hapart
  unfold Write.Apart
  rw [length_runWrite, length_runWrite]
  exact hapart

theorem apply_unreached {runs : List (Nat × List Nat)} {memory : Nat → Byte} {address : Nat}
    (h : ∀ r ∈ runs, address < r.1 ∨ r.1 + 4 * r.2.length ≤ address) :
    apply memory (runs.map runWrite) address = memory address := by
  rw [apply_eq, last?_eq_none]
  · rfl
  · intro w hw hreach
    obtain ⟨r, hr, rfl⟩ := List.mem_map.mp hw
    have hout := h r hr
    have hstart : (runWrite r).start = r.1 := rfl
    unfold Write.Reaches at hreach
    rw [length_runWrite, hstart] at hreach
    omega

theorem Buffered.apply_held (b : Buffered p read bits held) (hbits : bits ≤ MOST_TABLE_BITS)
    {after : List Nat} (hlength : after.length = (p.bufferWords read).length) {memory : Nat → Byte}
    {h : Held} (hh : h ∈ held) {address was now : Nat} (hpage : h.page = address / PAGE * PAGE)
    (hwas : (p.bufferWords read)[h.start + address % PAGE / 4]? = some was)
    (hmemory : memory address = byteOf was (address % 4))
    (hnow : after[h.start + address % PAGE / 4]? = some now) :
    apply memory ((changedRuns (p.bufferWords read) after).map runWrite) address =
      byteOf now (address % 4) := by
  have hrunsOf := pageRuns_runsOf h.page (h.words.zip (h.now after))
  have hk : address % PAGE / 4 < PAGE_WORDS := by
    unfold PAGE_WORDS PAGE
    omega
  have hzip := b.getElem?_zip hh hk hwas hnow
  have haddress : h.page + 4 * (address % PAGE / 4) + address % 4 = address := by
    rw [hpage]
    unfold PAGE
    omega
  by_cases hsame : was = now
  · -- an unchanged word is in no run of its page, and no run of another page comes here
    subst hsame
    rw [apply_unreached, hmemory]
    intro r hr
    obtain ⟨g, hg, hr⟩ := (b.mem_changedRuns hbits hlength).mp hr
    by_cases heq : g = h
    · subst heq
      have hkept := hrunsOf.kept _ was hzip r hr
      omega
    · have hpages : g.page ≠ h.page := fun hsame =>
        heq (List.inj_on_of_nodup_map b.once hg hh hsame)
      obtain ⟨-, hlow, hhigh⟩ := b.run_inside hlength hg hr
      have hapart := pages_apart p (b.page g hg) (b.page h hh) hpages
      have hoffset : address % PAGE < PAGE := Nat.mod_lt _ (by decide)
      have hfull : h.page + address % PAGE = address := by
        rw [hpage]
        exact Nat.div_add_mod' address PAGE
      omega
  · obtain ⟨r, hr, i, hat, hget⟩ := hrunsOf.changed _ was now hzip hsame
    have hplace : r.1 + 4 * i + address % 4 = address := by
      rw [hat]
      exact haddress
    have hput := at?_runWrite (address % 4) hplace (Nat.mod_lt _ (by decide)) hget
    have hmem : runWrite r ∈ (changedRuns (p.bufferWords read) after).map runWrite :=
      List.mem_map_of_mem ((b.mem_changedRuns hbits hlength).mpr ⟨h, hh, hr⟩)
    rw [apply_eq, last?_of_apart (b.writes_apart hbits hlength) hmem hput]
    rfl

end

/-- Whatever pages a table is found for and whatever can be read of them, the buffer serves
the pages whose words start where a table entry can say. -/
theorem buffer_serves (p : Pages) (read : Nat → Option (List Nat)) (bits : Nat)
    (hbits : p.tableBits = some bits) : Serves p read (p.Holds read) := by
  obtain ⟨held, b⟩ := exists_buffered hbits read
  have hle := tableBits_le hbits
  constructor
  · intro address hlt content hholds
    obtain ⟨h, hh, hpage, hread⟩ := (b.holds _ content).mp hholds
    refine ⟨_, b.lookup_held hh hlt hpage, ?_⟩
    obtain ⟨content', hread', hwords⟩ := b.content h hh
    rw [hpage, hread] at hread'
    cases hread'
    obtain ⟨-, -, hpages⟩ := pageAt_some.mp (b.laid.pages h hh)
    rw [hpages _ (by unfold PAGE_WORDS PAGE; omega), hwords]
  · intro address hlt hnone
    cases hfound : lookup (p.bufferWords read) address with
    | none => rfl
    | some i =>
        obtain ⟨g, hg, hpage, -⟩ := b.of_lookup hlt hfound
        obtain ⟨content, hread, -⟩ := b.content g hg
        exact absurd ((b.holds _ content).mpr ⟨g, hg, hpage, by rw [← hpage]; exact hread⟩)
          (hnone content)
  · intro after hlength
    constructor
    · exact b.runs_ascending hle hlength
    · intro r hr
      obtain ⟨h, hh, hr⟩ := (b.mem_changedRuns hle hlength).mp hr
      obtain ⟨hne, hlow, hhigh⟩ := b.run_inside hlength hh hr
      obtain ⟨content, hread, -⟩ := b.content h hh
      exact ⟨hne, h.page, content, (b.holds _ content).mpr ⟨h, hh, rfl, hread⟩, hlow, hhigh⟩
    · intro memory hmemory address hlt i word hfound hword
      obtain ⟨h, hh, hpage, rfl⟩ := b.of_lookup hlt hfound
      have hin : h.start + address % PAGE / 4 < (p.bufferWords read).length := by
        rw [← hlength]
        exact (List.getElem?_eq_some_iff.mp hword).choose
      have hwas := List.getElem?_eq_getElem hin
      exact b.apply_held hle hlength hh hpage hwas (hmemory address hlt _ _ hfound hwas) hword
    · intro memory address hnone
      apply apply_unreached
      intro r hr
      obtain ⟨h, hh, hr⟩ := (b.mem_changedRuns hle hlength).mp hr
      obtain ⟨-, hlow, hhigh⟩ := b.run_inside hlength hh hr
      obtain ⟨content, hread, -⟩ := b.content h hh
      by_contra hreach
      apply hnone content
      have hpage : h.page = address / PAGE * PAGE := by
        obtain ⟨number, hnumber⟩ := (p.whole h.page (b.page h hh)).1
        unfold PAGE at hhigh hnumber ⊢
        omega
      rw [← hpage]
      exact (b.holds _ content).mpr ⟨h, hh, rfl, hread⟩

/-- Three pages, the last with the first's slot for its own. -/
def collidingPages : Pages := ⟨[PAGE, 2 * PAGE, 22 * PAGE], by simp [PAGE], by simp [PAGE]⟩

/-- All but the second can be read. -/
def readsEnds (page : Nat) : Option (List Nat) := if page = 2 * PAGE then none else some [page]

theorem collidingPages_serve : collidingPages.placed 4 = some [9, 3, 10] ∧
    Serves collidingPages readsEnds (collidingPages.Holds readsEnds) :=
  ⟨by decide +kernel, buffer_serves collidingPages readsEnds 4 (by decide +kernel)⟩

/-! ## More pages than a table entry can say -/

theorem placedLoop_of_distinct {bits : Nat} {pages taken : List Nat}
    (hdistinct : (pages.map (fun page => globalPageSlot (page / PAGE) bits % 2 ^ bits)).Nodup)
    (hfree : ∀ page ∈ pages, globalPageSlot (page / PAGE) bits % 2 ^ bits ∉ taken) :
    (placedLoop bits pages taken).isSome = true := by
  induction pages generalizing taken with
  | nil => rfl
  | cons page pages ih =>
      rw [List.map_cons] at hdistinct
      obtain ⟨hfirst, hrest⟩ := List.nodup_cons.mp hdistinct
      have hprobes : probes (page / PAGE) bits =
          globalPageSlot (page / PAGE) bits % 2 ^ bits ::
            [(globalPageSlot (page / PAGE) bits + 1) % 2 ^ bits] := rfl
      have hown := hfree page List.mem_cons_self
      unfold placedLoop
      rw [hprobes, List.find?_cons_of_pos (by simpa using hown)]
      dsimp only
      rw [Option.isSome_map]
      apply ih hrest
      intro other hother hmem
      rcases List.mem_cons.mp hmem with heq | hmem
      · exact hfirst (List.mem_map.mpr ⟨other, hother, heq⟩)
      · exact hfree other (List.mem_cons_of_mem _ hother) hmem

def everyMegabyte (n : Nat) (hn : n ≤ 2 ^ 22) : Pages where
  pages := (List.range n).map (fun i => i * 2 ^ 20)
  ascending := by
    apply List.pairwise_map.mpr
    exact List.pairwise_lt_range.imp (fun h => Nat.mul_lt_mul_of_pos_right h (by decide))
  whole := by
    intro page hpage
    obtain ⟨i, hi, rfl⟩ := List.mem_map.mp hpage
    have hlt := List.mem_range.mp hi
    refine ⟨⟨i * 2 ^ 8, ?_⟩, ?_⟩
    · unfold PAGE
      omega
    · omega

/-- In the largest table the slot of a megabyte's first page is its number, scattered. -/
theorem slot_megabyte {i : Nat} (hi : i < 2 ^ 22) :
    globalPageSlot (i * 2 ^ 20 / PAGE) 24 % 2 ^ 24 = i * GLOBAL_PAGE_HASH % 2 ^ 24 := by
  have hnumber : i * 2 ^ 20 / PAGE = i * 2 ^ 8 := by
    unfold PAGE
    omega
  have hlow : u32 (i * 2 ^ 8) = i * 2 ^ 8 := Nat.mod_eq_of_lt (by omega)
  have hhigh : u32 (i * 2 ^ 8 / 2 ^ 32) = 0 := by
    unfold u32
    omega
  have hshift : 32 - max 1 (min 24 31) = 8 := by decide
  have hmul : i * 2 ^ 8 * GLOBAL_PAGE_HASH = 2 ^ 8 * (i * GLOBAL_PAGE_HASH) := by ring
  have hmod : 2 ^ 8 * (i * GLOBAL_PAGE_HASH) % 2 ^ 32 = 2 ^ 8 * (i * GLOBAL_PAGE_HASH % 2 ^ 24) :=
    Nat.mul_mod_mul_left (2 ^ 8) (i * GLOBAL_PAGE_HASH) (2 ^ 24)
  unfold globalPageSlot
  rw [hnumber, hlow, hhigh, hshift, Nat.xor_zero, hmul]
  unfold u32
  rw [hmod, Nat.mul_div_cancel_left _ (by decide)]
  exact Nat.mod_mod _ _

/-- The multiplier is odd, so the scattered numbers are all different. -/
theorem scatter_injective {i j : Nat} (hi : i < 2 ^ 22) (hj : j < 2 ^ 22)
    (h : i * GLOBAL_PAGE_HASH % 2 ^ 24 = j * GLOBAL_PAGE_HASH % 2 ^ 24) : i = j := by
  have hcoprime : Nat.gcd (2 ^ 24) GLOBAL_PAGE_HASH = 1 := by decide
  have hmod : i ≡ j [MOD 2 ^ 24] := Nat.ModEq.cancel_right_of_coprime hcoprime h
  exact Nat.ModEq.eq_of_lt_of_lt hmod (by omega) (by omega)

theorem nodup_map_range {n : Nat} {f g : Nat → Nat}
    (h : ∀ i < n, ∀ j < n, g (f i) = g (f j) → i = j) :
    (((List.range n).map f).map g).Nodup := by
  rw [List.map_map]
  apply List.Nodup.map_on _ List.nodup_range
  intro i hi j hj heq
  exact h i (List.mem_range.mp hi) j (List.mem_range.mp hj) heq

/-- Four million pages a megabyte apart fill the largest table. -/
theorem everyMegabyte_tableBits {n : Nat} (hn : n ≤ 2 ^ 22) (hfull : n = 2 ^ 22) :
    (everyMegabyte n hn).tableBits = some 24 := by
  have hlength : (everyMegabyte n hn).pages.length = n := by
    unfold everyMegabyte
    rw [List.length_map, List.length_range]
  have hdistinct : ((everyMegabyte n hn).pages.map
      (fun page => globalPageSlot (page / PAGE) 24 % 2 ^ 24)).Nodup := by
    apply nodup_map_range
    intro i hi j hj heq
    have hi := Nat.lt_of_lt_of_le hi hn
    have hj := Nat.lt_of_lt_of_le hj hn
    have hscatter := (slot_megabyte hi).symm.trans (heq.trans (slot_megabyte hj))
    exact scatter_injective hi hj hscatter
  have hplaced : ((everyMegabyte n hn).placed 24).isSome = true :=
    @placedLoop_of_distinct 24 _ [] hdistinct (fun _ _ => List.not_mem_nil)
  have hslots : max n 1 * 4 = 2 ^ 24 := by omega
  have hleast : max (Nat.clog 2 (max n 1 * 4)) 1 = 24 := by
    have hclog := Nat.clog_pow 2 24 (by decide)
    rw [← hslots] at hclog
    omega
  unfold Pages.tableBits
  rw [hlength, hleast]
  dsimp only
  rw [show List.range' 24 (MOST_TABLE_BITS + 1 - 24) = [24] by decide]
  exact List.find?_cons_of_pos hplaced

/-- The pages before the last are all the others. -/
theorem takeWhile_everyMegabyte (m : Nat) :
    ((List.range (m + 1)).map (fun i => i * 2 ^ 20)).takeWhile (· != m * 2 ^ 20) =
      (List.range m).map (fun i => i * 2 ^ 20) := by
  rw [List.range_succ, List.map_append, List.map_singleton, List.takeWhile_append_of_pos]
  · simp
  · intro page hpage
    obtain ⟨i, hi, rfl⟩ := List.mem_map.mp hpage
    have hlt := List.mem_range.mp hi
    simp
    omega

/-- A page of megabytes enough that its words would start past what an entry can say is not
held. -/
theorem not_holds_last {m : Nat} (hm : m + 1 ≤ 2 ^ 22)
    (htable : (everyMegabyte (m + 1) hm).tableBits = some 24)
    (hpast : u32Max < 1 + 3 * 2 ^ 24 + 1024 * m) (content : List Nat) :
    ¬ (everyMegabyte (m + 1) hm).Holds (fun _ => some []) (m * 2 ^ 20) content := by
  rintro ⟨-, -, bits, hbits, hfits⟩
  have h24 : bits = 24 := Option.some.inj (hbits.symm.trans htable)
  subst h24
  have hwhile : (everyMegabyte (m + 1) hm).pages.takeWhile (· != m * 2 ^ 20) =
      (List.range m).map (fun i => i * 2 ^ 20) := takeWhile_everyMegabyte m
  have hcount : ((List.range m).map (fun i => i * 2 ^ 20)).countP
      (fun q => ((fun _ => some []) q : Option (List Nat)).isSome) = m := by
    rw [List.countP_eq_length.mpr (by simp), List.length_map, List.length_range]
  have hwords : PAGE_WORDS = 1024 := rfl
  rw [hwhile, hcount, hwords] at hfits
  omega

/-- Its address is not found, though the page is one of the pages and can be read. -/
theorem last_not_found {m : Nat} (hm : m + 1 ≤ 2 ^ 22)
    (htable : (everyMegabyte (m + 1) hm).tableBits = some 24)
    (hpast : u32Max < 1 + 3 * 2 ^ 24 + 1024 * m) :
    ¬ Serves (everyMegabyte (m + 1) hm) (fun _ => some [])
      (fun page content => page ∈ (everyMegabyte (m + 1) hm).pages ∧
        (fun _ => some []) page = some content) := by
  intro h
  obtain ⟨held, b⟩ := exists_buffered htable (fun _ => some [])
  have hnumber : m * 2 ^ 20 / PAGE * PAGE = m * 2 ^ 20 := by
    unfold PAGE
    omega
  have hmem : m * 2 ^ 20 ∈ (everyMegabyte (m + 1) hm).pages := by
    apply List.mem_map.mpr
    exact ⟨m, List.mem_range.mpr (Nat.lt_succ_self m), rfl⟩
  obtain ⟨i, hfound, -⟩ := h.found (m * 2 ^ 20) (by omega) []
    (by rw [hnumber]; exact ⟨hmem, rfl⟩)
  obtain ⟨g, hg, hpage, -⟩ := b.of_lookup (by omega) hfound
  rw [hnumber] at hpage
  obtain ⟨content, hread, -⟩ := b.content g hg
  have hholds := (b.holds _ content).mpr ⟨g, hg, hpage, hread⟩
  exact not_holds_last hm htable hpast content hholds

/-- The last of four million pages can be read and is not found. -/
theorem last_megabyte_not_found :
    (everyMegabyte (4194303 + 1) (by decide)).tableBits = some 24 ∧
      ¬ Serves (everyMegabyte (4194303 + 1) (by decide)) (fun _ => some [])
        (fun page content => page ∈ (everyMegabyte (4194303 + 1) (by decide)).pages ∧
          (fun _ => some []) page = some content) := by
  have htable := everyMegabyte_tableBits (show 4194303 + 1 ≤ 2 ^ 22 by decide) (by decide)
  exact ⟨htable, last_not_found _ htable (by decide)⟩

end Orbistoun.Gpu.GlobalPages
