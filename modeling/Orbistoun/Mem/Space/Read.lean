import Orbistoun.Mem.Space

/-! # What may be read

`AddressSpace::read` decides by the protection a region was reserved with; `protect` changes the
pages and not that record. Beside the regions the protection last applied to each page is kept
here, and the two agree while no protection takes or gives read permission.
-/

namespace Orbistoun.Mem.Space

open Std (TreeMap)
open Orbistoun.Lib
open Orbistoun.Lib.U64 (saturatingAdd bound)

namespace AddressSpace

/-- Copies `len` bytes at `base` out of one readable region, when the span is inside one. -/
def read (s : AddressSpace) (memory : Nat → UInt8) (base len : Nat) : Option (List UInt8) :=
  match s.regionAt base with
  | none => none
  | some region =>
      if !region.protection.read || !s.owns base len then none
      else some ((List.range len).map (fun i => memory (base + i)))

/-- The protection last applied to each byte's page, if the page is held. -/
abbrev Applied := Nat → Option Protection

def Touches (base len x : Nat) : Prop :=
  0 < len ∧ base / guestPageSize ≤ x / guestPageSize ∧
    x / guestPageSize ≤ (base + len - 1) / guestPageSize

instance (base len x : Nat) : Decidable (Touches base len x) :=
  inferInstanceAs (Decidable (_ ∧ _))

/-- The pages after a call, told from its answer. -/
def apply (s : AddressSpace) (p : Applied) : Call → Applied
  | .reserve base len protection host =>
      match (s.reserve base len protection host).1 with
      | .ok _ => fun x => if base ≤ x ∧ x < base + len then some protection else p x
      | .error _ => p
  | .release base len =>
      if (s.release base len).1 then fun x => if base ≤ x ∧ x < base + len then none else p x
      else p
  | .protect base len protection host =>
      match (s.protect base len protection host).1 with
      | .ok _ => fun x => if Touches base len x then some protection else p x
      | .error _ => p

def applied (s : AddressSpace) (p : Applied) : List Call → Applied
  | [] => p
  | c :: calls => applied (step s c).1 (apply s p c) calls

def Readable (p : Applied) (x : Nat) : Prop := (p x).map Protection.read = some true

/-- A protection inside a region that the host grants leaves the read permission it was reserved with. -/
def KeepsRead (s : AddressSpace) : Call → Prop
  | .protect base len protection host => host = .ok () → 0 < len → s.owns base len = true →
      ∀ r ∈ s.regionList, r.base ≤ base → base < r.stop → protection.read = r.protection.read
  | _ => True

section Pages

variable {s : AddressSpace} {p : Applied}

/-- The pages of a region are readable as the region records, and none ends past the words. -/
structure Agrees (s : AddressSpace) (p : Applied) : Prop where
  sound : Sound s
  inside : ∀ {k : Nat} {r : Region}, s.regions[k]? = some r → r.base + r.len < bound
  agrees : ∀ {k : Nat} {r : Region}, s.regions[k]? = some r → ∀ x, r.base ≤ x →
    x < r.base + r.len → (p x).map Protection.read = some r.protection.read

theorem Agrees.stop_eq (h : Agrees s p) {k : Nat} {r : Region} (hr : s.regions[k]? = some r) :
    r.stop = r.base + r.len := by
  have := h.inside hr
  unfold Region.stop saturatingAdd
  omega

theorem Agrees.owns (h : Agrees s p) {base len : Nat} (howns : s.owns base len = true) :
    ∃ (k : Nat) (r : Region), s.regions[k]? = some r ∧ r.base ≤ base ∧
      base + len ≤ r.base + r.len := by
  rw [owns_eq_scan h.sound, List.any_eq_true] at howns
  obtain ⟨r, hmem, hin⟩ := howns
  obtain ⟨k, hk⟩ := mem_regionList.mp hmem
  simp only [Bool.and_eq_true, decide_eq_true_eq] at hin
  have hstop := h.stop_eq hk
  have := h.inside hk
  refine ⟨k, r, hk, hin.1, ?_⟩
  -- a region of whole pages ends a page before the last word at least
  obtain ⟨hpaged, hlen, -, -⟩ := h.sound.paged hk
  have hle := hin.2
  simp only [saturatingAdd, guestPageSize, bound] at *
  omega

theorem step_pages (s : AddressSpace) (p : Applied) (c : Call) :
    (∃ base len protection, c = .reserve base len protection (.ok ()) ∧
      s.validate base len false = .ok () ∧
      (step s c).1.regions = s.regions.insert base ⟨base, len, protection⟩ ∧
      apply s p c = fun x => if base ≤ x ∧ x < base + len then some protection else p x) ∨
    (∃ base r, c = .release base r.len ∧ s.regions[base]? = some r ∧
      (step s c).1.regions = s.regions.erase base ∧
      apply s p c = fun x => if base ≤ x ∧ x < base + r.len then none else p x) ∨
    (∃ base len protection, c = .protect base len protection (.ok ()) ∧ s.owns base len = true ∧
      (step s c).1.regions = s.regions ∧
      apply s p c = fun x => if Touches base len x then some protection else p x) ∨
    ((step s c).1.regions = s.regions ∧ apply s p c = p) := by
  cases c with
  | reserve base len protection host =>
    cases hvalid : s.validate base len false with
    | error e =>
      refine Or.inr (Or.inr (Or.inr ⟨?_, ?_⟩)) <;> simp only [step, apply, reserve, hvalid,
        noteReserveFailure]
    | ok u =>
      cases host with
      | error e =>
        refine Or.inr (Or.inr (Or.inr ⟨?_, ?_⟩)) <;> simp only [step, apply, reserve, hvalid,
          noteReserveFailure]
      | ok u =>
        refine Or.inl ⟨base, len, protection, rfl, hvalid, ?_, ?_⟩ <;>
          simp only [step, apply, reserve, hvalid]
  | release base len =>
    cases hget : s.regions[base]? with
    | none => refine Or.inr (Or.inr (Or.inr ⟨?_, ?_⟩)) <;> simp [step, apply, release, hget]
    | some r =>
      by_cases hlen : r.len = len
      · subst hlen
        refine Or.inr (Or.inl ⟨base, r, rfl, hget, ?_, ?_⟩) <;> simp [step, apply, release, hget]
      · refine Or.inr (Or.inr (Or.inr ⟨?_, ?_⟩)) <;> simp [step, apply, release, hget, hlen]
  | protect base len protection host =>
    cases howns : s.owns base len with
    | false =>
      refine Or.inr (Or.inr (Or.inr ⟨?_, ?_⟩)) <;> simp [step, apply, protect, howns,
        noteReserveFailure]
    | true =>
      cases host with
      | error e =>
        refine Or.inr (Or.inr (Or.inr ⟨?_, ?_⟩)) <;> simp [step, apply, protect, howns,
          noteReserveFailure]
      | ok u =>
        refine Or.inr (Or.inr (Or.inl ⟨base, len, protection, rfl, howns, ?_, ?_⟩)) <;>
          simp [step, apply, protect, howns]

theorem Agrees.touches (h : Agrees s p) {k : Nat} {r : Region} (hr : s.regions[k]? = some r)
    {base len x : Nat} (hbase : r.base ≤ base) (hstop : base + len ≤ r.base + r.len)
    (hx : Touches base len x) : r.base ≤ x ∧ x < r.base + r.len := by
  obtain ⟨hpaged, hlen, -, -⟩ := h.sound.paged hr
  unfold Touches at hx
  simp only [guestPageSize] at *
  omega

theorem Agrees.step (h : Agrees s p) {c : Call} (hw : c.Word) (hg : c.Granted)
    (hk : KeepsRead s c) : Agrees (step s c).1 (apply s p c) := by
  have hsound := h.sound.step hw
  rcases step_pages s p c with ⟨base, len, protection, rfl, hvalid, hregions, hpages⟩ |
    ⟨base, r₀, rfl, hget, hregions, hpages⟩ |
    ⟨base, len, protection, rfl, howns, hregions, hpages⟩ | ⟨hregions, hpages⟩
  · obtain ⟨hlen, hpos, hbase, hholder⟩ := validate_ok hvalid
    have hin : base + len < bound := hg rfl
    constructor
    · exact hsound
    · intro k r hr
      simp only [hregions, TreeMap.getElem?_insert, Nat.compare_eq_eq] at hr
      split at hr
      · cases hr
        exact hin
      · exact h.inside hr
    · intro k r hr x hle hlt
      rw [hpages]
      simp only [hregions, TreeMap.getElem?_insert, Nat.compare_eq_eq] at hr
      split at hr
      · cases hr
        dsimp only
        rw [if_pos ⟨hle, hlt⟩]
        rfl
      · have hfree := holderOf_eq_none h.sound hholder (mem_regionList.mpr ⟨k, hr⟩)
        rw [h.stop_eq hr] at hfree
        unfold saturatingAdd at hfree
        dsimp only
        rw [if_neg (by omega)]
        exact h.agrees hr x hle hlt
  · constructor
    · exact hsound
    · intro k r hr
      simp only [hregions, TreeMap.getElem?_erase, Nat.compare_eq_eq] at hr
      split at hr
      · cases hr
      · exact h.inside hr
    · intro k r hr x hle hlt
      rw [hpages]
      simp only [hregions, TreeMap.getElem?_erase, Nat.compare_eq_eq] at hr
      split at hr
      · cases hr
      · next hne =>
        have hkey := h.sound.keyed hr
        have hout : ¬ (base ≤ x ∧ x < base + r₀.len) := by
          rcases Nat.lt_or_gt_of_ne hne with hbelow | habove
          · have := h.sound.apart hget hr hbelow
            omega
          · have := h.sound.apart hr hget habove
            omega
        dsimp only
        rw [if_neg hout]
        exact h.agrees hr x hle hlt
  · obtain ⟨k₀, r₀, hr₀, hbase, hstop⟩ := h.owns howns
    constructor
    · exact hsound
    · intro k r hr
      rw [hregions] at hr
      exact h.inside hr
    · intro k r hr x hle hlt
      rw [hregions] at hr
      rw [hpages]
      dsimp only
      by_cases hx : Touches base len x
      · rw [if_pos hx]
        have hin := h.touches hr₀ hbase hstop hx
        have hrx : r.base ≤ x ∧ x < r.stop := by
          rw [h.stop_eq hr]
          exact ⟨hle, hlt⟩
        have hrx₀ : r₀.base ≤ x ∧ x < r₀.stop := by
          rw [h.stop_eq hr₀]
          exact hin
        have hsame := h.sound.holder_unique hr hr₀ hrx hrx₀
        subst hsame
        rw [hr₀] at hr
        cases hr
        have hpos := hx.1
        have hread := hk rfl hpos howns r₀ (mem_regionList.mpr ⟨k, hr₀⟩) hbase (by
          rw [h.stop_eq hr₀]
          omega)
        exact congrArg some hread
      · rw [if_neg hx]
        exact h.agrees hr x hle hlt
  · constructor
    · exact hsound
    · intro k r hr
      rw [hregions] at hr
      exact h.inside hr
    · intro k r hr
      rw [hregions] at hr
      rw [hpages]
      exact h.agrees hr

theorem agrees_new : Agrees new (fun _ => none) := by
  constructor
  · exact sound_new
  · intro k r hr
    simp [new] at hr
  · intro k r hr
    simp [new] at hr

theorem Agrees.run (h : Agrees s p) {calls : List Call} (hw : ∀ c ∈ calls, c.Word)
    (hg : ∀ c ∈ calls, c.Granted) (hk : space.Meets KeepsRead s calls) :
    Agrees (space.after s calls) (applied s p calls) := by
  induction calls generalizing s p with
  | nil => exact h
  | cons c calls ih =>
    obtain ⟨hc, hk⟩ := hk
    have hstep := h.step (hw c List.mem_cons_self) (hg c List.mem_cons_self) hc
    exact ih hstep (fun c' hc' => hw c' (List.mem_cons_of_mem _ hc'))
      (fun c' hc' => hg c' (List.mem_cons_of_mem _ hc')) hk

/-- Reading answers exactly when the range lies in one region recorded readable. -/
theorem Agrees.read_iff (h : Agrees s p) (memory : Nat → UInt8) (base len : Nat) :
    (s.read memory base len).isSome = true ↔ ∃ r ∈ s.regionList, (r.base ≤ base ∧
      base < r.base + r.len ∧ base + len ≤ r.base + r.len) ∧ r.protection.read = true := by
  unfold read
  constructor
  · intro hsome
    cases hat : s.regionAt base with
    | none =>
      rw [hat] at hsome
      cases hsome
    | some r =>
      rw [hat] at hsome
      obtain ⟨hmem, hle, hlt⟩ := (regionAt_eq_some_iff h.sound).mp hat
      obtain ⟨k, hk⟩ := mem_regionList.mp hmem
      rw [h.stop_eq hk] at hlt
      dsimp only at hsome
      cases hread : r.protection.read with
      | false =>
        rw [hread] at hsome
        cases hsome
      | true =>
        cases howns : s.owns base len with
        | false =>
          rw [hread, howns] at hsome
          cases hsome
        | true =>
          obtain ⟨k', r', hk', hle', hstop'⟩ := h.owns howns
          refine ⟨r, hmem, ⟨hle, hlt, ?_⟩, hread⟩
          -- the range owned starts in the region its first byte is in
          rcases Nat.lt_trichotomy k k' with hbelow | heq | habove
          · have := h.sound.apart hk hk' hbelow
            have := h.sound.keyed hk
            have := h.sound.keyed hk'
            omega
          · subst heq
            rw [hk] at hk'
            cases hk'
            exact hstop'
          · have := h.sound.apart hk' hk habove
            have := h.sound.keyed hk
            have := h.sound.keyed hk'
            omega
  · intro hin
    obtain ⟨r, hmem, ⟨hle, hlt, hstop⟩, hread⟩ := hin
    obtain ⟨k, hk⟩ := mem_regionList.mp hmem
    have hend := h.stop_eq hk
    have hat : s.regionAt base = some r :=
      (regionAt_eq_some_iff h.sound).mpr ⟨hmem, hle, by omega⟩
    have howns : s.owns base len = true := by
      rw [owns_eq_scan h.sound, List.any_eq_true]
      refine ⟨r, hmem, ?_⟩
      rw [Bool.and_eq_true, decide_eq_true_eq, decide_eq_true_eq, hend]
      exact ⟨hle, (Nat.min_le_left _ _).trans hstop⟩
    rw [hat]
    dsimp only
    rw [hread, howns]
    rfl

theorem read_bytes {memory : Nat → UInt8} {base len : Nat} {bytes : List UInt8}
    (h : s.read memory base len = some bytes) :
    bytes = (List.range len).map (fun i => memory (base + i)) := by
  unfold read at h
  split at h
  · cases h
  · split at h
    · cases h
    · cases h
      rfl

end Pages

/-- In every run whose protections leave read permission as each region was reserved with, reading
answers exactly when the whole range lies in one region and the protection last applied to each of
its pages allows it, an empty range standing for the page it starts in; and it answers the bytes
there. -/
theorem read_iff_readable {calls : List Call} (hw : ∀ c ∈ calls, c.Word)
    (hg : ∀ c ∈ calls, c.Granted) (hk : space.Meets KeepsRead new calls) (memory : Nat → UInt8)
    (base len : Nat) :
    let s := space.after new calls
    ((s.read memory base len).isSome = true ↔ ∃ r ∈ s.regionList,
        (r.base ≤ base ∧ base < r.base + r.len ∧ base + len ≤ r.base + r.len) ∧
          ∀ x, base ≤ x → x < base + max len 1 → Readable (applied new (fun _ => none) calls) x) ∧
      ∀ bytes, s.read memory base len = some bytes →
        bytes = (List.range len).map (fun i => memory (base + i)) := by
  intro s
  have h : Agrees s (applied new (fun _ => none) calls) := agrees_new.run hw hg hk
  constructor
  · apply (h.read_iff memory base len).trans
    constructor
    · intro hin
      obtain ⟨r, hmem, hrange, hread⟩ := hin
      refine ⟨r, hmem, hrange, ?_⟩
      intro x hle hlt
      obtain ⟨k, hr⟩ := mem_regionList.mp hmem
      have hx := h.agrees hr x (by omega) (by omega)
      rw [hread] at hx
      exact hx
    · intro hin
      obtain ⟨r, hmem, hrange, hall⟩ := hin
      refine ⟨r, hmem, hrange, ?_⟩
      obtain ⟨k, hr⟩ := mem_regionList.mp hmem
      have hx := h.agrees hr base hrange.1 hrange.2.1
      have hbase := hall base (Nat.le_refl _) (by omega)
      unfold Readable at hbase
      rw [hx] at hbase
      exact Option.some.inj hbase
  · intro bytes hbytes
    exact read_bytes hbytes

/-- A region made read-only from read-write and read. -/
theorem read_iff_readable_readOnly :
    let calls : List Call := [.reserve 0x10000 0x2000 ⟨true, true, false⟩ (.ok ()),
      .protect 0x11000 0x1000 ⟨true, false, false⟩ (.ok ())]
    ∃ r ∈ (space.after new calls).regionList, ∀ x, 0x10ffe ≤ x → x < 0x10ffe + max 4 1 →
      Readable (applied new (fun _ => none) calls) x := by
  intro calls
  have hw : ∀ c ∈ calls, c.Word := by simp [calls, Call.Word, bound]
  have hg : ∀ c ∈ calls, c.Granted := by simp [calls, Call.Granted, bound]
  have hk : space.Meets KeepsRead new calls := by
    refine ⟨trivial, ?_, trivial⟩
    intro _ _ _ r hr _ _
    have hregions : (step new (.reserve 0x10000 0x2000 ⟨true, true, false⟩ (.ok ()))).1.regionList =
        [⟨0x10000, 0x2000, ⟨true, true, false⟩⟩] := by decide +kernel
    have hr : r ∈ (step new (.reserve 0x10000 0x2000 ⟨true, true, false⟩ (.ok ()))).1.regionList :=
      hr
    rw [hregions, List.mem_singleton] at hr
    rw [hr]
  have hsome : ((space.after new calls).read (fun _ => 0) 0x10ffe 4).isSome = true := by
    decide +kernel
  obtain ⟨r, hmem, -, hall⟩ := (read_iff_readable hw hg hk (fun _ => 0) 0x10ffe 4).1.mp hsome
  exact ⟨r, hmem, hall⟩

/-- A page whose access was taken away is read all the same. -/
theorem reads_noAccess :
    let calls : List Call := [.reserve 0x10000 0x2000 ⟨true, true, false⟩ (.ok ()),
      .protect 0x10000 0x1000 ⟨false, false, false⟩ (.ok ())]
    ((space.after new calls).read (fun _ => 0) 0x10000 4).isSome = true ∧
      ¬ Readable (applied new (fun _ => none) calls) 0x10000 := by
  constructor
  · decide +kernel
  · unfold Readable
    decide +kernel

end AddressSpace

end Orbistoun.Mem.Space
