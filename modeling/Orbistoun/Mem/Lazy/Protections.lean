import Orbistoun.Lib.RunMap
import Orbistoun.Mem.Space

/-! # The protections of a reservation committed on touch

`Protections`: the protection last set for each page of a reservation, kept as runs. A setting
splits the runs it cuts and joins what then agrees with a neighbour, so after any history the
runs are the fewest that tell every page's protection.
-/

namespace Orbistoun.Mem.Lazy

open Orbistoun.Lib
open IntervalMap (Sound Merged Holds)
open Space (Protection)

/-- The start of each run, to its end and its protection. -/
abbrev Protections := IntervalMap Protection

namespace Protections

def new (start stop : Nat) (protection : Protection) : Protections :=
  (∅ : Protections).insert start (stop, protection)

def runAt (p : Protections) (address : Nat) : Option (Nat × Nat × Protection) :=
  IntervalMap.runAt p address

/-- The runs over `[lo, hi)`, cut to it. The range's bounds are in order. -/
def runs (p : Protections) (lo hi : Nat) : List (Nat × Nat × Protection) :=
  IntervalMap.runsOver p lo hi

/-- Splits the run holding `a` so one starts there. -/
def splitAt (p : Protections) (a : Nat) : Protections := IntervalMap.splitAt p a

/-- Joins the run starting at `a` onto the one ending there, when their protections agree. -/
def joinAt (p : Protections) (a : Nat) : Protections := IntervalMap.joinAt p a

def set (p : Protections) (lo hi : Nat) (protection : Protection) : Protections :=
  let p := splitAt (splitAt p lo) hi
  let inside := IntervalMap.startsIn p lo hi
  let p := (IntervalMap.eraseAll p inside).insert lo (hi, protection)
  joinAt (joinAt p hi) lo

/-- One call of `set`. -/
structure Setting where
  lo : Nat
  hi : Nat
  protection : Protection
  deriving DecidableEq, Repr

def setAll (p : Protections) (settings : List Setting) : Protections :=
  settings.foldl (fun p s => set p s.lo s.hi s.protection) p

/-- The protection of a byte that was `held` before the calls: what the last call over it set. -/
def lastSet (held : Protection) (settings : List Setting) (x : Nat) : Protection :=
  match (settings.filter (fun s => s.lo ≤ x ∧ x < s.hi)).getLast? with
  | some s => s.protection
  | none => held

/-- A call over part of the reservation, as `protect` makes it. -/
def Setting.Within (start stop : Nat) (s : Setting) : Prop :=
  start ≤ s.lo ∧ s.lo < s.hi ∧ s.hi ≤ stop

/-! ## What a history leaves -/

/-- The runs are apart, neighbours differ, and each byte of the reservation reads `held`. -/
structure Tells (start stop : Nat) (held : Nat → Protection) (p : Protections) : Prop where
  sound : Sound p
  merged : Merged p
  reads : ∀ x w, Holds p x w ↔ (start ≤ x ∧ x < stop) ∧ w = held x

theorem set_eq_paint (p : Protections) (lo hi : Nat) (protection : Protection) :
    set p lo hi protection = IntervalMap.paint p lo hi protection := rfl

theorem bounds_set {P : Nat → Prop} {p : Protections} (h : IntervalMap.Bounds P p) {lo hi : Nat}
    (protection : Protection) (hlo : P lo) (hhi : P hi) :
    IntervalMap.Bounds P (set p lo hi protection) := by
  rw [set_eq_paint]
  exact h.paint protection hlo hhi

theorem tells_new {start stop : Nat} (hlt : start < stop) (protection : Protection) :
    Tells start stop (fun _ => protection) (new start stop protection) := by
  have hempty : Sound (∅ : Protections) := by
    constructor
    · intro lo hi w hget
      simp at hget
    · intro lo hi lo' hi' w w' hget
      simp at hget
  have hfree : IntervalMap.Fresh (∅ : Protections) start stop := by
    intro x w _ _ hx
    obtain ⟨lo, hi, hget, -⟩ := hx
    simp at hget
  constructor
  · exact hempty.insert protection hlt hfree
  · intro a hseam
    obtain ⟨lo, hi, v, hbefore, hat⟩ := hseam
    rw [new, IntervalMap.getElem?_insert_nat] at hbefore hat
    simp at hbefore hat
    omega
  · intro x w
    rw [new, hempty.holds_insert protection hlt hfree]
    have hnone : ¬ Holds (∅ : Protections) x w := by
      intro hx
      obtain ⟨lo, hi, hget, -⟩ := hx
      simp at hget
    simp only [hnone, or_false, and_assoc]

/-- One call changes the bytes it names and no other. -/
theorem Tells.set {start stop : Nat} {held : Nat → Protection} {p : Protections}
    (h : Tells start stop held p) {s : Setting} (hin : s.Within start stop) :
    Tells start stop (fun x => if s.lo ≤ x ∧ x < s.hi then s.protection else held x)
      (p.set s.lo s.hi s.protection) := by
  obtain ⟨hlo, hlt, hhi⟩ := hin
  obtain ⟨hsound, hmerged, hreads⟩ := h.sound.paint h.merged hlt s.protection
  rw [set_eq_paint]
  constructor
  · exact hsound
  · exact hmerged
  · intro x w
    have hset := hreads x w
    rw [h.reads] at hset
    apply hset.trans
    by_cases hx : s.lo ≤ x ∧ x < s.hi
    · rw [if_pos hx]
      have hres : start ≤ x ∧ x < stop := by omega
      simp [hx, hres]
    · rw [if_neg hx]
      simp only [hx, not_false_iff, and_true]
      constructor
      · intro hor
        rcases hor with hcall | hold
        · exact absurd ⟨hcall.1, hcall.2.1⟩ hx
        · exact hold
      · exact Or.inr

theorem setAll_concat (p : Protections) (settings : List Setting) (s : Setting) :
    setAll p (settings ++ [s]) = set (setAll p settings) s.lo s.hi s.protection := by
  simp [setAll]

theorem lastSet_concat (held : Protection) (settings : List Setting) (s : Setting) (x : Nat) :
    lastSet held (settings ++ [s]) x =
      if s.lo ≤ x ∧ x < s.hi then s.protection else lastSet held settings x := by
  unfold lastSet
  by_cases hx : s.lo ≤ x ∧ x < s.hi
  · rw [if_pos hx]
    simp [List.filter_append, List.filter_cons, hx]
  · rw [if_neg hx]
    simp [List.filter_append, List.filter_cons, hx]

theorem Tells.setAll {start stop : Nat} (hlt : start < stop) (initial : Protection)
    (settings : List Setting) (hin : ∀ s ∈ settings, s.Within start stop) :
    Tells start stop (lastSet initial settings)
      (Protections.setAll (new start stop initial) settings) := by
  induction settings using List.reverseRecOn with
  | nil => exact tells_new hlt initial
  | append_singleton settings s ih =>
    have hbefore := ih (fun s' hs' => hin s' (List.mem_append_left _ hs'))
    have hafter := hbefore.set (hin s (List.mem_append_right _ (List.mem_singleton_self s)))
    have hlast : lastSet initial (settings ++ [s]) =
        fun x => if s.lo ≤ x ∧ x < s.hi then s.protection else lastSet initial settings x :=
      funext (lastSet_concat initial settings s)
    rw [hlast, setAll_concat]
    exact hafter

/-- After any calls over parts of a reservation its runs are in order and apart, cover exactly the
reservation, differ from their neighbours, and tell of each byte what was last set over it; read
over a range they are the same, cut to the range. -/
theorem runs_tell_lastSet {start stop : Nat} (hlt : start < stop) (initial : Protection)
    {settings : List Setting} (hin : ∀ s ∈ settings, s.Within start stop) :
    let p := setAll (new start stop initial) settings
    (Spans.Ordered Prod.fst (fun r => r.2.1) p.toList ∧
        Spans.Proper Prod.fst (fun r => r.2.1) p.toList) ∧
      (∀ x, Spans.Covers Prod.fst (fun r => r.2.1) p.toList x ↔ start ≤ x ∧ x < stop) ∧
      (∀ r ∈ p.toList, ∀ r' ∈ p.toList, r.2.1 = r'.1 → r.2.2 ≠ r'.2.2) ∧
      (∀ r ∈ p.toList, ∀ x, r.1 ≤ x → x < r.2.1 → r.2.2 = lastSet initial settings x) ∧
      ∀ lo hi, lo ≤ hi →
        (Spans.Ordered Prod.fst (fun r => r.2.1) (p.runs lo hi) ∧
          Spans.Proper Prod.fst (fun r => r.2.1) (p.runs lo hi)) ∧
        ∀ x w, (∃ r ∈ p.runs lo hi, r.1 ≤ x ∧ x < r.2.1 ∧ r.2.2 = w) ↔
          (lo ≤ x ∧ x < hi) ∧ (start ≤ x ∧ x < stop) ∧ w = lastSet initial settings x := by
  intro p
  have h : Tells start stop (lastSet initial settings) p := Tells.setAll hlt initial settings hin
  constructor
  · exact ⟨h.sound.ordered_toList, h.sound.proper_toList⟩
  constructor
  · intro x
    constructor
    · intro hx
      obtain ⟨r, hr, hle, hxr⟩ := hx
      exact ((h.reads x r.2.2).mp (IntervalMap.holds_iff_mem.mpr ⟨r, hr, rfl, hle, hxr⟩)).1
    · intro hx
      obtain ⟨r, hr, -, hle, hxr⟩ :=
        IntervalMap.holds_iff_mem.mp ((h.reads x _).mpr ⟨hx, rfl⟩)
      exact ⟨r, hr, hle, hxr⟩
  constructor
  · intro r hr r' hr' htouch heq
    have hget := IntervalMap.mem_toList.mp hr
    have hget' := IntervalMap.mem_toList.mp hr'
    rw [← htouch, ← heq] at hget'
    exact h.merged r.2.1 ⟨r.1, r'.2.1, r.2.2, hget, hget'⟩
  constructor
  · intro r hr x hle hxr
    exact ((h.reads x r.2.2).mp (IntervalMap.holds_iff_mem.mpr ⟨r, hr, rfl, hle, hxr⟩)).2
  · intro lo hi _
    constructor
    · exact ⟨h.sound.runsOver_ordered, IntervalMap.runsOver_proper⟩
    · intro x w
      have hover := h.sound.runsOver_holds lo hi x w
      rw [h.reads] at hover
      rw [and_assoc]
      exact hover

/-- A page made inaccessible in the middle, then given back: one run again. -/
theorem runs_tell_lastSet_back :
    let rw : Protection := ⟨true, true, false⟩
    let none : Protection := ⟨false, false, false⟩
    let settings : List Setting := [⟨0x3000, 0x5000, none⟩, ⟨0x3000, 0x5000, rw⟩]
    (setAll (new 0x1000 0x9000 rw) settings).toList = [(0x1000, 0x9000, rw)] ∧
      ∀ x, Spans.Covers Prod.fst (fun r => r.2.1) (setAll (new 0x1000 0x9000 rw) settings).toList x
        ↔ 0x1000 ≤ x ∧ x < 0x9000 := by
  intro rw none settings
  constructor
  · decide +kernel
  · have hin : ∀ s ∈ settings, s.Within 0x1000 0x9000 := by
      simp [settings, Setting.Within]
    exact (runs_tell_lastSet (by decide) rw hin).2.1

end Protections

end Orbistoun.Mem.Lazy
