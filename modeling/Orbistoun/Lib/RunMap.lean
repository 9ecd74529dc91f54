import Orbistoun.Lib.IntervalMap
import Orbistoun.Lib.Nearest

/-! # Interval maps with no two like neighbours

An interval map repainted a stretch at a time. The runs the stretch cuts are split where it
starts and ends, the runs inside it are replaced by one, and that one is joined to a neighbour of
the same value. Read byte by byte nothing changes but the stretch, and the map stays the one with
the fewest runs.
-/

namespace Orbistoun.Lib

open Std (TreeMap)
open Nearest (lastLE lastLT)

namespace IntervalMap

variable {τ : Type}

def runAt (t : IntervalMap τ) (x : Nat) : Option (Nat × Nat × τ) :=
  match lastLE t x with
  | some (start, stop, v) => if x < stop then some (start, stop, v) else none
  | none => none

def splitAt (t : IntervalMap τ) (a : Nat) : IntervalMap τ :=
  match runAt t a with
  | some (start, stop, v) =>
      if start < a then (t.insert start (a, v)).insert a (stop, v) else t
  | none => t

def startsIn (t : IntervalMap τ) (lo hi : Nat) : List Nat :=
  (t.toList.map Prod.fst).filter (fun start => lo ≤ start ∧ start < hi)

def eraseAll (t : IntervalMap τ) (starts : List Nat) : IntervalMap τ :=
  starts.foldl (fun t start => t.erase start) t

def runsOver (t : IntervalMap τ) (lo hi : Nat) : List (Nat × Nat × τ) :=
  let first := (runAt t lo).elim lo Prod.fst
  ((t.toList.filter (fun e => first ≤ e.1 ∧ e.1 < hi)).map
    (fun e => (max e.1 lo, min e.2.1 hi, e.2.2))).filter (fun r => r.1 < r.2.1)

/-- Joins the run starting at a place onto the one ending there, when their values agree. -/
def joinAt [DecidableEq τ] (t : IntervalMap τ) (a : Nat) : IntervalMap τ :=
  match t[a]? with
  | none => t
  | some (stop, v) =>
      match lastLT t a with
      | some (before, beforeStop, w) =>
          if beforeStop = a ∧ w = v then (t.erase a).insert before (stop, v) else t
      | none => t

/-- Gives a stretch a value. -/
def paint [DecidableEq τ] (t : IntervalMap τ) (lo hi : Nat) (v : τ) : IntervalMap τ :=
  let t := splitAt (splitAt t lo) hi
  let t := (eraseAll t (startsIn t lo hi)).insert lo (hi, v)
  joinAt (joinAt t hi) lo

/-! ## The run holding a byte -/

theorem Sound.runAt_iff {t : IntervalMap τ} (h : Sound t) {x lo hi : Nat} {v : τ} :
    runAt t x = some (lo, hi, v) ↔ t[lo]? = some (hi, v) ∧ lo ≤ x ∧ x < hi := by
  unfold runAt
  constructor
  · intro hrun
    split at hrun
    · next start stop w hlast =>
      split at hrun
      · next hlt =>
        cases hrun
        obtain ⟨hget, hle⟩ := Nearest.last_mem hlast
        exact ⟨hget, of_decide_eq_true hle, hlt⟩
      · cases hrun
    · cases hrun
  · intro hget
    obtain ⟨hget, hle, hlt⟩ := hget
    have hlast : lastLE t x = some (lo, hi, v) := by
      apply Nearest.last_eq_some hget (decide_eq_true hle)
      intro a' b' ha' hle'
      by_contra hgt
      have := h.apart hget ha' (Nat.not_le.mp hgt)
      have := of_decide_eq_true hle'
      omega
    rw [hlast]
    exact if_pos hlt

theorem Sound.runAt_none {t : IntervalMap τ} (h : Sound t) {x : Nat} (hnone : runAt t x = none)
    (v : τ) : ¬ Holds t x v := by
  intro hx
  obtain ⟨lo, hi, hget, hle, hlt⟩ := hx
  rw [h.runAt_iff.mpr ⟨hget, hle, hlt⟩] at hnone
  cases hnone

/-! ## Cuts and seams -/

/-- No run has a place strictly inside it. -/
def CutAt (t : IntervalMap τ) (a : Nat) : Prop :=
  ∀ (lo hi : Nat) (v : τ), t[lo]? = some (hi, v) → ¬ (lo < a ∧ a < hi)

/-- Two runs of one value meet at a place. -/
def Seam (t : IntervalMap τ) (a : Nat) : Prop :=
  ∃ (lo hi : Nat) (v : τ), t[lo]? = some (a, v) ∧ t[a]? = some (hi, v)

/-- Neighbouring runs differ in value. -/
def Merged (t : IntervalMap τ) : Prop := ∀ a, ¬ Seam t a

/-- What splitting at a place leaves: the same bytes, cut there, with one seam more at most. -/
structure SplitOf (t t' : IntervalMap τ) (a : Nat) : Prop where
  sound : Sound t'
  holds : ∀ x v, Holds t' x v ↔ Holds t x v
  cut : CutAt t' a
  cuts : ∀ b, CutAt t b → CutAt t' b
  seams : ∀ b, Seam t' b → Seam t b ∨ b = a

theorem SplitOf.same {t : IntervalMap τ} {a : Nat} (h : Sound t) (hcut : CutAt t a) :
    SplitOf t t a := by
  constructor
  · exact h
  · exact fun _ _ => Iff.rfl
  · exact hcut
  · exact fun _ hb => hb
  · exact fun _ hseam => Or.inl hseam

section Split

variable {t : IntervalMap τ} {lo hi a : Nat} {v : τ}

/-- The runs once one of them is split. -/
theorem getElem?_split (hlo : lo < a) {k e : Nat} {w : τ} :
    ((t.insert lo (a, v)).insert a (hi, v))[k]? = some (e, w) ↔
      (k = a ∧ e = hi ∧ w = v) ∨ (k = lo ∧ e = a ∧ w = v) ∨
        (k ≠ a ∧ k ≠ lo ∧ t[k]? = some (e, w)) := by
  rw [getElem?_insert_nat, getElem?_insert_nat]
  split
  · next heq =>
    subst heq
    simp only [Option.some.injEq, Prod.mk.injEq]
    grind
  · split
    · next heq =>
      subst heq
      simp only [Option.some.injEq, Prod.mk.injEq]
      grind
    · grind

theorem Sound.split (h : Sound t) (hget : t[lo]? = some (hi, v)) (hlo : lo < a) (hhi : a < hi) :
    SplitOf t ((t.insert lo (a, v)).insert a (hi, v)) a := by
  have hfree : ∀ {k e : Nat} {w : τ}, t[k]? = some (e, w) → k ≠ lo → e ≤ lo ∨ hi ≤ k := by
    intro k e w hk hne
    rcases Nat.lt_or_gt_of_ne hne with hlt | hgt
    · exact Or.inl (h.apart hk hget hlt)
    · exact Or.inr (h.apart hget hk hgt)
  constructor
  · constructor
    · intro k e w hk
      rcases (getElem?_split hlo).mp hk with ⟨rfl, rfl, rfl⟩ | ⟨rfl, rfl, rfl⟩ | ⟨-, -, hold⟩
      · exact hhi
      · exact hlo
      · exact h.proper hold
    · intro k e k' e' w w' hk hk' hlt
      rcases (getElem?_split hlo).mp hk with ⟨rfl, rfl, rfl⟩ | ⟨rfl, rfl, rfl⟩ | ⟨-, hnl, hold⟩ <;>
      rcases (getElem?_split hlo).mp hk' with ⟨rfl, rfl, rfl⟩ | ⟨rfl, rfl, rfl⟩ | ⟨-, hnl', hold'⟩
      · omega
      · omega
      · have := hfree hold' hnl'
        have := h.proper hold'
        omega
      · exact Nat.le_refl _
      · omega
      · have := hfree hold' hnl'
        have := h.proper hold'
        omega
      · have := hfree hold hnl
        omega
      · exact h.apart hold hget hlt
      · exact h.apart hold hold' hlt
  · intro x w
    constructor
    · intro hx
      obtain ⟨k, e, hk, hle, hlt⟩ := hx
      rcases (getElem?_split hlo).mp hk with ⟨rfl, rfl, rfl⟩ | ⟨rfl, rfl, rfl⟩ | ⟨-, -, hold⟩
      · exact ⟨lo, _, hget, by omega, hlt⟩
      · exact ⟨_, hi, hget, hle, by omega⟩
      · exact ⟨k, e, hold, hle, hlt⟩
    · intro hx
      obtain ⟨k, e, hk, hle, hlt⟩ := hx
      by_cases hkl : k = lo
      · subst hkl
        rw [hget] at hk
        cases hk
        by_cases hxa : x < a
        · exact ⟨k, a, (getElem?_split hlo).mpr (Or.inr (Or.inl ⟨rfl, rfl, rfl⟩)), hle, hxa⟩
        · exact ⟨a, hi, (getElem?_split hlo).mpr (Or.inl ⟨rfl, rfl, rfl⟩), by omega, hlt⟩
      · have hka : k ≠ a := by
          have := hfree hk hkl
          have := h.proper hk
          omega
        exact ⟨k, e, (getElem?_split hlo).mpr (Or.inr (Or.inr ⟨hka, hkl, hk⟩)), hle, hlt⟩
  · intro k e w hk hin
    rcases (getElem?_split hlo).mp hk with ⟨rfl, rfl, rfl⟩ | ⟨rfl, rfl, rfl⟩ | ⟨-, hne, hold⟩
    · omega
    · omega
    · have := hfree hold hne
      omega
  · intro b hb k e w hk hin
    rcases (getElem?_split hlo).mp hk with ⟨rfl, rfl, rfl⟩ | ⟨rfl, rfl, rfl⟩ | ⟨-, -, hold⟩
    · exact hb lo _ _ hget (by omega)
    · exact hb _ hi _ hget (by omega)
    · exact hb k e w hold hin
  · intro b hseam
    obtain ⟨k, e, w, hk, hb⟩ := hseam
    by_cases hba : b = a
    · exact Or.inr hba
    · apply Or.inl
      rcases (getElem?_split hlo).mp hb with ⟨rfl, -, -⟩ | ⟨rfl, rfl, rfl⟩ | ⟨-, -, hnext⟩
      · exact absurd rfl hba
      · rcases (getElem?_split hlo).mp hk with ⟨rfl, rfl, -⟩ | ⟨rfl, rfl, -⟩ | ⟨-, -, hold⟩
        · omega
        · omega
        · exact ⟨k, hi, w, hold, hget⟩
      · rcases (getElem?_split hlo).mp hk with ⟨rfl, rfl, rfl⟩ | ⟨rfl, rfl, rfl⟩ | ⟨-, -, hold⟩
        · exact ⟨lo, e, w, hget, hnext⟩
        · exact absurd rfl hba
        · exact ⟨k, e, w, hold, hnext⟩

theorem Sound.splitAt (h : Sound t) (a : Nat) : SplitOf t (splitAt t a) a := by
  unfold IntervalMap.splitAt
  cases hrun : runAt t a with
  | none =>
    apply SplitOf.same h
    intro lo hi v hget hin
    exact h.runAt_none hrun v ⟨lo, hi, hget, hin.1.le, hin.2⟩
  | some run =>
    obtain ⟨lo, hi, v⟩ := run
    obtain ⟨hget, hle, hlt⟩ := h.runAt_iff.mp hrun
    dsimp only
    by_cases hlo : lo < a
    · rw [if_pos hlo]
      exact h.split hget hlo hlt
    · rw [if_neg hlo]
      apply SplitOf.same h
      intro lo' hi' v' hget' hin
      have := h.span_unique hget hget' ⟨hle, hlt⟩ ⟨hin.1.le, hin.2⟩
      omega

end Split

/-! ## Taking out the runs of a stretch -/

section Erase

variable {t : IntervalMap τ} {lo hi : Nat}

theorem getElem?_eraseAll (t : IntervalMap τ) (starts : List Nat) (k : Nat) :
    (eraseAll t starts)[k]? = if k ∈ starts then none else t[k]? := by
  induction starts generalizing t with
  | nil => simp [eraseAll]
  | cons start starts ih =>
    show (eraseAll (t.erase start) starts)[k]? = _
    rw [ih, getElem?_erase_nat]
    by_cases hmem : k ∈ starts
    · simp [hmem]
    · by_cases hk : start = k
      · simp [hk]
      · simp [hmem, hk, Ne.symm hk]

theorem getElem?_eraseIn {k e : Nat} {w : τ} :
    (eraseAll t (startsIn t lo hi))[k]? = some (e, w) ↔
      t[k]? = some (e, w) ∧ ¬ (lo ≤ k ∧ k < hi) := by
  have hmem : k ∈ startsIn t lo hi ↔ (t[k]?).isSome = true ∧ lo ≤ k ∧ k < hi := by
    simp only [startsIn, List.mem_filter, List.mem_map, Prod.exists, Nearest.mem_toList,
      decide_eq_true_eq, Option.isSome_iff_exists]
    grind
  rw [getElem?_eraseAll]
  by_cases hin : k ∈ startsIn t lo hi
  · rw [if_pos hin]
    simp [(hmem.mp hin).2]
  · rw [if_neg hin]
    constructor
    · intro hk
      exact ⟨hk, fun hbounds => hin (hmem.mpr ⟨by simp [hk], hbounds⟩)⟩
    · exact fun hk => hk.1

theorem Sound.eraseIn (h : Sound t) (lo hi : Nat) :
    Sound (eraseAll t (startsIn t lo hi)) := by
  constructor
  · intro k e w hk
    exact h.proper (getElem?_eraseIn.mp hk).1
  · intro k e k' e' w w' hk hk' hlt
    exact h.apart (getElem?_eraseIn.mp hk).1 (getElem?_eraseIn.mp hk').1 hlt

theorem holds_eraseIn (hlo : CutAt t lo) (hhi : CutAt t hi) (x : Nat) (w : τ) :
    Holds (eraseAll t (startsIn t lo hi)) x w ↔ Holds t x w ∧ ¬ (lo ≤ x ∧ x < hi) := by
  constructor
  · intro hx
    obtain ⟨k, e, hk, hle, hlt⟩ := hx
    obtain ⟨hk, hout⟩ := getElem?_eraseIn.mp hk
    have := hlo k e w hk
    exact ⟨⟨k, e, hk, hle, hlt⟩, by omega⟩
  · intro hx
    obtain ⟨⟨k, e, hk, hle, hlt⟩, hout⟩ := hx
    have := hhi k e w hk
    exact ⟨k, e, getElem?_eraseIn.mpr ⟨hk, by omega⟩, hle, hlt⟩

end Erase

/-! ## Joining -/

section Join

variable {t : IntervalMap τ} {before a stop : Nat} {v : τ}

/-- What joining at a place leaves: the same bytes, and the other seams only. -/
structure JoinOf (t t' : IntervalMap τ) (a : Nat) : Prop where
  sound : Sound t'
  holds : ∀ x v, Holds t' x v ↔ Holds t x v
  seams : ∀ b, Seam t' b → Seam t b ∧ b ≠ a

theorem JoinOf.same (h : Sound t) (hseam : ¬ Seam t a) : JoinOf t t a := by
  constructor
  · exact h
  · exact fun _ _ => Iff.rfl
  · intro b hb
    apply And.intro hb
    intro heq
    exact hseam (heq ▸ hb)

theorem getElem?_join {k e : Nat} {w : τ} :
    ((t.erase a).insert before (stop, v))[k]? = some (e, w) ↔
      (k = before ∧ e = stop ∧ w = v) ∨ (k ≠ before ∧ k ≠ a ∧ t[k]? = some (e, w)) := by
  rw [getElem?_insert_nat, getElem?_erase_nat]
  split
  · next heq =>
    subst heq
    simp only [Option.some.injEq, Prod.mk.injEq]
    grind
  · grind

theorem Sound.join (h : Sound t) (hbefore : t[before]? = some (a, v))
    (hget : t[a]? = some (stop, v)) : JoinOf t ((t.erase a).insert before (stop, v)) a := by
  have hlt := h.proper hbefore
  have hstop := h.proper hget
  have hfree : ∀ {k e : Nat} {w : τ}, t[k]? = some (e, w) → k ≠ before → k ≠ a →
      e ≤ before ∨ stop ≤ k := by
    intro k e w hk hnb hna
    rcases Nat.lt_or_gt_of_ne hnb with hbelow | habove
    · exact Or.inl (h.apart hk hbefore hbelow)
    · have := h.apart hbefore hk habove
      exact Or.inr (h.apart hget hk (by omega))
  constructor
  · constructor
    · intro k e w hk
      rcases getElem?_join.mp hk with ⟨rfl, rfl, rfl⟩ | ⟨-, -, hold⟩
      · omega
      · exact h.proper hold
    · intro k e k' e' w w' hk hk' hkk
      rcases getElem?_join.mp hk with ⟨rfl, rfl, rfl⟩ | ⟨-, -, hold⟩ <;>
      rcases getElem?_join.mp hk' with ⟨rfl, rfl, rfl⟩ | ⟨hnb', hna', hold'⟩
      · omega
      · have := hfree hold' hnb' hna'
        have := h.proper hold'
        omega
      · exact h.apart hold hbefore hkk
      · exact h.apart hold hold' hkk
  · intro x w
    constructor
    · intro hx
      obtain ⟨k, e, hk, hle, hxe⟩ := hx
      rcases getElem?_join.mp hk with ⟨rfl, rfl, rfl⟩ | ⟨-, -, hk⟩
      · by_cases hxa : x < a
        · exact ⟨k, a, hbefore, hle, hxa⟩
        · exact ⟨a, e, hget, by omega, hxe⟩
      · exact ⟨k, e, hk, hle, hxe⟩
    · intro hx
      obtain ⟨k, e, hk, hle, hxe⟩ := hx
      have hjoined : before ≤ x → x < stop → w = v →
          Holds ((t.erase a).insert before (stop, v)) x w := by
        intro hbx hxs heq
        exact ⟨before, stop, getElem?_join.mpr (Or.inl ⟨rfl, rfl, heq⟩), hbx, hxs⟩
      by_cases hkb : k = before
      · subst hkb
        rw [hbefore] at hk
        cases hk
        exact hjoined hle (by omega) rfl
      · by_cases hka : k = a
        · subst hka
          rw [hget] at hk
          cases hk
          exact hjoined (by omega) hxe rfl
        · exact ⟨k, e, getElem?_join.mpr (Or.inr ⟨hkb, hka, hk⟩), hle, hxe⟩
  · intro b hseam
    obtain ⟨k, e, w, hk, hb⟩ := hseam
    rcases getElem?_join.mp hb with ⟨rfl, rfl, rfl⟩ | ⟨-, hba, hnext⟩
    · apply And.intro _ hlt.ne
      rcases getElem?_join.mp hk with ⟨rfl, rfl, -⟩ | ⟨-, -, hold⟩
      · omega
      · exact ⟨k, a, w, hold, hbefore⟩
    · apply And.intro _ hba
      rcases getElem?_join.mp hk with ⟨rfl, rfl, rfl⟩ | ⟨-, -, hold⟩
      · exact ⟨a, e, w, hget, hnext⟩
      · exact ⟨k, e, w, hold, hnext⟩

theorem Sound.joinAt [DecidableEq τ] (h : Sound t) (a : Nat) : JoinOf t (joinAt t a) a := by
  -- a run ending where another starts is the last to start below it
  have hlast : ∀ {k : Nat} {w : τ}, t[k]? = some (a, w) → lastLT t a = some (k, a, w) := by
    intro k w hk
    apply Nearest.last_eq_some hk (decide_eq_true (h.proper hk))
    intro k' b hk' hlt
    by_contra hgt
    have := h.apart hk hk' (Nat.not_le.mp hgt)
    have := of_decide_eq_true hlt
    omega
  have hseam : Seam t a → ∃ (k hi : Nat) (w : τ), t[a]? = some (hi, w) ∧
      lastLT t a = some (k, a, w) ∧ t[k]? = some (a, w) := by
    intro hseam
    obtain ⟨k, hi, w, hk, hget⟩ := hseam
    exact ⟨k, hi, w, hget, hlast hk, hk⟩
  unfold IntervalMap.joinAt
  cases hget : t[a]? with
  | none =>
    apply JoinOf.same h
    intro hs
    obtain ⟨k, hi, w, hget', -, -⟩ := hseam hs
    rw [hget] at hget'
    cases hget'
  | some run =>
    obtain ⟨stop, v⟩ := run
    dsimp only
    cases hbelow : lastLT t a with
    | none =>
      apply JoinOf.same h
      intro hs
      obtain ⟨k, hi, w, -, hlast', -⟩ := hseam hs
      rw [hbelow] at hlast'
      cases hlast'
    | some entry =>
      obtain ⟨before, beforeStop, w⟩ := entry
      dsimp only
      by_cases hmeet : beforeStop = a ∧ w = v
      · rw [if_pos hmeet]
        obtain ⟨rfl, rfl⟩ := hmeet
        exact h.join (Nearest.last_mem hbelow).1 hget
      · rw [if_neg hmeet]
        apply JoinOf.same h
        intro hs
        obtain ⟨k, hi, u, hget', hlast', -⟩ := hseam hs
        rw [hget] at hget'
        rw [hbelow] at hlast'
        cases hget'
        cases hlast'
        exact hmeet ⟨rfl, rfl⟩

end Join

/-! ## Painting -/

section Paint

variable [DecidableEq τ] {t : IntervalMap τ} {lo hi : Nat}

/-- Painting a stretch gives its bytes the value and leaves every other; the map keeps the fewest
runs. -/
theorem Sound.paint (h : Sound t) (hm : Merged t) (hlt : lo < hi) (v : τ) :
    Sound (paint t lo hi v) ∧ Merged (paint t lo hi v) ∧
      ∀ x w, Holds (paint t lo hi v) x w ↔
        (lo ≤ x ∧ x < hi ∧ w = v) ∨ (Holds t x w ∧ ¬ (lo ≤ x ∧ x < hi)) := by
  have hfirst := h.splitAt lo
  have hsecond := hfirst.sound.splitAt hi
  generalize hcut : (t.splitAt lo).splitAt hi = cut at hsecond
  have hclear := hsecond.sound.eraseIn lo hi
  have hbytes := holds_eraseIn (hsecond.cuts lo hfirst.cut) hsecond.cut
  have hfresh : Fresh (eraseAll cut (startsIn cut lo hi)) lo hi := by
    intro x w hle hxh hx
    exact ((hbytes x w).mp hx).2 ⟨hle, hxh⟩
  have hsound := hclear.insert v hlt hfresh
  have hseams : ∀ b, Seam ((eraseAll cut (startsIn cut lo hi)).insert lo (hi, v)) b →
      b = lo ∨ b = hi := by
    intro b hseam
    obtain ⟨k, e, w, hk, hb⟩ := hseam
    rw [getElem?_insert_nat] at hk hb
    by_cases hbl : lo = b
    · exact Or.inl hbl.symm
    · rw [if_neg hbl] at hb
      by_cases hkl : lo = k
      · rw [if_pos hkl] at hk
        cases hk
        exact Or.inr rfl
      · rw [if_neg hkl] at hk
        have hold : Seam cut b :=
          ⟨k, e, w, (getElem?_eraseIn.mp hk).1, (getElem?_eraseIn.mp hb).1⟩
        rcases hsecond.seams b hold with hold | hbh
        · rcases hfirst.seams b hold with hold | hbl'
          · exact absurd hold (hm b)
          · exact Or.inl hbl'
        · exact Or.inr hbh
  have hjoinHi := hsound.joinAt hi
  have hjoinLo := hjoinHi.sound.joinAt lo
  unfold IntervalMap.paint
  dsimp only
  rw [hcut]
  constructor
  · exact hjoinLo.sound
  constructor
  · intro b hb
    obtain ⟨hb, hbl⟩ := hjoinLo.seams b hb
    obtain ⟨hb, hbh⟩ := hjoinHi.seams b hb
    rcases hseams b hb with heq | heq
    · exact hbl heq
    · exact hbh heq
  · intro x w
    rw [hjoinLo.holds, hjoinHi.holds, hclear.holds_insert v hlt hfresh, hbytes, hsecond.holds,
      hfirst.holds]

end Paint

/-! ## Where runs may start and end -/

section Bounds

variable {P : Nat → Prop} {t : IntervalMap τ}

/-- Every run starts and ends at places of one kind. -/
def Bounds (P : Nat → Prop) (t : IntervalMap τ) : Prop :=
  ∀ (k e : Nat) (v : τ), t[k]? = some (e, v) → P k ∧ P e

theorem Bounds.insert (h : Bounds P t) {k e : Nat} (v : τ) (hk : P k) (he : P e) :
    Bounds P (t.insert k (e, v)) := by
  intro k' e' v' hget
  rw [getElem?_insert_nat] at hget
  split at hget
  · next heq =>
    subst heq
    cases hget
    exact ⟨hk, he⟩
  · exact h k' e' v' hget

theorem Bounds.erase (h : Bounds P t) (k : Nat) : Bounds P (t.erase k) := by
  intro k' e' v' hget
  rw [getElem?_erase_nat] at hget
  split at hget
  · cases hget
  · exact h k' e' v' hget

theorem runAt_get {x lo hi : Nat} {v : τ} (hrun : runAt t x = some (lo, hi, v)) :
    t[lo]? = some (hi, v) := by
  unfold runAt at hrun
  split at hrun
  · next start stop w hlast =>
    split at hrun
    · cases hrun
      exact (Nearest.last_mem hlast).1
    · cases hrun
  · cases hrun

theorem Bounds.splitAt (h : Bounds P t) {a : Nat} (ha : P a) : Bounds P (splitAt t a) := by
  unfold IntervalMap.splitAt
  split
  · next start stop v hrun =>
    split
    · obtain ⟨hstart, hstop⟩ := h start stop v (runAt_get hrun)
      exact (h.insert v hstart ha).insert v ha hstop
    · exact h
  · exact h

theorem Bounds.eraseAll (h : Bounds P t) (starts : List Nat) : Bounds P (eraseAll t starts) := by
  induction starts generalizing t with
  | nil => exact h
  | cons start starts ih => exact ih (h.erase start)

theorem Bounds.joinAt [DecidableEq τ] (h : Bounds P t) (a : Nat) : Bounds P (joinAt t a) := by
  unfold IntervalMap.joinAt
  split
  · exact h
  · next stop v hget =>
    split
    · next before beforeStop w hlast =>
      split
      · apply (h.erase a).insert v
        · exact (h before beforeStop w (Nearest.last_mem hlast).1).1
        · exact (h a stop v hget).2
      · exact h
    · exact h

theorem Bounds.paint [DecidableEq τ] (h : Bounds P t) {lo hi : Nat} (v : τ) (hlo : P lo)
    (hhi : P hi) : Bounds P (paint t lo hi v) := by
  have hcut := ((h.splitAt hlo).splitAt hhi).eraseAll
    (startsIn ((t.splitAt lo).splitAt hi) lo hi)
  exact ((hcut.insert v hlo hhi).joinAt hi).joinAt lo

end Bounds

/-! ## The runs over a stretch -/

section Over

variable {t : IntervalMap τ} {lo hi : Nat}

theorem mem_runsOver {r : Nat × Nat × τ} : r ∈ runsOver t lo hi ↔ ∃ k e w, t[k]? = some (e, w) ∧
    (runAt t lo).elim lo Prod.fst ≤ k ∧ k < hi ∧ r = (max k lo, min e hi, w) ∧ r.1 < r.2.1 := by
  unfold runsOver
  constructor
  · intro hr
    obtain ⟨hr, hlt⟩ := List.mem_filter.mp hr
    obtain ⟨⟨k, e, w⟩, hmem, rfl⟩ := List.mem_map.mp hr
    obtain ⟨hmem, hin⟩ := List.mem_filter.mp hmem
    obtain ⟨hfirst, hk⟩ := of_decide_eq_true hin
    exact ⟨k, e, w, mem_toList.mp hmem, hfirst, hk, rfl, of_decide_eq_true hlt⟩
  · intro hr
    obtain ⟨k, e, w, hget, hfirst, hk, rfl, hlt⟩ := hr
    apply List.mem_filter.mpr
    apply And.intro _ (decide_eq_true hlt)
    apply List.mem_map.mpr
    exact ⟨(k, e, w), List.mem_filter.mpr ⟨mem_toList.mpr hget, decide_eq_true ⟨hfirst, hk⟩⟩, rfl⟩

theorem Sound.runsOver_ordered (h : Sound t) :
    Spans.Ordered Prod.fst (fun r => r.2.1) (runsOver t lo hi) := by
  apply List.Pairwise.filter
  apply List.pairwise_map.mpr
  apply (h.ordered_toList.filter _).imp
  intro e e' hle
  have hle : e.2.1 ≤ e'.1 := hle
  show min e.2.1 hi ≤ max e'.1 lo
  omega

theorem runsOver_proper : Spans.Proper Prod.fst (fun r => r.2.1) (runsOver t lo hi) := by
  intro r hr
  obtain ⟨-, -, -, -, -, -, -, hlt⟩ := mem_runsOver.mp hr
  exact hlt

theorem runsOver_within {r : Nat × Nat × τ} (hr : r ∈ runsOver t lo hi) :
    lo ≤ r.1 ∧ r.1 < r.2.1 ∧ r.2.1 ≤ hi := by
  obtain ⟨k, e, w, -, -, -, rfl, hlt⟩ := mem_runsOver.mp hr
  exact ⟨Nat.le_max_right k lo, hlt, Nat.min_le_right e hi⟩

theorem Bounds.runsOver {P : Nat → Prop} (h : Bounds P t) (hlo : P lo) (hhi : P hi)
    {r : Nat × Nat × τ} (hr : r ∈ runsOver t lo hi) : P r.1 ∧ P r.2.1 := by
  obtain ⟨k, e, w, hget, -, -, rfl, -⟩ := mem_runsOver.mp hr
  obtain ⟨hk, he⟩ := h k e w hget
  constructor
  · rcases Nat.le_total k lo with hle | hle
    · rw [Nat.max_eq_right hle]
      exact hlo
    · rw [Nat.max_eq_left hle]
      exact hk
  · rcases Nat.le_total e hi with hle | hle
    · rw [Nat.min_eq_left hle]
      exact he
    · rw [Nat.min_eq_right hle]
      exact hhi

/-- The runs over a stretch hold its bytes, and nothing past it. -/
theorem Sound.runsOver_holds (h : Sound t) (lo hi x : Nat) (w : τ) :
    (∃ r ∈ runsOver t lo hi, r.1 ≤ x ∧ x < r.2.1 ∧ r.2.2 = w) ↔
      lo ≤ x ∧ x < hi ∧ Holds t x w := by
  constructor
  · intro hx
    obtain ⟨r, hr, hle, hlt, hw⟩ := hx
    obtain ⟨k, e, v, hget, -, -, rfl, -⟩ := mem_runsOver.mp hr
    subst hw
    dsimp only at hle hlt
    exact ⟨by omega, by omega, k, e, hget, by omega, by omega⟩
  · intro hx
    obtain ⟨hlo, hhi, k, e, hget, hle, hlt⟩ := hx
    have hfirst : (runAt t lo).elim lo Prod.fst ≤ k := by
      cases hrun : runAt t lo with
      | none =>
        by_contra hgt
        exact h.runAt_none hrun w ⟨k, e, hget, (Nat.not_le.mp hgt).le, by omega⟩
      | some run =>
        obtain ⟨s, e', v⟩ := run
        obtain ⟨hs, hsle, hslt⟩ := h.runAt_iff.mp hrun
        show s ≤ k
        by_contra hgt
        have := h.span_unique hget hs ⟨by omega, by omega⟩ ⟨hsle, hslt⟩
        omega
    exact ⟨_, mem_runsOver.mpr ⟨k, e, w, hget, hfirst, by omega, rfl, by dsimp only; omega⟩,
      by dsimp only; omega, by dsimp only; omega, rfl⟩

end Over

end IntervalMap

end Orbistoun.Lib
