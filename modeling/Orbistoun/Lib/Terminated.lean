import Mathlib.Tactic

/-! # Terminated sequences

A sequence read up to its terminator or a limit, and what it is to hold a text and end.
-/

namespace Orbistoun.Lib.Terminated

variable {α : Type} {ends : α → Bool}

/-- The elements before the terminator, at most so many. -/
def upTo (ends : α → Bool) : Nat → (Nat → α) → List α
  | 0, _ => []
  | limit + 1, f => if ends (f 0) then [] else f 0 :: upTo ends limit (fun i => f (i + 1))

/-- A sequence that starts with a text and a terminator behind it. -/
structure Holds (ends : α → Bool) (f : Nat → α) (text : List α) : Prop where
  same : ∀ i (h : i < text.length), f i = text[i]
  ended : ends (f text.length)

theorem upTo_length_le (limit : Nat) (f : Nat → α) : (upTo ends limit f).length ≤ limit := by
  induction limit generalizing f with
  | zero => exact le_rfl
  | succ limit ih =>
      unfold upTo
      split
      · exact Nat.zero_le _
      · exact Nat.succ_le_succ (ih _)

theorem upTo_getElem (limit : Nat) (f : Nat → α) {i : Nat} (h : i < (upTo ends limit f).length) :
    (upTo ends limit f)[i] = f i := by
  induction limit generalizing f i with
  | zero => exact absurd h (Nat.not_lt_zero i)
  | succ limit ih =>
      by_cases hend : ends (f 0)
      · simp [upTo, hend] at h
      · cases i with
        | zero => simp [upTo, hend]
        | succ i =>
            simp only [upTo, hend, Bool.false_eq_true, if_false, List.length_cons,
              Nat.succ_lt_succ_iff] at h
            simp only [upTo, hend, Bool.false_eq_true, if_false, List.getElem_cons_succ]
            exact ih (fun i => f (i + 1)) h

theorem mem_upTo {limit : Nat} {f : Nat → α} {x : α} (h : x ∈ upTo ends limit f) :
    ∃ i, f i = x := by
  obtain ⟨i, hi, rfl⟩ := List.getElem_of_mem h
  exact ⟨i, (upTo_getElem limit f hi).symm⟩

/-- No terminator is among the elements read. -/
theorem upTo_plain (limit : Nat) (f : Nat → α) : ∀ x ∈ upTo ends limit f, ends x = false := by
  induction limit generalizing f with
  | zero => intro x hx; cases hx
  | succ limit ih =>
      by_cases hend : ends (f 0)
      · simp [upTo, hend]
      · simp only [upTo, hend, Bool.false_eq_true, if_false, List.mem_cons, forall_eq_or_imp]
        exact ⟨trivial, ih _⟩

/-- A smaller limit cuts the same text shorter. -/
theorem take_upTo {few many : Nat} (h : few ≤ many) (f : Nat → α) :
    (upTo ends many f).take few = upTo ends few f := by
  induction few generalizing many f with
  | zero => rfl
  | succ few ih =>
      obtain ⟨k, rfl⟩ := Nat.exists_eq_add_of_le' h
      by_cases hend : ends (f 0)
      · simp [upTo, hend]
      · simp only [upTo, hend, Bool.false_eq_true, if_false, List.take_succ_cons, List.cons.injEq,
          true_and]
        exact ih (Nat.le_of_succ_le_succ h) _

/-- Two limits that cut neither text short read the same. -/
theorem upTo_eq {limit other : Nat} {f : Nat → α} (h : (upTo ends limit f).length ≤ other)
    (hother : (upTo ends other f).length ≤ limit) : upTo ends limit f = upTo ends other f := by
  rcases Nat.le_total other limit with hle | hle
  · rw [← take_upTo hle, List.take_of_length_le h]
  · rw [← take_upTo hle, List.take_of_length_le hother]

theorem upTo_length_le_of_ended {limit : Nat} {f : Nat → α}
    (h : (upTo ends limit f).length < limit) (other : Nat) :
    (upTo ends other f).length ≤ (upTo ends limit f).length := by
  rcases Nat.le_total other limit with hle | hle
  · rw [← take_upTo hle, List.length_take]
    exact min_le_right _ _
  · have htake := congrArg List.length (@take_upTo α ends _ _ hle f)
    rw [List.length_take] at htake
    omega

theorem Holds.upTo_eq_take {f : Nat → α} {text : List α} (h : Holds ends f text)
    (hplain : ∀ x ∈ text, ends x = false) (limit : Nat) :
    upTo ends limit f = text.take limit := by
  induction limit generalizing f text with
  | zero => rfl
  | succ limit ih =>
      cases text with
      | nil =>
          have hended : ends (f 0) := h.ended
          simp [upTo, hended]
      | cons x text =>
          have hfirst : f 0 = x := h.same 0 (Nat.zero_lt_succ _)
          have hrest : Holds ends (fun i => f (i + 1)) text :=
            ⟨fun i hi => h.same (i + 1) (Nat.succ_lt_succ hi), h.ended⟩
          have hgoes : ends (f 0) = false := by
            rw [hfirst]
            exact hplain x List.mem_cons_self
          simp only [upTo, hgoes, Bool.false_eq_true, if_false, List.take_succ_cons]
          rw [hfirst, ih hrest (fun y hy => hplain y (List.mem_cons_of_mem x hy))]

theorem Holds.unique {f : Nat → α} {text other : List α} (h : Holds ends f text)
    (ho : Holds ends f other) (hplain : ∀ x ∈ text, ends x = false)
    (hoplain : ∀ x ∈ other, ends x = false) : text = other := by
  have hle : ∀ {a b : List α}, Holds ends f a → Holds ends f b → (∀ x ∈ b, ends x = false) →
      b.length ≤ a.length := by
    intro a b ha hb hbplain
    by_contra hlonger
    have hat : a.length < b.length := by omega
    have hend := ha.ended
    rw [hb.same _ hat, hbplain _ (List.getElem_mem hat)] at hend
    cases hend
  have hlength : text.length = other.length := le_antisymm (hle ho h hplain) (hle h ho hoplain)
  apply List.ext_getElem hlength
  intro i hi hi'
  rw [← h.same i hi, ho.same i hi']

end Orbistoun.Lib.Terminated
