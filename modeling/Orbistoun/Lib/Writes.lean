import Mathlib.Tactic

/-! # Stretches of values written into a memory

A write puts a list of values at consecutive addresses. After a list of writes an address
holds what the last of those that reach it put there, and what it held before where none
does.
-/

namespace Orbistoun.Lib.Writes

variable {V : Type}

/-- Values put at consecutive addresses. -/
structure Write (V : Type) where
  start : Nat
  values : List V
  deriving DecidableEq, Repr

def Write.at? (w : Write V) (x : Nat) : Option V :=
  if w.start ≤ x then w.values[x - w.start]? else none

def Write.Reaches (w : Write V) (x : Nat) : Prop :=
  w.start ≤ x ∧ x < w.start + w.values.length

instance (w : Write V) (x : Nat) : Decidable (w.Reaches x) :=
  inferInstanceAs (Decidable (_ ∧ _))

def apply (memory : Nat → V) : List (Write V) → Nat → V
  | [] => memory
  | w :: rest => apply (fun x => (w.at? x).getD (memory x)) rest

def last? : List (Write V) → Nat → Option V
  | [], _ => none
  | w :: rest, x => (last? rest x).or (w.at? x)

theorem at?_mk (start : Nat) (values : List V) (x : Nat) :
    Write.at? ⟨start, values⟩ x = if start ≤ x then values[x - start]? else none :=
  rfl

theorem at?_eq_none {w : Write V} {x : Nat} (h : ¬ w.Reaches x) : w.at? x = none := by
  unfold Write.at?
  unfold Write.Reaches at h
  split
  · rw [List.getElem?_eq_none]
    omega
  · rfl

theorem at?_eq_some {w : Write V} {k : Nat} {v : V} (h : w.values[k]? = some v) :
    w.at? (w.start + k) = some v := by
  unfold Write.at?
  rw [if_pos (Nat.le_add_right _ _), Nat.add_sub_cancel_left, h]

theorem last?_append (first second : List (Write V)) (x : Nat) :
    last? (first ++ second) x = (last? second x).or (last? first x) := by
  induction first with
  | nil => simp [last?]
  | cons w first ih => rw [List.cons_append, last?, last?, ih, Option.or_assoc]

theorem last?_eq_none {writes : List (Write V)} {x : Nat}
    (h : ∀ w ∈ writes, ¬ w.Reaches x) : last? writes x = none := by
  induction writes with
  | nil => rfl
  | cons w writes ih =>
      rw [last?, ih (fun w' hw' => h w' (List.mem_cons_of_mem _ hw')),
        at?_eq_none (h w List.mem_cons_self)]
      rfl

theorem at?_isSome {w : Write V} {x : Nat} : (w.at? x).isSome = true ↔ w.Reaches x := by
  unfold Write.at? Write.Reaches
  by_cases h : w.start ≤ x
  · rw [if_pos h, isSome_getElem?]
    omega
  · simp [h]

theorem last?_isSome {writes : List (Write V)} {x : Nat} :
    (last? writes x).isSome = true ↔ ∃ w ∈ writes, w.Reaches x := by
  induction writes with
  | nil => simp [last?]
  | cons w writes ih =>
      rw [last?, Option.isSome_or, Bool.or_eq_true, ih, at?_isSome, List.exists_mem_cons_iff]
      exact or_comm

/-- What is put at an address is what one of the writes puts there. -/
theorem last?_mem {writes : List (Write V)} {x : Nat} {v : V} (h : last? writes x = some v) :
    ∃ w ∈ writes, w.at? x = some v := by
  induction writes with
  | nil => cases h
  | cons w writes ih =>
      rw [last?, Option.or_eq_some_iff] at h
      rcases h with hrest | ⟨-, hfirst⟩
      · obtain ⟨w', hw', hat⟩ := ih hrest
        exact ⟨w', List.mem_cons_of_mem w hw', hat⟩
      · exact ⟨w, List.mem_cons_self, hfirst⟩

/-- An address holds what the last write to reach it put there. -/
theorem apply_eq (memory : Nat → V) (writes : List (Write V)) (x : Nat) :
    apply memory writes x = (last? writes x).getD (memory x) := by
  induction writes generalizing memory with
  | nil => rfl
  | cons w writes ih =>
      rw [apply, ih, last?]
      cases last? writes x <;> rfl

/-- Two writes reach no address together. -/
def Write.Apart (v w : Write V) : Prop :=
  v.start + v.values.length ≤ w.start ∨ w.start + w.values.length ≤ v.start

/-- Where no two writes reach an address together, what one puts there stays. -/
theorem last?_of_apart {writes : List (Write V)} (h : writes.Pairwise Write.Apart) {w : Write V}
    (hw : w ∈ writes) {x : Nat} {v : V} (hv : w.at? x = some v) : last? writes x = some v := by
  have hreach : w.Reaches x := at?_isSome.mp (by rw [hv]; rfl)
  induction writes with
  | nil => cases hw
  | cons first writes ih =>
      obtain ⟨hfirst, hrest⟩ := List.pairwise_cons.mp h
      rw [last?]
      rcases List.mem_cons.mp hw with rfl | hw
      · have hnone : last? writes x = none := by
          apply last?_eq_none
          intro w' hw' hreach'
          have hapart := hfirst w' hw'
          unfold Write.Apart at hapart
          unfold Write.Reaches at hreach hreach'
          omega
        rw [hnone, hv]
        rfl
      · rw [ih hrest hw]
        rfl

end Orbistoun.Lib.Writes
