import Mathlib.Data.List.Basic
import Mathlib.Tactic

/-! # Programs that step until they stop

A stepper takes one step at a time, puts out what the step did, and stops where no
step is left. Two of them run alike when they put out the same sequence, which may be
infinite, and either both stop or neither does; one of them may take many steps where
the other takes one.
-/

namespace Orbistoun.Lib

structure Stepper (σ ω : Type*) where
  step : σ → Option (List ω × σ)

namespace Stepper

variable {σ τ ω : Type*} (m : Stepper σ ω)

/-- What the first `n` steps put out and where they lead; a run that stopped stays. -/
def run : Nat → σ → List ω × σ
  | 0, s => ([], s)
  | n + 1, s =>
      match m.step s with
      | none => ([], s)
      | some (w, s') => (w ++ (run n s').1, (run n s').2)

def out (n : Nat) (s : σ) : List ω := (m.run n s).1

def last (n : Nat) (s : σ) : σ := (m.run n s).2

/-- The run from `s` comes to a state with no step. -/
def Stops (s : σ) : Prop := ∃ n, m.step (m.last n s) = none

@[simp] theorem out_zero (s : σ) : m.out 0 s = [] := rfl

@[simp] theorem last_zero (s : σ) : m.last 0 s = s := rfl

variable {m} {n : Stepper τ ω}

theorem out_succ {s s' : σ} {w : List ω} (h : m.step s = some (w, s')) (k : Nat) :
    m.out (k + 1) s = w ++ m.out k s' := by
  simp [out, run, h]

theorem last_succ {s s' : σ} {w : List ω} (h : m.step s = some (w, s')) (k : Nat) :
    m.last (k + 1) s = m.last k s' := by
  simp [last, run, h]

theorem out_of_stopped {s : σ} (h : m.step s = none) (k : Nat) : m.out k s = [] := by
  cases k <;> simp [out, run, h]

theorem last_of_stopped {s : σ} (h : m.step s = none) (k : Nat) : m.last k s = s := by
  cases k <;> simp [last, run, h]

variable (m) in
theorem last_add (j k : Nat) (s : σ) : m.last (j + k) s = m.last k (m.last j s) := by
  induction j generalizing s with
  | zero => simp
  | succ j ih =>
      rw [Nat.add_right_comm]
      cases h : m.step s with
      | none => rw [last_of_stopped h, last_of_stopped h, last_of_stopped h]
      | some p => rw [last_succ h, last_succ h, ih]

theorem out_add (j k : Nat) (s : σ) :
    m.out (j + k) s = m.out j s ++ m.out k (m.last j s) := by
  induction j generalizing s with
  | zero => simp
  | succ j ih =>
      rw [Nat.add_right_comm]
      cases h : m.step s with
      | none => rw [out_of_stopped h, out_of_stopped h, last_of_stopped h, out_of_stopped h]; rfl
      | some p => rw [out_succ h, out_succ h, last_succ h, ih, List.append_assoc]

theorem out_prefix {j k : Nat} (h : j ≤ k) (s : σ) : m.out j s <+: m.out k s := by
  obtain ⟨d, rfl⟩ := Nat.exists_eq_add_of_le h
  rw [out_add]
  exact List.prefix_append _ _

theorem run_snoc {s : σ} {k : Nat} {w : List ω} {s' : σ}
    (h : m.step (m.last k s) = some (w, s')) :
    m.out (k + 1) s = m.out k s ++ w ∧ m.last (k + 1) s = s' := by
  constructor
  · rw [out_add, out_succ h, out_zero, List.append_nil]
  · rw [last_add, last_succ h, last_zero]

/-- Once a run has stopped, longer runs put out nothing more. -/
theorem out_le_of_stopped {s : σ} {k : Nat} (h : m.step (m.last k s) = none) (j : Nat) :
    m.out j s <+: m.out k s := by
  rcases Nat.le_total j k with hle | hle
  · exact out_prefix hle s
  · obtain ⟨d, rfl⟩ := Nat.exists_eq_add_of_le hle
    rw [out_add, out_of_stopped h, List.append_nil]

/-- Two runs that put out the same sequence and stop together. -/
structure RunsAlike (m : Stepper σ ω) (s : σ) (n : Stepper τ ω) (t : τ) : Prop where
  covers : ∀ j, ∃ k, m.out j s <+: n.out k t
  covered : ∀ k, ∃ j, n.out k t <+: m.out j s
  stops : m.Stops s ↔ n.Stops t

/-- A coarse stepper whose every step is some steps of a fine one, at least one of
them unless it then stops, runs alike from related states. -/
theorem runsAlike_of_coarse {R : τ → σ → Prop}
    (hstop : ∀ t s, R t s → n.step t = none → m.step s = none)
    (hstep : ∀ t s w t', R t s → n.step t = some (w, t') →
      ∃ j, m.out j s = w ∧ R t' (m.last j s) ∧
        ((1 ≤ j ∧ m.step s ≠ none) ∨ n.step t' = none))
    {t : τ} {s : σ} (h : R t s) : RunsAlike m s n t := by
  have hreach : ∀ k t s, R t s → ∃ j, m.out j s = n.out k t ∧ R (n.last k t) (m.last j s) ∧
      (k ≤ j ∨ n.step (n.last k t) = none) := by
    intro k
    induction k with
    | zero => exact fun t s h => ⟨0, rfl, h, Or.inl (Nat.le_refl 0)⟩
    | succ k ih =>
        intro t s h
        cases ht : n.step t with
        | none =>
            rw [last_of_stopped ht, out_of_stopped ht]
            exact ⟨0, rfl, h, Or.inr ht⟩
        | some p =>
            obtain ⟨j, hout, hR, hj⟩ := hstep t s p.1 p.2 h ht
            obtain ⟨i, hout', hR', hi⟩ := ih p.2 _ hR
            rw [out_succ ht, last_succ ht]
            refine ⟨j + i, ?_, ?_, ?_⟩
            · rw [out_add, hout, hout']
            · rwa [last_add m j i s]
            · rcases hj with ⟨hj, -⟩ | hj
              · exact hi.imp (fun hi => by omega) id
              · exact Or.inr (by rwa [last_of_stopped hj])
  constructor
  · intro j
    obtain ⟨i, hout, hR, hi⟩ := hreach j t s h
    refine ⟨j, ?_⟩
    rw [← hout]
    rcases hi with hi | hi
    · exact out_prefix hi s
    · exact out_le_of_stopped (hstop _ _ hR hi) j
  · intro k
    obtain ⟨j, hout, -, -⟩ := hreach k t s h
    exact ⟨j, by rw [hout]⟩
  · constructor
    · rintro ⟨j, hj⟩
      -- After `j` coarse steps the fine run has stopped, so one more coarse step is the last.
      obtain ⟨i, -, hR, hi⟩ := hreach j t s h
      cases hp : n.step (n.last j t) with
      | none => exact ⟨j, hp⟩
      | some p =>
          have hji : j ≤ i := hi.resolve_right (by simp [hp])
          have hs : m.step (m.last i s) = none := by
            obtain ⟨d, rfl⟩ := Nat.exists_eq_add_of_le hji
            rwa [last_add, last_of_stopped hj]
          obtain ⟨d, -, -, hd⟩ := hstep _ _ p.1 p.2 hR hp
          refine ⟨j + 1, ?_⟩
          rw [(run_snoc hp).2]
          exact hd.resolve_left (fun hd => hd.2 hs)
    · rintro ⟨k, hk⟩
      obtain ⟨j, -, hR, -⟩ := hreach k t s h
      exact ⟨j, hstop _ _ hR hk⟩

end Stepper

end Orbistoun.Lib
