import Orbistoun.Lib.U64

/-! # Runs that stop at a fault

A run gives a value, refuses with an error of its own, or is stopped: at a sum or a product
past the machine's word, at a difference below zero, at a slice outside its list. A function
written with these steps is exact where its run is the plain function's, lifted.
-/

namespace Orbistoun.Lib.Trap

open Orbistoun.Lib.U64 (bound)

/-- Why a run gives no value. -/
inductive Stop (ε : Type) where
  | refused (error : ε)
  | panicked
  deriving DecidableEq, Repr

abbrev Run (ε α : Type) := Except (Stop ε) α

variable {ε α β : Type}

def refuse (error : ε) : Run ε α := .error (.refused error)

def fault : Run ε α := .error .panicked

def Calm (run : Run ε α) : Prop := run ≠ .error .panicked

instance [DecidableEq ε] [DecidableEq α] (run : Run ε α) : Decidable (Calm run) :=
  inferInstanceAs (Decidable (¬ run = .error .panicked))

/-- A plain function's answer, as a run. -/
def lift : Except ε α → Run ε α
  | .ok a => .ok a
  | .error e => refuse e

@[simp]
theorem lift_ok (a : α) : lift (.ok a : Except ε α) = .ok a := rfl

@[simp]
theorem lift_error (e : ε) : lift (.error e : Except ε α) = refuse e := rfl

theorem lift_bind (x : Except ε α) (f : α → Except ε β) :
    lift (x >>= f) = lift x >>= fun a => lift (f a) := by
  cases x <;> rfl

theorem calm_lift (x : Except ε α) : Calm (lift x) := by
  intro h
  cases x <;> cases h

@[simp]
theorem calm_ok (a : α) : Calm (.ok a : Run ε α) := by
  intro h
  cases h

@[simp]
theorem calm_pure (a : α) : Calm (pure a : Run ε α) := calm_ok a

@[simp]
theorem calm_refuse (e : ε) : Calm (refuse e : Run ε α) := by
  intro h
  cases h

@[simp]
theorem not_calm_fault : ¬ Calm (fault : Run ε α) := fun h => h rfl

@[simp]
theorem ok_bind (a : α) (f : α → Run ε β) : (Except.ok a >>= f) = f a := rfl

@[simp]
theorem refuse_bind (e : ε) (f : α → Run ε β) : ((refuse e : Run ε α) >>= f) = refuse e := rfl

/-- A run of two parts is calm where the first is and the second is after whatever the first
gives. -/
theorem calm_bind_iff (x : Run ε α) (f : α → Run ε β) :
    Calm (x >>= f) ↔ Calm x ∧ ∀ a, x = .ok a → Calm (f a) := by
  cases x with
  | ok a =>
      show Calm (f a) ↔ _
      simp [calm_ok]
  | error stop =>
      cases stop with
      | refused e =>
          show Calm (refuse e) ↔ Calm (refuse e) ∧ _
          simp [calm_refuse]
      | panicked =>
          show Calm fault ↔ Calm fault ∧ _
          simp [not_calm_fault]

@[simp]
theorem refuse_ne_ok (e : ε) (a : α) : (refuse e : Run ε α) ≠ .ok a := by
  intro h
  cases h

theorem calm_map_iff (f : α → β) (x : Run ε α) : Calm (f <$> x) ↔ Calm x := by
  cases x with
  | ok a => exact ⟨fun _ => calm_ok _, fun _ => calm_ok _⟩
  | error stop =>
      constructor
      · intro h hstop
        cases hstop
        exact h rfl
      · intro h hstop
        cases hstop
        exact h rfl

def Gives (run : Run ε α) : Prop := ∃ a, run = .ok a

theorem Gives.calm {run : Run ε α} (h : Gives run) : Calm run := by
  obtain ⟨a, rfl⟩ := h
  exact calm_ok a

theorem gives_pure (a : α) : Gives (pure a : Run ε α) := ⟨a, rfl⟩

theorem Gives.bind {x : Run ε α} {f : α → Run ε β} (hx : Gives x) (hf : ∀ a, Gives (f a)) :
    Gives (x >>= f) := by
  obtain ⟨a, rfl⟩ := hx
  exact hf a

theorem mapM_lift {xs : List α} {run : α → Run ε β} {plain : α → Except ε β}
    (h : ∀ x ∈ xs, run x = lift (plain x)) : xs.mapM run = lift (xs.mapM plain) := by
  induction xs with
  | nil => rfl
  | cons x xs ih =>
      have hrest := ih (fun y hy => h y (List.mem_cons_of_mem x hy))
      rw [List.mapM_cons, List.mapM_cons, h x List.mem_cons_self, hrest]
      cases plain x with
      | error e => rfl
      | ok y => cases xs.mapM plain <;> rfl

/-! ## The steps that can stop a run -/

def add (a b : Nat) : Run ε Nat := if a + b < bound then .ok (a + b) else fault

def mul (a b : Nat) : Run ε Nat := if a * b < bound then .ok (a * b) else fault

def sub (a b : Nat) : Run ε Nat := if b ≤ a then .ok (a - b) else fault

def sliceFrom (xs : List α) (start : Nat) : Run ε (List α) :=
  if start ≤ xs.length then .ok (xs.drop start) else fault

def slice (xs : List α) (start stop : Nat) : Run ε (List α) :=
  if start ≤ stop ∧ stop ≤ xs.length then .ok ((xs.drop start).take (stop - start)) else fault

theorem add_ok {a b : Nat} (h : a + b < bound) : (add a b : Run ε Nat) = .ok (a + b) := if_pos h

theorem mul_ok {a b : Nat} (h : a * b < bound) : (mul a b : Run ε Nat) = .ok (a * b) := if_pos h

theorem sub_ok {a b : Nat} (h : b ≤ a) : (sub a b : Run ε Nat) = .ok (a - b) := if_pos h

theorem sliceFrom_ok {xs : List α} {start : Nat} (h : start ≤ xs.length) :
    (sliceFrom xs start : Run ε (List α)) = .ok (xs.drop start) := if_pos h

theorem slice_ok {xs : List α} {start stop : Nat} (h : start ≤ stop) (h' : stop ≤ xs.length) :
    (slice xs start stop : Run ε (List α)) = .ok ((xs.drop start).take (stop - start)) :=
  if_pos ⟨h, h'⟩

theorem gives_slice {xs : List α} {start stop : Nat} (h : start ≤ stop) (h' : stop ≤ xs.length) :
    Gives (slice xs start stop : Run ε (List α)) := ⟨_, slice_ok h h'⟩

theorem calm_add_iff (a b : Nat) : Calm (add a b : Run ε Nat) ↔ a + b < bound := by
  by_cases h : a + b < bound
  · simp [add_ok h, calm_ok, h]
  · simp [add, h, not_calm_fault]

end Orbistoun.Lib.Trap
