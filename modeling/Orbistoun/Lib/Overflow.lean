import Mathlib.Tactic

/-! # Thirty-two-bit arithmetic that may overflow

One program built twice: with its overflow checks, where an operation that overflows ends the
program, and without, where the result wraps and a shift's amount is taken by its low five bits.
A result of the checked build is exact, and the unchecked build has the same.
-/

namespace Orbistoun.Lib

/-- What a build does where an operation overflows. -/
inductive Overflow where
  | traps
  | wraps
  deriving DecidableEq, Repr

namespace Overflow

/-- The wrapped result, unless the operation overflows in a build that traps. -/
def guard (o : Overflow) (overflows : Bool) (wrapped : UInt32) : Option UInt32 :=
  if o = .traps ∧ overflows = true then none else some wrapped

def add (o : Overflow) (x y : UInt32) : Option UInt32 :=
  o.guard (decide (2 ^ 32 ≤ x.toNat + y.toNat)) (x + y)

def sub (o : Overflow) (x y : UInt32) : Option UInt32 :=
  o.guard (decide (x.toNat < y.toNat)) (x - y)

def mul (o : Overflow) (x y : UInt32) : Option UInt32 :=
  o.guard (decide (2 ^ 32 ≤ x.toNat * y.toNat)) (x * y)

def shl (o : Overflow) (x amount : UInt32) : Option UInt32 :=
  o.guard (decide (32 ≤ amount.toNat)) (x <<< amount)

def shr (o : Overflow) (x amount : UInt32) : Option UInt32 :=
  o.guard (decide (32 ≤ amount.toNat)) (x >>> amount)

theorem guard_traps {overflows : Bool} {wrapped z : UInt32}
    (h : traps.guard overflows wrapped = some z) : overflows = false ∧ z = wrapped := by
  unfold guard at h
  split at h
  · cases h
  · next hfits =>
    cases h
    exact ⟨Bool.eq_false_iff.mpr (fun hover => hfits ⟨rfl, hover⟩), rfl⟩

theorem add_traps {x y z : UInt32} (h : traps.add x y = some z) :
    z.toNat = x.toNat + y.toNat := by
  obtain ⟨hfits, rfl⟩ := guard_traps h
  rw [UInt32.toNat_add, Nat.mod_eq_of_lt (Nat.not_le.mp (of_decide_eq_false hfits))]

theorem mul_traps {x y z : UInt32} (h : traps.mul x y = some z) :
    z.toNat = x.toNat * y.toNat := by
  obtain ⟨hfits, rfl⟩ := guard_traps h
  rw [UInt32.toNat_mul, Nat.mod_eq_of_lt (Nat.not_le.mp (of_decide_eq_false hfits))]

/-! ## Both builds alike -/

/-- What the checked build computes, every build does. -/
def Agrees {α : Type} (f : Overflow → Option α) : Prop :=
  ∀ o a, f traps = some a → f o = some a

section Agrees

variable {α β : Type}

theorem Agrees.const (a : Option α) : Agrees (fun _ => a) := fun _ _ h => h

theorem agrees_guard (overflows : Bool) (wrapped : UInt32) :
    Agrees (fun o => o.guard overflows wrapped) := by
  intro o z h
  obtain ⟨hfits, rfl⟩ := guard_traps h
  exact if_neg (fun hover => Bool.false_ne_true (hfits.symm.trans hover.2))

theorem agrees_add (x y : UInt32) : Agrees (fun o => o.add x y) := agrees_guard _ _

theorem agrees_sub (x y : UInt32) : Agrees (fun o => o.sub x y) := agrees_guard _ _

theorem agrees_mul (x y : UInt32) : Agrees (fun o => o.mul x y) := agrees_guard _ _

theorem agrees_shl (x y : UInt32) : Agrees (fun o => o.shl x y) := agrees_guard _ _

theorem agrees_shr (x y : UInt32) : Agrees (fun o => o.shr x y) := agrees_guard _ _

theorem Agrees.bind {f : Overflow → Option α} {g : Overflow → α → Option β} (hf : Agrees f)
    (hg : ∀ a, Agrees (fun o => g o a)) : Agrees (fun o => f o >>= g o) := by
  intro o b h
  obtain ⟨a, ha, hb⟩ := Option.bind_eq_some_iff.mp h
  exact Option.bind_eq_some_iff.mpr ⟨a, hf o a ha, hg a o b hb⟩

theorem Agrees.map {f : Overflow → Option α} (hf : Agrees f) (g : α → β) :
    Agrees (fun o => (f o).map g) := by
  intro o b h
  obtain ⟨a, ha, hb⟩ := Option.map_eq_some_iff.mp h
  exact Option.map_eq_some_iff.mpr ⟨a, hf o a ha, hb⟩

theorem Agrees.anyM {f : Overflow → α → Option Bool} (hf : ∀ a, Agrees (fun o => f o a))
    (l : List α) : Agrees (fun o => l.anyM (f o)) := by
  induction l with
  | nil => exact Agrees.const _
  | cons a l ih =>
    simp only [List.anyM]
    apply Agrees.bind (hf a)
    intro b
    cases b with
    | true => exact Agrees.const _
    | false => exact ih

theorem Agrees.findSomeM? {f : Overflow → α → Option (Option β)}
    (hf : ∀ a, Agrees (fun o => f o a)) (l : List α) :
    Agrees (fun o => l.findSomeM? (f o)) := by
  induction l with
  | nil => exact Agrees.const _
  | cons a l ih =>
    simp only [List.findSomeM?]
    apply Agrees.bind (hf a)
    intro b
    cases b with
    | some b => exact Agrees.const _
    | none => exact ih

theorem Agrees.mapM {f : Overflow → α → Option β} (hf : ∀ a, Agrees (fun o => f o a))
    (l : List α) : Agrees (fun o => l.mapM (f o)) := by
  induction l with
  | nil => exact Agrees.const _
  | cons a l ih =>
    simp only [List.mapM_cons]
    apply Agrees.bind (hf a)
    intro b
    apply Agrees.bind ih
    intro bs
    exact Agrees.const _

end Agrees

end Overflow

end Orbistoun.Lib
