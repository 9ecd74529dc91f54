import Mathlib.Data.List.Basic
import Mathlib.Tactic

/-! # Sweeping a pass over lanes that share a memory

A pass turns one lane's own state and the shared memory into their next. A sweep runs it for each
lane in order. Two passes run together for each lane leave what the second swept after the first
leaves, as long as at most one of them reaches the memory or neither changes it.
-/

namespace Orbistoun.Lib.Sweep

variable {L M : Type*}

/-- One lane's work: its own state and the memory shared with the others. -/
abbrev Pass (L M : Type*) := L → M → L × M

/-- The pass run for each lane in order, the memory handed on. -/
def sweep (f : Pass L M) : List L → M → List L × M
  | [], m => ([], m)
  | l :: rest, m =>
      let one := f l m
      let others := sweep f rest one.2
      (one.1 :: others.1, others.2)

/-- One pass and then the other, for one lane. -/
def andThen (f g : Pass L M) : Pass L M := fun l m => g (f l m).1 (f l m).2

def idle : Pass L M := fun l m => (l, m)

def Leaves (f : Pass L M) : Prop := ∀ l m, (f l m).2 = m

/-- A pass whose lane is told nothing by the memory. -/
def Blind (f : Pass L M) : Prop := ∀ l m m', (f l m).1 = (f l m').1

theorem idle_leaves : Leaves (idle : Pass L M) := fun _ _ => rfl

theorem idle_blind : Blind (idle : Pass L M) := fun _ _ _ => rfl

theorem Leaves.andThen {f g : Pass L M} (hf : Leaves f) (hg : Leaves g) : Leaves (andThen f g) := by
  intro l m
  show (g (f l m).1 (f l m).2).2 = m
  rw [hg, hf]

theorem Blind.andThen {f g : Pass L M} (hf : Blind f) (hg : Blind g) : Blind (andThen f g) := by
  intro l m m'
  show (g (f l m).1 (f l m).2).1 = (g (f l m').1 (f l m').2).1
  rw [hf l m m']
  exact hg _ _ _

theorem sweep_idle (ls : List L) (m : M) : sweep idle ls m = (ls, m) := by
  induction ls with
  | nil => rfl
  | cons l rest ih => simp [sweep, idle, ih]

theorem sweep_of_leaves {f : Pass L M} (hf : Leaves f) (ls : List L) (m : M) :
    sweep f ls m = (ls.map (fun l => (f l m).1), m) := by
  induction ls with
  | nil => rfl
  | cons l rest ih => simp [sweep, hf l m, ih]

/-- Two passes apart from each other: at most one of them reaches the memory, or neither
changes it. -/
def Apart (f g : Pass L M) : Prop :=
  (Leaves f ∧ Leaves g) ∨ (Leaves f ∧ Blind f) ∨ (Leaves g ∧ Blind g)

/-- Neither changes the memory, so each lane's pass sees what the sweep found. -/
theorem sweep_andThen_of_leaves {f g : Pass L M} (hf : Leaves f) (hg : Leaves g) (ls : List L)
    (m : M) :
    sweep (andThen f g) ls m = sweep g (sweep f ls m).1 (sweep f ls m).2 := by
  rw [sweep_of_leaves (hf.andThen hg), sweep_of_leaves hf, sweep_of_leaves hg, List.map_map]
  congr 1
  apply List.map_congr_left
  intro l _
  show (g (f l m).1 (f l m).2).1 = (g (f l m).1 m).1
  rw [hf]

/-- The first pass never reaches the memory: each lane's is what it would be before the others'. -/
theorem sweep_andThen_of_left {f g : Pass L M} (hf : Leaves f) (hb : Blind f) (ls : List L)
    (m m' : M) :
    sweep (andThen f g) ls m = sweep g (sweep f ls m').1 m := by
  induction ls generalizing m with
  | nil => rfl
  | cons l rest ih =>
    have hone : andThen f g l m = g (f l m').1 m := by
      show g (f l m).1 (f l m).2 = g (f l m').1 m
      rw [hf l m, hb l m m']
    simp only [sweep, hone, hf l m']
    rw [ih]

/-- The second pass never reaches the memory: it may run at once after its lane's first. -/
theorem sweep_andThen_of_right {f g : Pass L M} (hg : Leaves g) (hb : Blind g) (ls : List L)
    (m : M) :
    sweep (andThen f g) ls m = sweep g (sweep f ls m).1 (sweep f ls m).2 := by
  rw [sweep_of_leaves hg]
  generalize hm : (sweep f ls m).2 = m'
  induction ls generalizing m with
  | nil => simpa [sweep] using hm
  | cons l rest ih =>
    have hlast : (andThen f g l m).2 = (f l m).2 := hg _ _
    have hfirst : (andThen f g l m).1 = (g (f l m).1 m').1 := hb _ _ _
    simp only [sweep, List.map_cons, hlast, hfirst]
    rw [ih (f l m).2 hm]

/-- Passes apart from each other swept together, lane by lane, or one after the other. -/
theorem sweep_andThen {f g : Pass L M} (h : Apart f g) (ls : List L) (m : M) :
    sweep (andThen f g) ls m = sweep g (sweep f ls m).1 (sweep f ls m).2 := by
  rcases h with ⟨hf, hg⟩ | ⟨hf, hb⟩ | ⟨hg, hb⟩
  · exact sweep_andThen_of_leaves hf hg ls m
  · have hmem : (sweep f ls m).2 = m := by rw [sweep_of_leaves hf]
    rw [hmem]
    exact sweep_andThen_of_left hf hb ls m m
  · exact sweep_andThen_of_right hg hb ls m

end Orbistoun.Lib.Sweep
