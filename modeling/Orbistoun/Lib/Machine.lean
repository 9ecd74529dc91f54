import Mathlib.Data.List.Basic
import Mathlib.Tactic

/-! # Machines and their runs

A machine takes labelled steps from a state and reports what each step put out.
A run is the list of its labels; an action that is not enabled leaves the state as
it was and puts out nothing. The rules below lift what one step does to what a
whole run does, so a development states facts about steps only.
-/

namespace Orbistoun.Lib

/-- A deterministic machine with states `σ`, labels `α` and output `ω`. -/
structure Machine (σ α ω : Type*) where
  step : σ → α → σ × List ω

/-- What holds at each place of a list, told from its first. -/
theorem forall_snoc_prefix_cons {α : Type*} {P : List α → α → Prop} {b : α} {as : List α} :
    (∀ pre a, pre ++ [a] <+: b :: as → P pre a) ↔
      P [] b ∧ ∀ pre a, pre ++ [a] <+: as → P (b :: pre) a := by
  constructor
  · intro h
    refine ⟨h [] b ?_, fun pre a hpre => h (b :: pre) a ?_⟩
    · exact List.cons_prefix_cons.mpr ⟨rfl, List.nil_prefix⟩
    · exact List.cons_prefix_cons.mpr ⟨rfl, hpre⟩
  · rintro ⟨hb, has⟩ pre a hpre
    cases pre with
    | nil =>
        obtain ⟨rfl, -⟩ := List.cons_prefix_cons.mp hpre
        exact hb
    | cons c pre =>
        obtain ⟨rfl, htail⟩ := List.cons_prefix_cons.mp hpre
        exact has pre a htail

namespace Machine

variable {σ α ω : Type*} (m : Machine σ α ω)

/-- The last state of a run. -/
def after (s : σ) : List α → σ
  | [] => s
  | a :: as => after (m.step s a).1 as

/-- Everything a run put out, oldest first. -/
def log (s : σ) : List α → List ω
  | [] => []
  | a :: as => (m.step s a).2 ++ log (m.step s a).1 as

/-- Every step of a run meets `g` in the state it is taken from. -/
def Meets (g : σ → α → Prop) (s : σ) : List α → Prop
  | [] => True
  | a :: as => g s a ∧ Meets g (m.step s a).1 as

instance decidableMeets {g : σ → α → Prop} [∀ s a, Decidable (g s a)] :
    ∀ (s : σ) (as : List α), Decidable (m.Meets g s as)
  | _, [] => inferInstanceAs (Decidable True)
  | s, a :: as =>
      have : Decidable (m.Meets g (m.step s a).1 as) := decidableMeets _ as
      inferInstanceAs (Decidable (g s a ∧ m.Meets g (m.step s a).1 as))

/-- `P` holds in every state of a run. -/
def Throughout (P : σ → Prop) (s : σ) (as : List α) : Prop :=
  P s ∧ m.Meets (fun s a => P (m.step s a).1) s as

@[simp] theorem after_nil (s : σ) : m.after s [] = s := rfl

@[simp] theorem after_cons (s : σ) (a : α) (as : List α) :
    m.after s (a :: as) = m.after (m.step s a).1 as := rfl

@[simp] theorem log_nil (s : σ) : m.log s [] = [] := rfl

@[simp] theorem log_cons (s : σ) (a : α) (as : List α) :
    m.log s (a :: as) = (m.step s a).2 ++ m.log (m.step s a).1 as := rfl

@[simp] theorem after_append (s : σ) (as bs : List α) :
    m.after s (as ++ bs) = m.after (m.after s as) bs := by
  induction as generalizing s with
  | nil => rfl
  | cons a as ih => exact ih _

@[simp] theorem log_append (s : σ) (as bs : List α) :
    m.log s (as ++ bs) = m.log s as ++ m.log (m.after s as) bs := by
  induction as generalizing s with
  | nil => rfl
  | cons a as ih => simp [ih]

variable {m}

theorem meets_append {g : σ → α → Prop} {s : σ} {as bs : List α} :
    m.Meets g s (as ++ bs) ↔ m.Meets g s as ∧ m.Meets g (m.after s as) bs := by
  induction as generalizing s with
  | nil => simp [Meets]
  | cons a as ih => simp [Meets, ih, and_assoc]

/-- A run meets a guard exactly when each of its steps does, after what came before. -/
theorem meets_iff_prefix {g : σ → α → Prop} {s : σ} {as : List α} :
    m.Meets g s as ↔ ∀ pre a, pre ++ [a] <+: as → g (m.after s pre) a := by
  induction as generalizing s with
  | nil => simp [Meets]
  | cons b as ih =>
      rw [Meets, ih, forall_snoc_prefix_cons]
      exact Iff.rfl

/-- A property holds in every state of a run when it does after every part of it. -/
theorem throughout_iff_prefix {P : σ → Prop} {s : σ} {as : List α} :
    m.Throughout P s as ↔ ∀ pre, pre <+: as → P (m.after s pre) := by
  rw [Throughout, meets_iff_prefix]
  constructor
  · rintro ⟨hs, hstep⟩ pre hpre
    rcases List.eq_nil_or_concat pre with rfl | ⟨pre', a, rfl⟩
    · exact hs
    · rw [List.concat_eq_append] at hpre ⊢
      rw [after_append]
      exact hstep pre' a hpre
  · intro h
    refine ⟨h [] List.nil_prefix, fun pre a hpre => ?_⟩
    have hsnoc := h (pre ++ [a]) hpre
    rwa [after_append] at hsnoc

theorem Meets.of_prefix {g : σ → α → Prop} {s : σ} {pre as : List α} (h : m.Meets g s as)
    (hpre : pre <+: as) : m.Meets g s pre := by
  obtain ⟨rest, rfl⟩ := hpre
  exact (meets_append.mp h).1

/-! ## Invariants -/

/-- The induction over a run, with what it put out so far, of a relation every
guarded step keeps. -/
theorem run_rule {g : σ → α → Prop} {R : σ → List ω → Prop}
    (hstep : ∀ s w a, R s w → g s a → R (m.step s a).1 (w ++ (m.step s a).2))
    {s : σ} {w : List ω} {as : List α} (h : R s w) (hg : m.Meets g s as) :
    R (m.after s as) (w ++ m.log s as) := by
  induction as generalizing s w with
  | nil => simpa using h
  | cons a as ih => simpa using ih (hstep s w a h hg.1) hg.2

/-- The same where what a step must meet may depend on what was put out before it. -/
theorem prefix_rule {p : σ → List ω → α → Prop} {R : σ → List ω → Prop}
    (hstep : ∀ s w a, R s w → p s w a → R (m.step s a).1 (w ++ (m.step s a).2))
    {s : σ} {as : List α} (h : R s [])
    (hp : ∀ pre a, pre ++ [a] <+: as → p (m.after s pre) (m.log s pre) a) :
    R (m.after s as) (m.log s as) := by
  induction as using List.reverseRecOn with
  | nil => exact h
  | append_singleton as a ih =>
      have hbefore := ih (fun pre b hpre => hp pre b (hpre.trans (List.prefix_append as [a])))
      have hlast := hstep _ _ a hbefore (hp as a List.prefix_rfl)
      rw [after_append, log_append, log_cons, log_nil, List.append_nil]
      exact hlast

/-- An invariant of the guarded steps holds after every run of them. -/
theorem after_inv_of_meets {g : σ → α → Prop} {I : σ → Prop}
    (hstep : ∀ s a, I s → g s a → I (m.step s a).1) {s : σ} {as : List α} (h : I s)
    (hg : m.Meets g s as) : I (m.after s as) :=
  run_rule (R := fun s _ => I s) (w := []) (fun s _ a hs ha => hstep s a hs ha) h hg

theorem meets_of_forall {g : σ → α → Prop} (hg : ∀ s a, g s a) (s : σ) (as : List α) :
    m.Meets g s as := by
  induction as generalizing s with
  | nil => trivial
  | cons a as ih => exact ⟨hg s a, ih _⟩

theorem meets_of_mem {g : α → Prop} {as : List α} (hg : ∀ a ∈ as, g a) (s : σ) :
    m.Meets (fun _ a => g a) s as := by
  induction as generalizing s with
  | nil => trivial
  | cons a as ih =>
      exact ⟨hg a List.mem_cons_self, ih (fun b hb => hg b (List.mem_cons_of_mem _ hb)) _⟩

/-- An invariant of every step holds after every run. -/
theorem after_inv {I : σ → Prop} (hstep : ∀ s a, I s → I (m.step s a).1) {s : σ} (h : I s)
    (as : List α) : I (m.after s as) :=
  after_inv_of_meets (g := fun _ _ => True) (fun s a hs _ => hstep s a hs) h
    (meets_of_forall (fun _ _ => trivial) s as)

/-! ## Simulation -/

variable {τ β ω' : Type*}

def translate (m : Machine σ α ω) (ops : σ → α → List β) (s : σ) : List α → List β
  | [] => []
  | a :: as => ops s a ++ translate m ops (m.step s a).1 as

/-- A machine whose every step another takes in zero or more steps, on states
related by `abs` and outputs by `see`, is simulated by it over whole runs. -/
theorem simulates {n : Machine τ β ω'} {abs : σ → τ} {see : ω → Option ω'}
    {ops : σ → α → List β}
    (hafter : ∀ s a, n.after (abs s) (ops s a) = abs (m.step s a).1)
    (hlog : ∀ s a, n.log (abs s) (ops s a) = (m.step s a).2.filterMap see)
    (s : σ) (as : List α) :
    n.after (abs s) (m.translate ops s as) = abs (m.after s as) ∧
      n.log (abs s) (m.translate ops s as) = (m.log s as).filterMap see := by
  induction as generalizing s with
  | nil => exact ⟨rfl, rfl⟩
  | cons a as ih =>
      obtain ⟨ha, hl⟩ := ih (m.step s a).1
      refine ⟨?_, ?_⟩
      · simp [translate, hafter, ha]
      · simp [translate, hafter, hlog, hl, List.filterMap_append]

/-! ## Progress -/

/-- A relation indexed by a bound, which the asking steps of a run lower by one and
no step raises, holds at the end with as many taken off as steps asked. -/
theorem countdown_rule {g : σ → α → Prop} {P : Nat → σ → List ω → Prop} (asks : α → Bool)
    (hstep : ∀ n s w a, P n s w → g s a →
      P (if asks a then n - 1 else n) (m.step s a).1 (w ++ (m.step s a).2))
    {n : Nat} {s : σ} {w : List ω} {as : List α} (h : P n s w) (hg : m.Meets g s as) :
    P (n - as.countP asks) (m.after s as) (w ++ m.log s as) := by
  induction as generalizing n s w with
  | nil => simpa using h
  | cons a as ih =>
      have h' := ih (hstep n s w a h hg.1) hg.2
      rw [List.append_assoc] at h'
      have hn : (if asks a then n - 1 else n) - as.countP asks = n - (a :: as).countP asks := by
        rw [List.countP_cons]
        split <;> omega
      rwa [hn] at h'

end Machine

end Orbistoun.Lib
