import Mathlib.Tactic

/-! # Nested constructs in a run of words

A word may open a construct, which the label it names ends, or stand for a label, or branch. What
is open at a word follows from the words before it.
-/

namespace Orbistoun.Lib.Constructs

/-- What a word does to the constructs around it. -/
inductive Effect where
  | plain
  | merge (label : Nat)
  | label (label : Nat)
  | branch (targets : List Nat)

def Effect.targets : Effect → List Nat
  | .branch targets => targets
  | _ => []

def Effect.nest (held : List Nat) : Effect → List Nat
  | .merge m => m :: held
  | .label l => if held.head? = some l then held.tail else held
  | _ => held

section
variable {W : Type} (effect : W → Effect)

/-- The constructs open after `words`, the innermost first. -/
def nesting (held : List Nat) (words : List W) : List Nat :=
  words.foldl (fun held w => (effect w).nest held) held

def opensAt (target : Nat) (held : List Nat) : List W → List (List Nat)
  | [] => []
  | w :: words =>
      let after := opensAt target ((effect w).nest held) words
      if (effect w).targets.contains target then held :: after else after

def Avoids (target : Nat) (words : List W) : Prop :=
  ∀ w ∈ words, target ∉ (effect w).targets

/-- Whatever the words open they end, and nothing opened before them with a label `old`. -/
def Closed (old : Nat → Prop) (words : List W) : Prop :=
  ∀ held : List Nat, (∀ m ∈ held, old m) → nesting effect held words = held

@[simp] theorem nesting_nil (held : List Nat) : nesting effect held [] = held := rfl

@[simp] theorem nesting_cons (held : List Nat) (w : W) (words : List W) :
    nesting effect held (w :: words) = nesting effect ((effect w).nest held) words := rfl

@[simp] theorem nesting_append (held : List Nat) (a b : List W) :
    nesting effect held (a ++ b) = nesting effect (nesting effect held a) b :=
  List.foldl_append

@[simp] theorem opensAt_nil (target : Nat) (held : List Nat) :
    opensAt effect target held [] = [] := rfl

theorem opensAt_append (target : Nat) (held : List Nat) (a b : List W) :
    opensAt effect target held (a ++ b) =
      opensAt effect target held a ++ opensAt effect target (nesting effect held a) b := by
  induction a generalizing held with
  | nil => rfl
  | cons w a ih =>
      rw [List.cons_append, opensAt, opensAt, nesting_cons, ih]
      by_cases hw : (effect w).targets.contains target
      · simp only [if_pos hw, List.cons_append]
      · simp only [if_neg hw]

@[simp] theorem avoids_nil (target : Nat) : Avoids effect target [] := by
  intro w hw
  cases hw

@[simp] theorem avoids_cons (target : Nat) (w : W) (words : List W) :
    Avoids effect target (w :: words) ↔
      target ∉ (effect w).targets ∧ Avoids effect target words :=
  List.forall_mem_cons

@[simp] theorem avoids_append (target : Nat) (a b : List W) :
    Avoids effect target (a ++ b) ↔ Avoids effect target a ∧ Avoids effect target b :=
  List.forall_mem_append

variable {effect}

theorem Avoids.opensAt {target : Nat} {words : List W} (h : Avoids effect target words)
    (held : List Nat) : opensAt effect target held words = [] := by
  induction words generalizing held with
  | nil => rfl
  | cons w words ih =>
      have hw := (avoids_cons effect target w words).mp h
      have hc : ¬ (effect w).targets.contains target = true := by
        rw [List.contains_iff_mem]
        exact hw.1
      rw [Constructs.opensAt, if_neg hc]
      exact ih hw.2 _

namespace Closed
variable {old old' : Nat → Prop} {a b : List W} {w : W}

theorem nil (old : Nat → Prop) : Closed effect old [] := fun _ _ => rfl

theorem mono (h : Closed effect old' a) (hold : ∀ m, old m → old' m) : Closed effect old a := by
  intro held hheld
  apply h held
  intro m hm
  exact hold m (hheld m hm)

theorem append (ha : Closed effect old a) (hb : Closed effect old b) :
    Closed effect old (a ++ b) := by
  intro held hheld
  rw [nesting_append, ha held hheld, hb held hheld]

/-- A word that neither opens a construct nor is a label. -/
theorem cons_flat (hw : ∀ held, (effect w).nest held = held) (ha : Closed effect old a) :
    Closed effect old (w :: a) := by
  intro held hheld
  rw [nesting_cons, hw held]
  exact ha held hheld

/-- A label that nothing open waits for. -/
theorem cons_label {l : Nat} (hw : effect w = .label l) (hl : ¬ old l)
    (ha : Closed effect old a) : Closed effect old (w :: a) := by
  intro held hheld
  have hne : held.head? ≠ some l := by
    intro h
    exact hl (hheld l (List.mem_of_mem_head? h))
  rw [nesting_cons, hw, Effect.nest, if_neg hne]
  exact ha held hheld

/-- A construct is opened, what is inside it written, and its label ends it. -/
theorem cons_merge {w' : W} {m : Nat} (hw : effect w = .merge m) (hw' : effect w' = .label m)
    (ha : Closed effect (fun k => k = m ∨ old k) a) (hb : Closed effect old b) :
    Closed effect old (w :: (a ++ w' :: b)) := by
  intro held hheld
  have hinside : nesting effect (m :: held) a = m :: held := by
    apply ha
    intro k hk
    cases hk with
    | head => exact Or.inl rfl
    | tail _ hk => exact Or.inr (hheld k hk)
  rw [nesting_cons, hw, Effect.nest, nesting_append, hinside, nesting_cons, hw', Effect.nest,
    List.head?_cons, if_pos rfl, List.tail_cons]
  exact hb held hheld

end Closed

end

end Orbistoun.Lib.Constructs
