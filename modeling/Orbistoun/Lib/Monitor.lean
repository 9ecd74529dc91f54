import Orbistoun.Lib.Machine
import Orbistoun.Lib.Roster

/-! # States waited on

A state behind a lock, requests that wait until it lets them, and operations done at once.
A request held up lets go of the lock and looks again some time later; one with a deadline
may find that it passed, and one that does not wait is refused.
-/

namespace Orbistoun.Lib

/-- How long a request may wait. -/
inductive Patience where
  | never
  | forever
  | deadline
  deriving DecidableEq, Repr

/-- States `σ`, requests `κ` with what they are answered outside the wait, and operations. -/
structure Monitor (σ κ α op ω : Type) where
  /-- What a request is answered before it may wait. -/
  early : σ → κ → Option (σ × α)
  blocked : σ → κ → Bool
  grant : σ → κ → σ
  act : σ → op → σ × ω
  /-- Whether a request may give up without a deadline. -/
  lapses : Bool

namespace Monitor

variable {σ κ α op ω : Type}

structure Waiter (κ : Type) where
  call : Nat
  request : κ
  patience : Patience

structure Guarded (σ κ : Type) where
  state : σ
  inside : List (Waiter κ)

inductive Action (κ op : Type) where
  | ask (call : Nat) (request : κ) (patience : Patience)
  | recheck (call : Nat)
  | expire (call : Nat)
  | act (o : op)

inductive Event (κ α op ω : Type) where
  | answered (request : κ) (a : α)
  | granted (request : κ)
  | refused (request : κ)
  | acted (o : op) (result : ω)
  deriving DecidableEq

variable (m : Monitor σ κ α op ω)

def find (g : Guarded σ κ) (call : Nat) : Option (Waiter κ) := Roster.entry Waiter.call g.inside call

def leave (g : Guarded σ κ) (call : Nat) : Guarded σ κ :=
  { g with inside := Roster.strike Waiter.call g.inside call }

/-- A call gets what it asked for, and returns. -/
def give (g : Guarded σ κ) (call : Nat) (request : κ) : Guarded σ κ × List (Event κ α op ω) :=
  ({ leave g call with state := m.grant g.state request }, [.granted request])

def step (g : Guarded σ κ) : Action κ op → Guarded σ κ × List (Event κ α op ω)
  | .ask call request patience =>
      match find g call with
      | some _ => (g, [])
      | none =>
          match m.early g.state request with
          | some (s, a) => ({ g with state := s }, [.answered request a])
          | none =>
              if m.blocked g.state request then
                if patience = .never then (g, [.refused request])
                else ({ g with inside := g.inside ++ [⟨call, request, patience⟩] }, [])
              else m.give g call request
  | .recheck call =>
      match find g call with
      | some w => if m.blocked g.state w.request then (g, []) else m.give g call w.request
      | none => (g, [])
  | .expire call =>
      match find g call with
      | some w =>
          if m.blocked g.state w.request then
            if w.patience = .deadline ∨ m.lapses then (leave g call, [.refused w.request])
            else (g, [])
          else m.give g call w.request
      | none => (g, [])
  | .act o => ({ g with state := (m.act g.state o).1 }, [.acted o (m.act g.state o).2])

def machine : Machine (Guarded σ κ) (Action κ op) (Event κ α op ω) := ⟨m.step⟩

@[simp] theorem machine_step (g : Guarded σ κ) (a : Action κ op) :
    m.machine.step g a = m.step g a := rfl

def start (s : σ) : Guarded σ κ := ⟨s, []⟩

def requestOf (g : Guarded σ κ) : Action κ op → Option κ
  | .ask _ request _ => some request
  | .recheck call => (find g call).map Waiter.request
  | .expire call => (find g call).map Waiter.request
  | .act _ => none

/-- What a step does to the state, and what it puts out. -/
inductive Moves (g : Guarded σ κ) (a : Action κ op) : σ → List (Event κ α op ω) → Prop where
  | idle : Moves g a g.state []
  | refused (request : κ) : Moves g a g.state [.refused request]
  | answered (call : Nat) (request : κ) (patience : Patience) (s : σ) (x : α) :
      a = .ask call request patience → find g call = none →
      m.early g.state request = some (s, x) → Moves g a s [.answered request x]
  | granted (request : κ) : requestOf g a = some request → m.blocked g.state request = false →
      Moves g a (m.grant g.state request) [.granted request]
  | acted (o : op) : a = .act o → Moves g a (m.act g.state o).1 [.acted o (m.act g.state o).2]

theorem step_moves (g : Guarded σ κ) (a : Action κ op) :
    m.Moves g a (m.step g a).1.state (m.step g a).2 := by
  cases a with
  | ask call request patience =>
      rw [step]
      cases hfind : find g call with
      | some w => exact .idle
      | none =>
          dsimp only
          cases hearly : m.early g.state request with
          | some r => exact .answered call request patience r.1 r.2 rfl hfind hearly
          | none =>
              dsimp only
              split
              · split
                · exact .refused request
                · exact .idle
              · next hfree => exact .granted request rfl (Bool.eq_false_of_not_eq_true hfree)
  | recheck call =>
      rw [step]
      cases hfind : find g call with
      | none => exact .idle
      | some w =>
          dsimp only
          split
          · exact .idle
          · next hfree =>
            apply Moves.granted w.request
            · rw [requestOf, hfind, Option.map_some]
            · exact Bool.eq_false_of_not_eq_true hfree
  | expire call =>
      rw [step]
      cases hfind : find g call with
      | none => exact .idle
      | some w =>
          dsimp only
          split
          · split
            · exact .refused w.request
            · exact .idle
          · next hfree =>
            apply Moves.granted w.request
            · rw [requestOf, hfind, Option.map_some]
            · exact Bool.eq_false_of_not_eq_true hfree
  | act o => exact .acted o rfl

theorem run_rule {p : Guarded σ κ → Action κ op → Prop}
    {R : σ → List (Event κ α op ω) → Prop}
    (hmoves : ∀ g a w s e, R g.state w → p g a → m.Moves g a s e → R s (w ++ e))
    {g : Guarded σ κ} (h : R g.state []) {as : List (Action κ op)}
    (hp : m.machine.Meets p g as) :
    R (m.machine.after g as).state (m.machine.log g as) := by
  have hrun := Machine.run_rule (m := m.machine) (g := p) (R := fun g w => R g.state w)
    (fun g w a hR ha => hmoves g a w _ _ hR ha (m.step_moves g a)) h hp
  rw [List.nil_append] at hrun
  exact hrun

/-- The same where what a move must meet may depend on what was put out before it. -/
theorem prefix_rule {p : Guarded σ κ → List (Event κ α op ω) → Action κ op → Prop}
    {R : σ → List (Event κ α op ω) → Prop}
    (hmoves : ∀ g a w s e, R g.state w → p g w a → m.Moves g a s e → R s (w ++ e))
    {g : Guarded σ κ} (h : R g.state []) {as : List (Action κ op)}
    (hp : ∀ pre a, pre ++ [a] <+: as → p (m.machine.after g pre) (m.machine.log g pre) a) :
    R (m.machine.after g as).state (m.machine.log g as) :=
  Machine.prefix_rule (m := m.machine) (p := p) (R := fun g w => R g.state w)
    (fun g w a hR ha => hmoves g a w _ _ hR ha (m.step_moves g a)) h hp

theorem run_inv {R : σ → List (Event κ α op ω) → Prop}
    (hmoves : ∀ g a w s e, R g.state w → m.Moves g a s e → R s (w ++ e))
    {g : Guarded σ κ} (h : R g.state []) (as : List (Action κ op)) :
    R (m.machine.after g as).state (m.machine.log g as) :=
  m.run_rule (p := fun _ _ => True) (fun g a w s e hR _ => hmoves g a w s e hR) h
    (Machine.meets_of_forall (fun _ _ => trivial) g as)

end Monitor

end Orbistoun.Lib
