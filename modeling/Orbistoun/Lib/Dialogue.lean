import Mathlib.Tactic

/-! # Programs that ask

A program that works against something it only reaches through questions: it is done, or it
asks and goes on with the answer. What it can do is what some answers take it through;
answering it from a state gives one such way, and every way is the one some answers give.
-/

namespace Orbistoun.Lib

inductive Dialogue (Q : Type) (A : Q → Type) (α : Type) where
  | done (a : α)
  | ask (q : Q) (k : A q → Dialogue Q A α)

namespace Dialogue

variable {Q : Type} {A : Q → Type} {α β σ : Type}

/-- A question with its answer. -/
abbrev Turn (A : Q → Type) := Sigma A

def bind : Dialogue Q A α → (α → Dialogue Q A β) → Dialogue Q A β
  | done a, f => f a
  | ask q k, f => ask q (fun answer => (k answer).bind f)

/-- What the program ends with when it is answered from a state, the state left, and the
turns taken. -/
def run (answer : (q : Q) → σ → A q × σ) : Dialogue Q A α → σ → α × σ × List (Turn A)
  | done a, s => (a, s, [])
  | ask q k, s =>
      let (a, s) := answer q s
      let (b, s, turns) := (k a).run answer s
      (b, s, ⟨q, a⟩ :: turns)

/-- The program can take the turns and end with the value. -/
def Goes : Dialogue Q A α → List (Turn A) → α → Prop
  | done a, turns, b => turns = [] ∧ b = a
  | ask q k, turns, b => ∃ a rest, turns = ⟨q, a⟩ :: rest ∧ (k a).Goes rest b

/-- Whatever is answered, each question has the property. -/
def Asks (P : Q → Prop) : Dialogue Q A α → Prop
  | done _ => True
  | ask q k => P q ∧ ∀ a, (k a).Asks P

theorem goes_bind {d : Dialogue Q A α} {f : α → Dialogue Q A β} {turns : List (Turn A)} {b : β} :
    (d.bind f).Goes turns b ↔
      ∃ a first rest, turns = first ++ rest ∧ d.Goes first a ∧ (f a).Goes rest b := by
  induction d generalizing turns with
  | done a =>
      constructor
      · intro h
        exact ⟨a, [], turns, rfl, ⟨rfl, rfl⟩, h⟩
      · rintro ⟨a', first, rest, rfl, ⟨rfl, rfl⟩, h⟩
        exact h
  | ask q k ih =>
      constructor
      · rintro ⟨answer, rest, rfl, h⟩
        obtain ⟨a, first, last, rfl, hfirst, hlast⟩ := (ih answer).mp h
        exact ⟨a, ⟨q, answer⟩ :: first, last, rfl, ⟨answer, first, rfl, hfirst⟩, hlast⟩
      · rintro ⟨a, first, last, rfl, ⟨answer, rest, rfl, hfirst⟩, hlast⟩
        exact ⟨answer, rest ++ last, rfl, (ih answer).mpr ⟨a, rest, last, rfl, hfirst, hlast⟩⟩

theorem asks_bind {P : Q → Prop} {d : Dialogue Q A α} {f : α → Dialogue Q A β} (h : d.Asks P)
    (hf : ∀ a, (f a).Asks P) : (d.bind f).Asks P := by
  induction d with
  | done a => exact hf a
  | ask q k ih => exact ⟨h.1, fun answer => ih answer (h.2 answer)⟩

theorem Asks.imp {P P' : Q → Prop} (hP : ∀ q, P q → P' q) {d : Dialogue Q A α} (h : d.Asks P) :
    d.Asks P' := by
  induction d with
  | done a => trivial
  | ask q k ih => exact ⟨hP q h.1, fun answer => ih answer (h.2 answer)⟩

theorem run_bind (answer : (q : Q) → σ → A q × σ) (d : Dialogue Q A α) (f : α → Dialogue Q A β)
    (s : σ) :
    (d.bind f).run answer s =
      let first := d.run answer s
      let second := (f first.1).run answer first.2.1
      (second.1, second.2.1, first.2.2 ++ second.2.2) := by
  induction d generalizing s with
  | done a => rfl
  | ask q k ih =>
      simp only [bind, run, ih]
      rfl

/-- The turns of an answered program are turns it can take. -/
theorem goes_run (answer : (q : Q) → σ → A q × σ) (d : Dialogue Q A α) (s : σ) :
    d.Goes (d.run answer s).2.2 (d.run answer s).1 := by
  induction d generalizing s with
  | done a => exact ⟨rfl, rfl⟩
  | ask q k ih => exact ⟨(answer q s).1, _, rfl, ih (answer q s).1 (answer q s).2⟩

theorem Asks.of_goes {P : Q → Prop} {d : Dialogue Q A α} {turns : List (Turn A)} {a : α}
    (h : d.Asks P) (hg : d.Goes turns a) : ∀ turn ∈ turns, P turn.1 := by
  induction d generalizing turns with
  | done b =>
      obtain ⟨rfl, -⟩ := hg
      intro turn hmem
      cases hmem
  | ask q k ih =>
      obtain ⟨answer, rest, rfl, hrest⟩ := hg
      intro turn hmem
      rcases List.mem_cons.mp hmem with rfl | hmem
      · exact h.1
      · exact ih answer (h.2 answer) hrest turn hmem

/-- Answers read off a list of turns, for as long as its questions are the ones asked. -/
def fromTape [DecidableEq Q] [∀ q, Inhabited (A q)] (q : Q) : List (Turn A) → A q × List (Turn A)
  | ⟨q', a⟩ :: rest => if h : q' = q then (h ▸ a, rest) else (default, rest)
  | [] => (default, [])

/-- Turns a program can take are those it takes when they are its answers. -/
theorem run_fromTape [DecidableEq Q] [∀ q, Inhabited (A q)] {d : Dialogue Q A α}
    {turns : List (Turn A)} {a : α} (h : d.Goes turns a) (rest : List (Turn A)) :
    d.run fromTape (turns ++ rest) = (a, rest, turns) := by
  induction d generalizing turns with
  | done b =>
      obtain ⟨rfl, rfl⟩ := h
      rfl
  | ask q k ih =>
      obtain ⟨answer, last, rfl, hlast⟩ := h
      have hturn : fromTape q (⟨q, answer⟩ :: last ++ rest) = (answer, last ++ rest) := by
        rw [List.cons_append, fromTape, dif_pos rfl]
      rw [run, hturn]
      simp only [ih answer hlast]

end Dialogue

end Orbistoun.Lib
