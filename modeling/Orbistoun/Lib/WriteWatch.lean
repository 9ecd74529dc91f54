import Mathlib.Data.List.Basic
import Mathlib.Tactic

/-! # Write watches

A write watch marks a span of addresses at a point in time and answers later whether
the span was written after a mark. What a client derives from it is of one form: a fact
about the bytes of a span that holds as long as nothing has written them since a mark.
-/

namespace Orbistoun.Lib

/-- A base address and a length. -/
structure Span where
  base : Nat
  len : Nat
  deriving DecidableEq, Repr

namespace Span

def Has (s : Span) (a : Nat) : Prop := s.base ≤ a ∧ a < s.base + s.len

instance (s : Span) (a : Nat) : Decidable (s.Has a) := inferInstanceAs (Decidable (_ ∧ _))

def addresses (s : Span) : List Nat := List.range' s.base s.len

@[simp] theorem mem_addresses {s : Span} {a : Nat} : a ∈ s.addresses ↔ s.Has a := by
  rw [addresses, List.mem_range'_1, Has]

end Span

inductive WatchEvent where
  | mark (s : Span)
  | ask (s : Span) (since : Nat)
  | write (a : Nat)
  deriving DecidableEq, Repr

structure WatchOps (W : Type*) where
  mark : W → Span → Option Nat × W
  writtenSince : W → Span → Nat → Option Bool × W
  write : W → Nat → W

namespace WatchOps

variable {W : Type*} (ops : WatchOps W)

def next (w : W) : WatchEvent → W
  | .mark s => (ops.mark w s).2
  | .ask s since => (ops.writtenSince w s since).2
  | .write a => ops.write w a

def after (w : W) (es : List WatchEvent) : W := es.foldl ops.next w

theorem after_append (w : W) (es fs : List WatchEvent) :
    ops.after w (es ++ fs) = ops.after (ops.after w es) fs := List.foldl_append

def writes (w : W) (as : List Nat) : W := as.foldl ops.write w

theorem writes_eq_after (w : W) (as : List Nat) :
    ops.writes w as = ops.after w (as.map .write) := by
  rw [writes, after, List.foldl_map]
  rfl

end WatchOps

/-- A watch that reports every write made after a mark: it answers `some false` only
where there was none. -/
structure WriteWatch (W : Type*) extends WatchOps W where
  reports : ∀ w s m w', mark w s = (some m, w') → ∀ es : List WatchEvent,
    (∃ a, s.Has a ∧ .write a ∈ es) → (writtenSince (toWatchOps.after w' es) s m).1 ≠ some false

namespace WriteWatch

variable {W : Type*} {watch : WriteWatch W} {w : W} {s : Span} {m : Nat} {P Q : Prop}

/-- `m` is a mark of `s` taken earlier, and `P` holds unless `s` was written after it. -/
def Since (watch : WriteWatch W) (w : W) (s : Span) (m : Nat) (P : Prop) : Prop :=
  ∃ w₀ w₁ es, watch.mark w₀ s = (some m, w₁) ∧ watch.after w₁ es = w ∧
    ((∀ a, s.Has a → .write a ∉ es) → P)

theorem since_of_mark {w' : W} (h : watch.mark w s = (some m, w')) (hP : P) :
    watch.Since w' s m P :=
  ⟨w, w', [], h, rfl, fun _ => hP⟩

theorem Since.imp (h : watch.Since w s m P) (hPQ : P → Q) : watch.Since w s m Q := by
  obtain ⟨w₀, w₁, es, hm, hw, hP⟩ := h
  exact ⟨w₀, w₁, es, hm, hw, fun hu => hPQ (hP hu)⟩

/-- What is known since a mark is known after more events, where those that do not write
the span keep it. -/
theorem Since.after (h : watch.Since w s m P) (es : List WatchEvent)
    (hkeep : (∀ a, s.Has a → .write a ∉ es) → P → Q) :
    watch.Since (watch.after w es) s m Q := by
  obtain ⟨w₀, w₁, es₀, hm, rfl, hP⟩ := h
  refine ⟨w₀, w₁, es₀ ++ es, hm, watch.after_append _ _ _, fun hu => ?_⟩
  have hu₀ : ∀ a, s.Has a → .write a ∉ es₀ := fun a ha hmem =>
    hu a ha (List.mem_append_left _ hmem)
  exact hkeep (fun a ha hmem => hu a ha (List.mem_append_right _ hmem)) (hP hu₀)

/-- Marks and questions alone lead from `w` to `w'`. -/
def Quiet (watch : WriteWatch W) (w w' : W) : Prop :=
  ∃ es, (∀ a, .write a ∉ es) ∧ watch.after w es = w'

theorem quiet_refl (w : W) : watch.Quiet w w := ⟨[], by simp, rfl⟩

theorem quiet_mark (w : W) (s : Span) : watch.Quiet w (watch.mark w s).2 :=
  ⟨[.mark s], by simp, rfl⟩

theorem quiet_ask (w : W) (s : Span) (since : Nat) :
    watch.Quiet w (watch.writtenSince w s since).2 :=
  ⟨[.ask s since], by simp, rfl⟩

theorem Quiet.trans {w₁ w₂ w₃ : W} (h : watch.Quiet w₁ w₂) (h' : watch.Quiet w₂ w₃) :
    watch.Quiet w₁ w₃ := by
  obtain ⟨es, hes, rfl⟩ := h
  obtain ⟨fs, hfs, rfl⟩ := h'
  refine ⟨es ++ fs, fun a hmem => ?_, watch.after_append _ _ _⟩
  rcases List.mem_append.mp hmem with hmem | hmem
  · exact hes a hmem
  · exact hfs a hmem

theorem Since.quiet {w' : W} (h : watch.Since w s m P) (hq : watch.Quiet w w') :
    watch.Since w' s m P := by
  obtain ⟨es, -, rfl⟩ := hq
  exact h.after es (fun _ hP => hP)

/-- Writes that spare the span keep what is known; the others are reported. -/
theorem Since.writes (h : watch.Since w s m P) (as : List Nat)
    (hkeep : (∀ a ∈ as, ¬ s.Has a) → P → Q) : watch.Since (watch.writes w as) s m Q := by
  rw [watch.writes_eq_after]
  refine h.after _ (fun hu => hkeep (fun a ha hin => hu a hin ?_))
  exact List.mem_map_of_mem ha

/-- The answer `some false` gives what holds while the span is unwritten. -/
theorem Since.of_unwritten (h : watch.Since w s m P)
    (hfalse : (watch.writtenSince w s m).1 = some false) : P := by
  obtain ⟨w₀, w₁, es, hm, rfl, hP⟩ := h
  refine hP (fun a ha hmem => ?_)
  exact watch.reports w₀ s m w₁ hm es ⟨a, ha, hmem⟩ hfalse

end WriteWatch

end Orbistoun.Lib
