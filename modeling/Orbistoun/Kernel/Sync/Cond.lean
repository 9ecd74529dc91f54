import Orbistoun.Lib.Machine
import Orbistoun.Lib.Roster

/-! # Condition variables

`cond_wait`, `cond_signal` and `cond_broadcast` of `sync.rs`, step by step: a step is
what one thread does while it holds the variable's lock. A waiter that finds no wake
owed lets go of the lock, to sleep or to run a signal's handler, and looks again some
time later; one with a deadline may also find that it passed. A poisoned host lock is
left out.
-/

namespace Orbistoun.Kernel.Sync.Cond

open Orbistoun.Lib

/-- A call of `cond_wait` that has not returned: whether it has a deadline, and
whether a broadcast was performed since it began. -/
structure Waiter where
  call : Nat
  timed : Bool
  atBroadcast : Bool
  deriving DecidableEq, Repr

/-- The wakes owed and the threads waiting, with the calls these are. -/
structure CondState where
  owed : Nat
  waiting : Nat
  inside : List Waiter
  deriving DecidableEq, Repr

def CondState.initial : CondState := ⟨0, 0, []⟩

inductive Action where
  | condWait (call : Nat) (timed : Bool)
  | recheck (call : Nat)
  | timeOut (call : Nat)
  | condSignal
  | condBroadcast
  deriving DecidableEq, Repr

/-- How a call of `cond_wait` returned. -/
inductive Outcome where
  | woken (call : Nat)
  | timedOut (call : Nat)
  deriving DecidableEq, Repr

def leave (c : CondState) (call : Nat) : CondState :=
  { c with waiting := c.waiting - 1, inside := Roster.strike Waiter.call c.inside call }

def take (c : CondState) (call : Nat) : CondState := leave { c with owed := c.owed - 1 } call

/-- The top of the loop: a wake owed is taken, and the call returns. -/
def look (c : CondState) (call : Nat) : CondState × List Outcome :=
  if c.owed > 0 then (take c call, [.woken call]) else (c, [])

def find (c : CondState) (call : Nat) : Option Waiter := Roster.entry Waiter.call c.inside call

def join (c : CondState) (call : Nat) (timed : Bool) : CondState :=
  { c with waiting := c.waiting + 1, inside := c.inside ++ [⟨call, timed, false⟩] }

/-- `cond_broadcast`: one owed wake for each thread waiting now, or one for a waiter
still to come when none is. -/
def broadcast (c : CondState) : CondState :=
  { c with
    owed := max c.owed (max c.waiting 1)
    inside := c.inside.map (fun w => { w with atBroadcast := true }) }

def step (c : CondState) : Action → CondState × List Outcome
  | .condWait call timed =>
      match find c call with
      | some _ => (c, [])
      | none => look (join c call timed) call
  | .recheck call =>
      match find c call with
      | some _ => look c call
      | none => (c, [])
  | .timeOut call =>
      match find c call with
      | some w =>
          if w.timed then
            if c.owed = 0 then (leave c call, [.timedOut call]) else look c call
          else (c, [])
      | none => (c, [])
  | .condSignal => ({ c with owed := c.owed + 1 }, [])
  | .condBroadcast => (broadcast c, [])

def condvar : Machine CondState Action Outcome := ⟨step⟩

/-! ## Who is inside -/

structure Counted (c : CondState) : Prop where
  distinct : Roster.Distinct Waiter.call c.inside
  waiting : c.waiting = c.inside.length

theorem counted_initial : Counted CondState.initial := ⟨by simp [Roster.Distinct, CondState.initial], rfl⟩

theorem leave_counted {c : CondState} {w : Waiter} (h : Counted c) (hw : w ∈ c.inside) :
    Counted (leave c w.call) := by
  have hlen := Roster.length_strike h.distinct hw
  have hwait := h.waiting
  refine ⟨Roster.distinct_strike h.distinct w.call, ?_⟩
  simp only [leave]
  omega

theorem join_counted {c : CondState} {call : Nat} (h : Counted c) (timed : Bool)
    (hnone : find c call = none) : Counted (join c call timed) := by
  refine ⟨Roster.distinct_join h.distinct hnone, ?_⟩
  simp [join, h.waiting]

theorem take_counted {c : CondState} {w : Waiter} (h : Counted c) (hw : w ∈ c.inside) :
    Counted (take c w.call) :=
  leave_counted (c := { c with owed := c.owed - 1 }) ⟨h.distinct, h.waiting⟩ hw

theorem look_counted {c : CondState} {w : Waiter} (h : Counted c) (hw : w ∈ c.inside) :
    Counted (look c w.call).1 := by
  unfold look
  split
  · exact take_counted h hw
  · exact h

theorem broadcast_counted {c : CondState} (h : Counted c) : Counted (broadcast c) := by
  refine ⟨?_, ?_⟩
  · have hnames : (broadcast c).inside.map Waiter.call = c.inside.map Waiter.call := by
      simp [broadcast]
    rw [Roster.Distinct, hnames]
    exact h.distinct
  · simp [broadcast, h.waiting]

theorem step_counted {c : CondState} (h : Counted c) (a : Action) : Counted (step c a).1 := by
  cases a with
  | condWait call timed =>
      simp only [step]
      cases hf : find c call with
      | some w => exact h
      | none =>
          have hin : (⟨call, timed, false⟩ : Waiter) ∈ (join c call timed).inside := by simp [join]
          exact look_counted (join_counted h timed hf) hin
  | recheck call =>
      simp only [step]
      cases hf : find c call with
      | none => exact h
      | some w =>
          obtain ⟨hw, rfl⟩ := Roster.entry_mem hf
          exact look_counted h hw
  | timeOut call =>
      simp only [step]
      cases hf : find c call with
      | none => exact h
      | some w =>
          obtain ⟨hw, rfl⟩ := Roster.entry_mem hf
          dsimp only
          split
          · split
            · exact leave_counted h hw
            · exact look_counted h hw
          · exact h
  | condSignal => exact ⟨h.distinct, h.waiting⟩
  | condBroadcast => exact broadcast_counted h

/-! ## The wakes a broadcast owes -/

/-- How many calls a broadcast found waiting are still inside. -/
def outstanding (c : CondState) : Nat := c.inside.countP (fun w => w.atBroadcast)

/-- Each call a broadcast found waiting, and that is inside still, is owed a wake. -/
def Honoured (c : CondState) : Prop := outstanding c ≤ c.owed

/-- While such calls are inside, no others are. -/
def AllHeard (c : CondState) : Prop :=
  0 < outstanding c → ∀ w ∈ c.inside, w.atBroadcast = true

/-- A call of `cond_wait` begins only once the calls of earlier broadcasts have left,
or with more wakes owed than they need. -/
def Fair (c : CondState) : Action → Prop
  | .condWait call _ => find c call = none → outstanding c = 0 ∨ outstanding c < c.owed
  | _ => True

@[simp] theorem take_owed (c : CondState) (call : Nat) : (take c call).owed = c.owed - 1 := rfl

@[simp] theorem leave_owed (c : CondState) (call : Nat) : (leave c call).owed = c.owed := rfl

theorem outstanding_leave {c : CondState} {w : Waiter} (h : Counted c) (hw : w ∈ c.inside) :
    outstanding (leave c w.call) + (if w.atBroadcast then 1 else 0) = outstanding c :=
  Roster.countP_strike h.distinct hw _

theorem outstanding_take {c : CondState} {w : Waiter} (h : Counted c) (hw : w ∈ c.inside) :
    outstanding (take c w.call) + (if w.atBroadcast then 1 else 0) = outstanding c :=
  Roster.countP_strike h.distinct hw _

theorem outstanding_join (c : CondState) (call : Nat) (timed : Bool) :
    outstanding (join c call timed) = outstanding c := by
  simp [outstanding, join]

theorem allHeard_leave {c : CondState} {w : Waiter} (h : Counted c) (hw : w ∈ c.inside)
    (hall : AllHeard c) : AllHeard (leave c w.call) := by
  intro hpos v hv
  have hcount := outstanding_leave h hw
  exact hall (by omega) v (Roster.mem_strike.mp hv).1

theorem look_honoured {c : CondState} {w : Waiter} (h : Counted c) (hw : w ∈ c.inside)
    (hh : Honoured c) (hall : AllHeard c) :
    Honoured (look c w.call).1 ∧ AllHeard (look c w.call).1 := by
  unfold look
  split
  · have hcount := outstanding_take h hw
    refine ⟨?_, ?_⟩
    · unfold Honoured at hh ⊢
      dsimp only
      rw [take_owed]
      by_cases hout : 0 < outstanding c
      · rw [hall hout w hw, if_pos rfl] at hcount
        omega
      · omega
    · intro hpos v hv
      dsimp only at hpos
      exact hall (by omega) v (Roster.mem_strike.mp hv).1
  · exact ⟨hh, hall⟩

/-- A call that begins fairly takes a wake no other call needs, or sleeps among calls
no broadcast has found. -/
theorem condWait_honoured {c : CondState} {call : Nat} {timed : Bool} (h : Counted c)
    (hf : find c call = none) (hh : Honoured c)
    (hfair : outstanding c = 0 ∨ outstanding c < c.owed) (hall : AllHeard c) :
    Honoured (look (join c call timed) call).1 ∧ AllHeard (look (join c call timed) call).1 := by
  have hin : (⟨call, timed, false⟩ : Waiter) ∈ (join c call timed).inside := by simp [join]
  have hcount := outstanding_take (join_counted h timed hf) hin
  have howed : (join c call timed).owed = c.owed := rfl
  simp only [outstanding_join, Bool.false_eq_true, if_false, Nat.add_zero] at hcount
  unfold look
  split
  · refine ⟨?_, ?_⟩
    · unfold Honoured at hh ⊢
      dsimp only
      rw [take_owed, hcount]
      omega
    · intro hpos v hv
      obtain ⟨hv, hne⟩ := Roster.mem_strike.mp hv
      have hpos' : 0 < outstanding c := hcount ▸ hpos
      rcases List.mem_append.mp hv with hv | hv
      · exact hall hpos' v hv
      · rw [List.mem_singleton.mp hv] at hne
        exact absurd rfl hne
  · unfold Honoured at hh ⊢
    dsimp only
    refine ⟨?_, fun hpos => ?_⟩
    · rw [outstanding_join]
      omega
    · rw [outstanding_join] at hpos
      omega

theorem broadcast_honoured {c : CondState} (h : Counted c) :
    Honoured (broadcast c) ∧ AllHeard (broadcast c) := by
  refine ⟨?_, ?_⟩
  · have hle : outstanding (broadcast c) ≤ (broadcast c).inside.length := List.countP_le_length
    have hlen : (broadcast c).inside.length = c.waiting := by simp [broadcast, h.waiting]
    have howed : (broadcast c).owed = max c.owed (max c.waiting 1) := rfl
    unfold Honoured
    omega
  · intro _ w hw
    obtain ⟨v, -, rfl⟩ := List.mem_map.mp hw
    rfl

theorem step_honoured {c : CondState} {a : Action} (h : Counted c) (hh : Honoured c)
    (hall : AllHeard c) (hfair : Fair c a) :
    Honoured (step c a).1 ∧ AllHeard (step c a).1 := by
  cases a with
  | condWait call timed =>
      simp only [step]
      cases hf : find c call with
      | some w => exact ⟨hh, hall⟩
      | none => exact condWait_honoured h hf hh (hfair hf) hall
  | recheck call =>
      simp only [step]
      cases hf : find c call with
      | none => exact ⟨hh, hall⟩
      | some w =>
          obtain ⟨hw, rfl⟩ := Roster.entry_mem hf
          exact look_honoured h hw hh hall
  | timeOut call =>
      simp only [step]
      cases hf : find c call with
      | none => exact ⟨hh, hall⟩
      | some w =>
          obtain ⟨hw, rfl⟩ := Roster.entry_mem hf
          dsimp only
          split
          · split
            · have hcount := outstanding_leave h hw
              refine ⟨?_, allHeard_leave h hw hall⟩
              unfold Honoured at hh ⊢
              dsimp only
              rw [leave_owed]
              omega
            · exact look_honoured h hw hh hall
          · exact ⟨hh, hall⟩
  | condSignal =>
      refine ⟨?_, hall⟩
      unfold Honoured at hh
      show outstanding c ≤ c.owed + 1
      omega
  | condBroadcast => exact broadcast_honoured h

/-! ## Runs -/

/-- A call that begins unfairly takes the wake of one a broadcast found waiting. -/
theorem condWait_unfair {c : CondState} {call : Nat} {timed : Bool} (h : Counted c)
    (hf : find c call = none) (hh : Honoured c)
    (hfair : ¬ (outstanding c = 0 ∨ outstanding c < c.owed)) :
    ¬ Honoured (step c (.condWait call timed)).1 := by
  have hin : (⟨call, timed, false⟩ : Waiter) ∈ (join c call timed).inside := by simp [join]
  have hcount := outstanding_take (join_counted h timed hf) hin
  have howed : (join c call timed).owed = c.owed := rfl
  simp only [outstanding_join, Bool.false_eq_true, if_false, Nat.add_zero] at hcount
  unfold Honoured at hh ⊢
  simp only [step, hf, look]
  rw [if_pos (by omega)]
  dsimp only
  rw [take_owed, hcount]
  omega

theorem recheck_woken {c : CondState} {w : Waiter} (hh : Honoured c)
    (hw : w ∈ c.inside) (hb : w.atBroadcast = true) :
    (step c (.recheck w.call)).2 = [.woken w.call] := by
  have hpos : 0 < outstanding c := List.countP_pos_iff.mpr ⟨w, hw, hb⟩
  unfold Honoured at hh
  have hfound : (find c w.call).isSome = true :=
    List.find?_isSome.mpr ⟨w, hw, by simp⟩
  obtain ⟨v, hv⟩ := Option.isSome_iff_exists.mp hfound
  simp only [step, hv, look]
  rw [if_pos (by omega)]

/-- Every call a broadcast found waiting, and that is inside still, is owed a wake, and
leaves with it when it looks again. -/
def WakesKept (c : CondState) : Prop :=
  Honoured c ∧ ∀ w ∈ c.inside, w.atBroadcast = true →
    (step c (.recheck w.call)).2 = [.woken w.call]

/-- In a run of a condition variable every broadcast wakes the calls it found waiting
exactly when every later call begins fairly. -/
theorem wakes_kept_iff_fair (as : List Action) :
    condvar.Throughout WakesKept CondState.initial as ↔
      condvar.Meets Fair CondState.initial as := by
  have hcounted : ∀ pre, Counted (condvar.after CondState.initial pre) :=
    Machine.after_inv (m := condvar) (I := Counted) (fun _ a h => step_counted h a) counted_initial
  rw [Machine.throughout_iff_prefix]
  constructor
  · intro hkept
    rw [Machine.meets_iff_prefix]
    intro pre a hpre
    have hbefore := (hkept pre ((List.prefix_append pre [a]).trans hpre)).1
    have hafter := (hkept (pre ++ [a]) hpre).1
    rw [Machine.after_append] at hafter
    cases a with
    | condWait call timed =>
        intro hf
        by_contra hunfair
        exact condWait_unfair (hcounted pre) hf hbefore hunfair hafter
    | _ => trivial
  · intro hfair pre hpre
    have h := Machine.after_inv_of_meets (m := condvar)
      (I := fun c => Counted c ∧ Honoured c ∧ AllHeard c)
      (fun c a hc ha => ⟨step_counted hc.1 a, step_honoured hc.1 hc.2.1 hc.2.2 ha⟩)
      ⟨counted_initial, by simp [Honoured, outstanding, CondState.initial],
        by simp [AllHeard, outstanding, CondState.initial]⟩ (hfair.of_prefix hpre)
    exact ⟨h.2.1, fun w hw hb => recheck_woken h.2.1 hw hb⟩

/-- A call that begins between a broadcast and the waiter's next look leaves on the
waiter's wake, and the waiter sleeps on with none owed. -/
theorem broadcast_wake_stolen :
    condvar.log CondState.initial [.condWait 1 false, .condBroadcast, .condWait 2 false] =
        [.woken 2] ∧
    condvar.after CondState.initial
        [.condWait 1 false, .condBroadcast, .condWait 2 false, .recheck 1] =
      ⟨0, 1, [⟨1, false, true⟩]⟩ ∧
    ¬ (∀ as, condvar.Throughout WakesKept CondState.initial as) := by
  refine ⟨by decide, by decide, fun h => ?_⟩
  have hlast := (h [.condWait 1 false, .condBroadcast, .condWait 2 false]).2.2.2.1.1
  revert hlast
  unfold Honoured
  decide

end Orbistoun.Kernel.Sync.Cond
