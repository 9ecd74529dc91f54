import Orbistoun.Kernel.Sync.Locks

/-! # Barriers

`barrier_wait` of `sync.rs`: a step is an arrival, or a look of a thread that waits. Rounds are
numbered by a `u64` that wraps; which round an arrival is of, and how many have ended, is kept
beside it here and read by no branch.
-/

namespace Orbistoun.Kernel.Sync.Barrier

open Orbistoun.Lib

/-- What a barrier is made with; a count of zero is made one. -/
structure GuestBarrier where
  needed : Nat
  pos : 0 < needed
  lt : needed < 2 ^ 32

structure Waiter where
  call : Nat
  round : Nat
  joined : Nat
  deriving DecidableEq, Repr

structure BarrierState where
  arrived : Nat
  round : Nat
  inside : List Waiter
  ended : Nat
  deriving DecidableEq, Repr

def start : BarrierState := ⟨0, 0, [], 0⟩

inductive Action where
  | arrive (call : Nat)
  | recheck (call : Nat)
  deriving DecidableEq, Repr

/-- What the calls do, each with the round it is of: arrive, and return `true` or `false`. -/
inductive Event where
  | arrived (call round : Nat)
  | released (call round : Nat)
  | left (call round : Nat)
  deriving DecidableEq, Repr

def find (s : BarrierState) (call : Nat) : Option Waiter := Roster.entry Waiter.call s.inside call

variable (b : GuestBarrier)

/-- `barrier_wait` up to where it waits. -/
def arrive (s : BarrierState) (call : Nat) : BarrierState × List Event :=
  if b.needed ≤ counted s.arrived then
    ({ s with arrived := 0, round := (s.round + 1) % 2 ^ 64, ended := s.ended + 1 },
      [.arrived call s.ended, .released call s.ended])
  else
    ({ s with
      arrived := counted s.arrived
      inside := s.inside ++ [⟨call, s.round, s.ended⟩] }, [.arrived call s.ended])

/-- The top of its loop. -/
def look (s : BarrierState) (w : Waiter) : BarrierState × List Event :=
  if s.round = w.round then (s, [])
  else ({ s with inside := Roster.strike Waiter.call s.inside w.call }, [.left w.call w.joined])

def step (s : BarrierState) : Action → BarrierState × List Event
  | .arrive call =>
      match find s call with
      | some _ => (s, [])
      | none => arrive b s call
  | .recheck call =>
      match find s call with
      | some w => look s w
      | none => (s, [])

def barrier : Machine BarrierState Action Event := ⟨step b⟩

/-! ## Rounds -/

def arrivedIn (k : Nat) : Event → Bool
  | .arrived _ r => r = k
  | .released _ _ => false
  | .left _ _ => false

def releasedIn (k : Nat) : Event → Bool
  | .released _ r => r = k
  | .arrived _ _ => false
  | .left _ _ => false

def leftIn (k : Nat) : Event → Bool
  | .left _ r => r = k
  | .arrived _ _ => false
  | .released _ _ => false

/-- A round that ended had `needed` arrivals, one of which released it; of one that has not,
nobody has returned; and each arrival has returned or waits. -/
structure Rounds (s : BarrierState) (w : List Event) : Prop where
  ended : ∀ k, k < s.ended → w.countP (arrivedIn k) = b.needed ∧ w.countP (releasedIn k) = 1
  now : w.countP (arrivedIn s.ended) = s.arrived ∧ s.arrived < b.needed
  later : ∀ k, s.ended < k → w.countP (arrivedIn k) = 0
  open_ : ∀ k, s.ended ≤ k → w.countP (releasedIn k) = 0 ∧ w.countP (leftIn k) = 0
  each : ∀ k, w.countP (arrivedIn k) =
    w.countP (releasedIn k) + w.countP (leftIn k) + s.inside.countP (fun v => v.joined = k)

structure Numbered (s : BarrierState) : Prop where
  distinct : Roster.Distinct Waiter.call s.inside
  round : s.round = s.ended % 2 ^ 64
  read : ∀ v ∈ s.inside, v.joined ≤ s.ended ∧ v.round = v.joined % 2 ^ 64

variable {b}

theorem numbered_start : Numbered start :=
  ⟨List.nodup_nil, rfl, fun v hv => by cases hv⟩

theorem rounds_start : Rounds b start [] where
  ended k hk := absurd hk (Nat.not_lt_zero k)
  now := ⟨rfl, b.pos⟩
  later _ _ := rfl
  open_ _ _ := ⟨rfl, rfl⟩
  each _ := rfl

/-- A call that looks leaves unless a multiple of `2 ^ 64` rounds have ended since it arrived. -/
theorem look_cases {s : BarrierState} (hn : Numbered s) {v : Waiter} (hv : v ∈ s.inside) :
    s.round = v.round ↔ (s.ended - v.joined) % 2 ^ 64 = 0 := by
  obtain ⟨hle, hread⟩ := hn.read v hv
  rw [hn.round, hread]
  omega

theorem arrive_numbered {s : BarrierState} (hn : Numbered s) {call : Nat}
    (hfind : find s call = none) : Numbered (arrive b s call).1 := by
  obtain ⟨hdistinct, hround, hread⟩ := hn
  unfold arrive
  split
  · refine ⟨hdistinct, ?_, fun v hv => ?_⟩
    · dsimp only
      omega
    · have := hread v hv
      exact ⟨by dsimp only; omega, this.2⟩
  · refine ⟨Roster.distinct_join hdistinct hfind, hround, fun v hv => ?_⟩
    rcases List.mem_append.mp hv with hv | hv
    · exact hread v hv
    · rw [List.mem_singleton.mp hv]
      exact ⟨Nat.le_refl _, hround⟩

theorem arrive_rounds {s : BarrierState} {w : List Event} (h : Rounds b s w) (call : Nat) :
    Rounds b (arrive b s call).1 (w ++ (arrive b s call).2) := by
  obtain ⟨hended, ⟨hnow, hfew⟩, hlater, hopen, heach⟩ := h
  have hlt := b.lt
  have hnext : counted s.arrived = s.arrived + 1 := Nat.mod_eq_of_lt (by omega)
  unfold arrive
  rw [hnext]
  split
  · constructor
    · intro k hk
      dsimp only at hk
      rw [List.countP_append, List.countP_append]
      by_cases hlast : s.ended = k
      · subst hlast
        have hnone := hopen s.ended (Nat.le_refl _)
        simp [arrivedIn, releasedIn, hnow, hnone.1]
        omega
      · have hbefore := hended k (by omega)
        simp [arrivedIn, releasedIn, hlast, hbefore]
    · dsimp only
      rw [List.countP_append]
      have hnone := hlater (s.ended + 1) (by omega)
      simp [arrivedIn, hnone, b.pos]
    · intro k hk
      dsimp only at hk
      rw [List.countP_append]
      have hnone := hlater k (by omega)
      have hne : s.ended ≠ k := by omega
      simp [arrivedIn, hnone, hne]
    · intro k hk
      dsimp only at hk
      rw [List.countP_append, List.countP_append]
      have hnone := hopen k (by omega)
      have hne : s.ended ≠ k := by omega
      simp [releasedIn, leftIn, hnone, hne]
    · intro k
      have hk := heach k
      rw [List.countP_append, List.countP_append, List.countP_append]
      by_cases hlast : s.ended = k
      · simp [arrivedIn, releasedIn, leftIn, hlast]
        omega
      · simp [arrivedIn, releasedIn, leftIn, hlast]
        omega
  · constructor
    · intro k hk
      have hbefore := hended k hk
      have hne : s.ended ≠ k := by dsimp only at hk; omega
      rw [List.countP_append, List.countP_append]
      simp [arrivedIn, releasedIn, hne, hbefore]
    · dsimp only
      rw [List.countP_append]
      refine ⟨?_, by omega⟩
      simp [arrivedIn, hnow]
    · intro k hk
      have hnone := hlater k hk
      have hne : s.ended ≠ k := by dsimp only at hk; omega
      rw [List.countP_append]
      simp [arrivedIn, hnone, hne]
    · intro k hk
      have hnone := hopen k hk
      rw [List.countP_append, List.countP_append]
      simp [releasedIn, leftIn, hnone]
    · intro k
      have hk := heach k
      dsimp only
      rw [List.countP_append, List.countP_append, List.countP_append, List.countP_append]
      by_cases hlast : s.ended = k
      · simp [arrivedIn, releasedIn, leftIn, hlast]
        omega
      · simp [arrivedIn, releasedIn, leftIn, hlast]
        omega

theorem look_numbered {s : BarrierState} (hn : Numbered s) (v : Waiter) :
    Numbered (look s v).1 := by
  unfold look
  split
  · exact hn
  · refine ⟨Roster.distinct_strike hn.distinct _, hn.round, fun u hu => ?_⟩
    exact hn.read u (Roster.mem_strike.mp hu).1

theorem look_rounds {s : BarrierState} {w : List Event} (hn : Numbered s) (h : Rounds b s w)
    {v : Waiter} (hv : v ∈ s.inside) : Rounds b (look s v).1 (w ++ (look s v).2) := by
  unfold look
  split
  · rw [List.append_nil]
    exact h
  · next hmoved =>
    obtain ⟨hended, ⟨hnow, hfew⟩, hlater, hopen, heach⟩ := h
    have hbefore : v.joined < s.ended := by
      have hle := (hn.read v hv).1
      by_contra hge
      apply hmoved
      rw [look_cases hn hv, show s.ended - v.joined = 0 by omega, Nat.zero_mod]
    constructor
    · intro k hk
      rw [List.countP_append, List.countP_append]
      simp [arrivedIn, releasedIn, hended k hk]
    · rw [List.countP_append]
      refine ⟨?_, hfew⟩
      simp [arrivedIn, hnow]
    · intro k hk
      rw [List.countP_append]
      simp [arrivedIn, hlater k hk]
    · intro k hk
      have hne : v.joined ≠ k := by dsimp only at hk; omega
      rw [List.countP_append, List.countP_append]
      simp [releasedIn, leftIn, hopen k hk, hne]
    · intro k
      have hk := heach k
      have hstrike := Roster.countP_strike hn.distinct hv (fun u => u.joined = k)
      rw [List.countP_append, List.countP_append, List.countP_append]
      by_cases hjoined : v.joined = k
      · simp [arrivedIn, releasedIn, leftIn, hjoined] at hstrike ⊢
        omega
      · simp [arrivedIn, releasedIn, leftIn, hjoined] at hstrike ⊢
        omega

theorem step_rounds {s : BarrierState} {w : List Event} (hn : Numbered s) (h : Rounds b s w)
    (a : Action) : Numbered (step b s a).1 ∧ Rounds b (step b s a).1 (w ++ (step b s a).2) := by
  have hidle : Numbered s ∧ Rounds b s (w ++ []) := ⟨hn, by rwa [List.append_nil]⟩
  cases a with
  | arrive call =>
      rw [step]
      cases hfind : find s call with
      | some v => exact hidle
      | none => exact ⟨arrive_numbered hn hfind, arrive_rounds h call⟩
  | recheck call =>
      rw [step]
      cases hfind : find s call with
      | some v => exact ⟨look_numbered hn v, look_rounds hn h (Roster.entry_mem hfind).1⟩
      | none => exact hidle

theorem after_rounds (as : List Action) :
    Numbered ((barrier b).after start as) ∧
      Rounds b ((barrier b).after start as) ((barrier b).log start as) :=
  Machine.prefix_rule (m := barrier b) (p := fun _ _ _ => True)
    (R := fun s w => Numbered s ∧ Rounds b s w)
    (fun _ _ a h _ => step_rounds h.1 h.2 a) ⟨numbered_start, rounds_start⟩ (fun _ _ _ => trivial)

/-- In every run the rounds have their arrivals and their releases, nobody leaves before its
round's last arrival, and a call that looks after it leaves unless a multiple of `2 ^ 64` rounds
have ended since it arrived. -/
theorem barrier_rounds (b : GuestBarrier) (as : List Action) :
    let s := (barrier b).after start as
    Rounds b s ((barrier b).log start as) ∧
      ∀ call v, find s call = some v →
        (barrier b).log s [.recheck call] =
          if (s.ended - v.joined) % 2 ^ 64 = 0 then [] else [.left call v.joined] := by
  intro s
  obtain ⟨hn, hrounds⟩ := after_rounds (b := b) as
  refine ⟨hrounds, fun call v hfind => ?_⟩
  obtain ⟨hv, rfl⟩ := Roster.entry_mem hfind
  have hlook := look_cases hn hv
  rw [Machine.log_cons, Machine.log_nil, List.append_nil]
  show (step b s (.recheck v.call)).2 = _
  rw [step, hfind]
  dsimp only
  unfold look
  by_cases hsame : s.round = v.round
  · rw [if_pos hsame, if_pos (hlook.mp hsame)]
  · rw [if_neg hsame, if_neg (fun heq => hsame (hlook.mpr heq))]

/-! ## A call that sleeps through the wrap -/

def pair : GuestBarrier := ⟨2, by decide, by decide⟩

def asleep (round ended : Nat) : BarrierState := ⟨0, round, [⟨0, 0, 0⟩], ended⟩

/-- Two other calls make a round. -/
def others : List Action := [.arrive 1, .arrive 2, .recheck 1]

theorem after_others {round : Nat} (ended : Nat) (hround : round < 2 ^ 64) :
    (barrier pair).after (asleep round ended) others =
      asleep ((round + 1) % 2 ^ 64) (ended + 1) := by
  have hlook : look ⟨0, (round + 1) % 2 ^ 64, [⟨0, 0, 0⟩, ⟨1, round, ended⟩], ended + 1⟩
      ⟨1, round, ended⟩ = (asleep ((round + 1) % 2 ^ 64) (ended + 1), [.left 1 ended]) := by
    unfold look
    rw [if_neg (by dsimp only; omega)]
    rfl
  exact congrArg Prod.fst hlook

theorem after_many {n : Nat} (hn : n < 2 ^ 64) :
    (barrier pair).after start ([Action.arrive 0, .arrive 1] ++ (List.replicate n others).flatten) =
      asleep ((n + 1) % 2 ^ 64) (n + 1) := by
  induction n with
  | zero => rfl
  | succ n ih =>
      rw [List.replicate_succ', List.flatten_append, ← List.append_assoc, Machine.after_append,
        ih (by omega), List.flatten_singleton, after_others _ (Nat.mod_lt _ (by decide))]
      congr 1
      omega

/-- Rounds enough for the number to be what a sleeping call read hold it for one more. -/
theorem many_held_over {n : Nat} (hn : n < 2 ^ 64) (hwrap : (n + 1) % 2 ^ 64 = 0) :
    ∃ as, find ((barrier pair).after start as) 0 = some ⟨0, 0, 0⟩ ∧
      ((barrier pair).after start as).ended = n + 1 ∧
      (barrier pair).log ((barrier pair).after start as) [.recheck 0] = [] ∧
      (barrier pair).log ((barrier pair).after start (as ++ [.arrive 1, .arrive 2])) [.recheck 0] =
        [.left 0 0] := by
  have hafter := after_many hn
  generalize [Action.arrive 0, .arrive 1] ++ (List.replicate n others).flatten = as at hafter
  rw [hwrap] at hafter
  refine ⟨as, ?_, ?_, ?_, ?_⟩
  · rw [hafter]
    rfl
  · rw [hafter]
    rfl
  · rw [hafter]
    rfl
  · rw [Machine.after_append, hafter]
    rfl

/-- A call of round zero sleeps on when `2 ^ 64` rounds have ended, and the end of another lets
it go. -/
theorem held_over : ∃ as, find ((barrier pair).after start as) 0 = some ⟨0, 0, 0⟩ ∧
    ((barrier pair).after start as).ended = 2 ^ 64 ∧
    (barrier pair).log ((barrier pair).after start as) [.recheck 0] = [] ∧
    (barrier pair).log ((barrier pair).after start (as ++ [.arrive 1, .arrive 2])) [.recheck 0] =
      [.left 0 0] :=
  many_held_over (n := 2 ^ 64 - 1) (by decide) (by decide)

end Orbistoun.Kernel.Sync.Barrier
