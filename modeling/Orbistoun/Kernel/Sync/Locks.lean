import Orbistoun.Lib.Monitor

/-! # Locks and semaphores

`acquire`, `unlock`, `take` and `signal` of `sync.rs`, each step what one thread does while it
holds the object's host mutex. What a signal's handler does is steps of its own: the wait it
interrupts looks again afterwards. A poisoned host mutex is left out, and counts wrap as they
do in a release build.
-/

namespace Orbistoun.Kernel.Sync

open Orbistoun.Lib

def counted (n : Nat) : Nat := (n + 1) % 2 ^ 32

/-! ## Locks -/

abbrev ThreadHandle := Nat

def NO_THREAD : ThreadHandle := 0

inductive Recursion where
  | forbidden
  | allowed
  | errorcheck
  deriving DecidableEq, Repr

inductive Acquisition where
  | locked
  | busy
  | deadlock
  deriving DecidableEq, Repr

/-- Who holds a lock, and how many times. -/
structure Held where
  owner : ThreadHandle
  depth : Nat
  deriving DecidableEq, Repr

namespace Mutex

def free : Held := ⟨NO_THREAD, 0⟩

/-- The owner's own request, answered however patient it is. -/
def retake (recursion : Recursion) (h : Held) (thread : ThreadHandle) :
    Option (Held × Acquisition) :=
  if 0 < h.depth ∧ h.owner = thread then
    match recursion with
    | .allowed => some ({ h with depth := counted h.depth }, .locked)
    | .errorcheck => some (h, .deadlock)
    | .forbidden => some (h, .busy)
  else none

def unlock (h : Held) (thread : ThreadHandle) : Held × Bool :=
  if h.depth = 0 ∨ h.owner ≠ thread then (h, false)
  else if h.depth - 1 = 0 then (⟨NO_THREAD, 0⟩, true)
  else ({ h with depth := h.depth - 1 }, true)

def mutex (recursion : Recursion) : Monitor Held ThreadHandle Acquisition ThreadHandle Bool where
  early := retake recursion
  blocked h _ := 0 < h.depth
  grant _ thread := ⟨thread, 1⟩
  act := unlock
  lapses := false

abbrev Event := Monitor.Event ThreadHandle Acquisition ThreadHandle Bool

abbrev Action := Monitor.Action ThreadHandle ThreadHandle

def acquires (thread : ThreadHandle) : Event → Bool
  | .answered t a => t = thread && a == .locked
  | .granted t => t = thread
  | .refused _ => false
  | .acted _ _ => false

def releases (thread : ThreadHandle) : Event → Bool
  | .acted t released => t = thread && released
  | .answered _ _ => false
  | .granted _ => false
  | .refused _ => false

def holds (w : List Event) (thread : ThreadHandle) : Nat :=
  w.countP (acquires thread) - w.countP (releases thread)

/-- At most one thread holds the lock, as often as its depth says, and no other releases it. -/
structure Exclusive (h : Held) (w : List Event) : Prop where
  one : ∀ t t', 0 < holds w t → 0 < holds w t' → t = t'
  depth : ∀ t, 0 < holds w t → h.owner = t ∧ h.depth = holds w t
  free : (∀ t, holds w t = 0) → h.depth = 0
  stray : ∀ t, holds w t = 0 → unlock h t = (h, false)

/-- The owner does not take the lock again with its depth at the most a count holds. -/
def NotFull (recursion : Recursion) (g : Monitor.Guarded Held ThreadHandle) : Action → Prop
  | .ask call thread _ => Monitor.find g call = none → recursion = .allowed →
      g.state.owner = thread → g.state.depth ≠ 2 ^ 32 - 1
  | .recheck _ => True
  | .expire _ => True
  | .act _ => True

/-- Each thread's acquisitions are its releases and what it holds now. -/
structure Balanced (h : Held) (w : List Event) : Prop where
  count : ∀ t, w.countP (acquires t) =
    w.countP (releases t) + if 0 < h.depth ∧ h.owner = t then h.depth else 0
  fits : h.depth < 2 ^ 32

theorem Balanced.exclusive {h : Held} {w : List Event} (hb : Balanced h w) : Exclusive h w := by
  have hholds : ∀ t, holds w t = if 0 < h.depth ∧ h.owner = t then h.depth else 0 := by
    intro t
    have hcount := hb.count t
    unfold holds
    omega
  have hpos : ∀ t, 0 < holds w t → 0 < h.depth ∧ h.owner = t := by
    intro t ht
    rw [hholds] at ht
    by_contra hnot
    rw [if_neg hnot] at ht
    omega
  constructor
  · intro t t' ht ht'
    rw [← (hpos t ht).2, ← (hpos t' ht').2]
  · intro t ht
    have hown := hpos t ht
    rw [hholds, if_pos hown]
    exact ⟨hown.2, rfl⟩
  · intro hnone
    have howner := hnone h.owner
    rw [hholds] at howner
    by_contra hdepth
    rw [if_pos ⟨Nat.pos_of_ne_zero hdepth, rfl⟩] at howner
    exact hdepth howner
  · intro t hnone
    rw [hholds] at hnone
    unfold unlock
    apply if_pos
    by_contra hheld
    rw [not_or, not_not] at hheld
    rw [if_pos ⟨Nat.pos_of_ne_zero hheld.1, hheld.2⟩] at hnone
    exact hheld.1 hnone

theorem balanced_free : Balanced free [] := ⟨fun t => by simp [free], by decide⟩

theorem countP_snoc {p : Event → Bool} (w : List Event) (e : Event) :
    (w ++ [e]).countP p = w.countP p + if p e then 1 else 0 := by
  rw [List.countP_append, List.countP_singleton]

theorem retake_cases {recursion : Recursion} {h h' : Held} {thread : ThreadHandle}
    {a : Acquisition} (hr : retake recursion h thread = some (h', a)) :
    (0 < h.depth ∧ h.owner = thread) ∧
      ((recursion = .allowed ∧ h' = { h with depth := counted h.depth } ∧ a = .locked) ∨
        (h' = h ∧ a ≠ .locked)) := by
  unfold retake at hr
  split at hr
  · next hown =>
    refine ⟨hown, ?_⟩
    cases recursion <;> cases hr
    · exact .inr ⟨rfl, by decide⟩
    · exact .inl ⟨rfl, rfl, rfl⟩
    · exact .inr ⟨rfl, by decide⟩
  · cases hr

theorem unlock_cases (h : Held) (thread : ThreadHandle) :
    (unlock h thread = (h, false)) ∨
      (0 < h.depth ∧ h.owner = thread ∧ (unlock h thread).2 = true ∧
        (unlock h thread).1.depth = h.depth - 1 ∧
        (h.depth - 1 ≠ 0 → (unlock h thread).1.owner = thread)) := by
  unfold unlock
  split
  · exact .inl rfl
  · next hheld =>
    rw [not_or, not_not] at hheld
    right
    split
    · next hlast => exact ⟨by omega, hheld.2, rfl, hlast.symm, fun hne => absurd hlast hne⟩
    · exact ⟨by omega, hheld.2, rfl, rfl, fun _ => hheld.2⟩

theorem unlock_balanced {h : Held} {w : List Event} (hb : Balanced h w) (thread : ThreadHandle) :
    Balanced (unlock h thread).1 (w ++ [.acted thread (unlock h thread).2]) := by
  have hfits := hb.fits
  rcases unlock_cases h thread with hrefused | ⟨hdepth, howner, hanswer, hleft, hkept⟩
  · rw [hrefused]
    refine ⟨fun t => ?_, hfits⟩
    rw [countP_snoc, countP_snoc, hb.count t]
    simp [acquires, releases]
  · rw [hanswer]
    refine ⟨fun t => ?_, by omega⟩
    have hcount := hb.count t
    rw [countP_snoc, countP_snoc]
    by_cases ht : thread = t
    · subst ht
      rw [if_pos ⟨hdepth, howner⟩] at hcount
      by_cases hlast : h.depth - 1 = 0
      · simp [acquires, releases, hleft, hlast]
        omega
      · have hmore : 0 < h.depth - 1 := Nat.pos_of_ne_zero hlast
        simp [acquires, releases, hleft, hkept hlast, hmore]
        omega
    · have hother : ¬ (0 < h.depth ∧ h.owner = t) := fun hand => ht (howner.symm.trans hand.2)
      rw [if_neg hother] at hcount
      by_cases hlast : h.depth - 1 = 0
      · simp [acquires, releases, ht, hleft, hlast, hcount]
      · simp [acquires, releases, ht, hkept hlast, hcount]

variable (recursion : Recursion)

theorem moves_balanced {g : Monitor.Guarded Held ThreadHandle} {a : Action} {h : Held}
    {w e : List Event} (hb : Balanced g.state w) (hroom : NotFull recursion g a)
    (hmoves : (mutex recursion).Moves g a h e) : Balanced h (w ++ e) := by
  cases hmoves with
  | idle => rwa [List.append_nil]
  | refused thread =>
      refine ⟨fun t => ?_, hb.fits⟩
      rw [countP_snoc, countP_snoc, hb.count t]
      simp [acquires, releases]
  | answered call thread patience _ x haction hfind hearly =>
      subst haction
      obtain ⟨⟨hdepth, howner⟩, hcases⟩ := retake_cases hearly
      rcases hcases with ⟨hrec, rfl, rfl⟩ | ⟨rfl, hnot⟩
      · have hroom := hroom hfind hrec howner
        have hfits := hb.fits
        have hnext : counted g.state.depth = g.state.depth + 1 := Nat.mod_eq_of_lt (by omega)
        refine ⟨fun t => ?_, by dsimp only; omega⟩
        have hcount := hb.count t
        rw [countP_snoc, countP_snoc]
        by_cases ht : thread = t
        · subst ht
          simp [acquires, releases, hnext, howner, hdepth] at hcount ⊢
          omega
        · have hne : g.state.owner ≠ t := fun heq => ht (howner.symm.trans heq)
          simpa [acquires, releases, ht, hne] using hcount
      · refine ⟨fun t => ?_, hb.fits⟩
        rw [countP_snoc, countP_snoc, hb.count t]
        simp [acquires, releases, hnot]
  | granted thread _ hfree =>
      have hdepth : g.state.depth = 0 := by simpa [mutex] using hfree
      refine ⟨fun t => ?_, (by decide : 1 < 2 ^ 32)⟩
      have hcount := hb.count t
      rw [countP_snoc, countP_snoc]
      by_cases ht : thread = t
      · simp [acquires, releases, mutex, hdepth, ht] at hcount ⊢
        omega
      · simpa [acquires, releases, mutex, hdepth, ht] using hcount
  | acted thread _ => exact unlock_balanced hb thread

/-- The depth starts again from nothing when the owner takes the lock once too often. -/
theorem full_not_exclusive {g : Monitor.Guarded Held ThreadHandle} {a : Action}
    {w : List Event} (hb : Balanced g.state w) (hfull : ¬ NotFull recursion g a) :
    ¬ Exclusive ((mutex recursion).step g a).1.state (w ++ ((mutex recursion).step g a).2) := by
  cases a with
  | ask call thread patience =>
      unfold NotFull at hfull
      simp only [Classical.not_imp, not_not] at hfull
      obtain ⟨hfind, rfl, howner, hdepth⟩ := hfull
      have hearly : (mutex .allowed).early g.state thread =
          some ({ g.state with depth := counted g.state.depth }, .locked) :=
        if_pos ⟨by omega, howner⟩
      rw [Monitor.step, hfind]
      dsimp only
      rw [hearly]
      intro hex
      have hcount := hb.count thread
      rw [if_pos ⟨by omega, howner⟩] at hcount
      have hheld : holds (w ++ [.answered thread .locked]) thread = 2 ^ 32 := by
        unfold holds
        rw [countP_snoc, countP_snoc]
        simp [acquires, releases]
        omega
      have hsame : counted g.state.depth = holds _ thread :=
        (hex.depth thread (by rw [hheld]; decide)).2
      rw [hheld, hdepth] at hsame
      exact absurd hsame (by decide)
  | recheck call => exact absurd trivial hfull
  | expire call => exact absurd trivial hfull
  | act thread => exact absurd trivial hfull

abbrev start : Monitor.Guarded Held ThreadHandle := Monitor.start free

theorem after_balanced {as : List Action}
    (h : (mutex recursion).machine.Meets (NotFull recursion) start as) :
    Balanced ((mutex recursion).machine.after start as).state
      ((mutex recursion).machine.log start as) :=
  (mutex recursion).run_rule (p := NotFull recursion) (R := Balanced)
    (fun _ _ _ _ _ hb hroom hmoves => moves_balanced recursion hb hroom hmoves) balanced_free h

theorem step_retake {g : Monitor.Guarded Held ThreadHandle} (call : Nat) {thread : ThreadHandle}
    (patience : Patience) (hfind : Monitor.find g call = none) (hdepth : 0 < g.state.depth)
    (howner : g.state.owner = thread) :
    (mutex .allowed).step g (.ask call thread patience) =
      ({ g with state := { g.state with depth := counted g.state.depth } },
        [.answered thread .locked]) := by
  have hearly : (mutex .allowed).early g.state thread =
      some ({ g.state with depth := counted g.state.depth }, .locked) := if_pos ⟨hdepth, howner⟩
  rw [Monitor.step, hfind]
  dsimp only
  rw [hearly]

/-- A thread that only takes a recursive lock, again and again. -/
theorem after_retakes {n : Nat} (hn : n < 2 ^ 32) :
    let as : List Action := List.replicate (n + 1) (.ask 0 1 .never)
    (mutex .allowed).machine.after start as = ⟨⟨1, counted n⟩, []⟩ ∧
      (∀ t, ((mutex .allowed).machine.log start as).countP (acquires t) = if 1 = t then n + 1 else 0) ∧
      ∀ t, ((mutex .allowed).machine.log start as).countP (releases t) = 0 := by
  induction n with
  | zero =>
      refine ⟨rfl, fun t => ?_, fun t => rfl⟩
      show [Monitor.Event.granted 1].countP (acquires t) = _
      simp [acquires]
  | succ n ih =>
      obtain ⟨hstate, hacquired, hreleased⟩ := ih (by omega)
      have hnext : counted n = n + 1 := Nat.mod_eq_of_lt (by omega)
      rw [hnext] at hstate
      dsimp only
      have hlast : (mutex .allowed).machine.log ⟨⟨1, n + 1⟩, []⟩ [.ask 0 1 .never] =
          [.answered 1 .locked] := by
        rw [Machine.log_cons, Monitor.machine_step,
          step_retake 0 .never rfl (by dsimp only; omega) rfl]
        rfl
      rw [List.replicate_succ', Machine.after_append, Machine.log_append, hstate, hlast,
        Machine.after_cons, Monitor.machine_step,
        step_retake 0 .never rfl (by dsimp only; omega) rfl]
      refine ⟨rfl, fun t => ?_, fun t => ?_⟩
      · rw [countP_snoc, hacquired]
        by_cases ht : 1 = t
        · simp [acquires, ht]
        · simp [acquires, ht]
      · rw [countP_snoc, hreleased]
        rfl

/-- Once the depth is nothing again, another thread takes the lock too. -/
theorem retakes_not_exclusive {n : Nat} (hn : n < 2 ^ 32) (hfull : counted n = 0) :
    ∃ (as : List Action),
      ¬ Exclusive ((mutex .allowed).machine.after start as).state
          ((mutex .allowed).machine.log start as) ∧
        0 < holds ((mutex .allowed).machine.log start as) 1 ∧
        0 < holds ((mutex .allowed).machine.log start as) 2 := by
  obtain ⟨hstate, hacquired, hreleased⟩ := after_retakes hn
  rw [hfull] at hstate
  let as : List Action := List.replicate (n + 1) (.ask 0 1 .never) ++ [.ask 0 2 .never]
  have hlog : (mutex .allowed).machine.log start as =
      (mutex .allowed).machine.log start (List.replicate (n + 1) (.ask 0 1 .never)) ++
        [.granted 2] := by
    rw [Machine.log_append, hstate]
    rfl
  have hheld : ∀ t, t = 1 ∨ t = 2 → 0 < holds ((mutex .allowed).machine.log start as) t := by
    intro t ht
    unfold holds
    rw [hlog, countP_snoc, countP_snoc, hacquired, hreleased]
    rcases ht with rfl | rfl <;> simp [acquires, releases]
  have hfirst := hheld 1 (.inl rfl)
  have hsecond := hheld 2 (.inr rfl)
  exact ⟨as, fun hex => absurd (hex.one 1 2 hfirst hsecond) (by decide), hfirst, hsecond⟩

end Mutex

/-! ## Semaphores -/

/-- What a semaphore is made with; whoever makes one raises the ceiling to the count. -/
structure GuestSemaphore where
  initial : Nat
  ceiling : Nat
  initial_le : initial ≤ ceiling
  ceiling_lt : ceiling < 2 ^ 32

namespace Semaphore

def signal (s : GuestSemaphore) (count n : Nat) : Nat × Bool :=
  let raised := count + n
  if 2 ^ 32 ≤ raised then (count, false)
  else if s.ceiling < raised then (count, false)
  else (raised, true)

/-- `GuestSemaphore`: a take whose wait ended for a signal that is no longer pending gives up
where too few are left. -/
def semaphore (s : GuestSemaphore) : Monitor Nat Nat Empty Nat Bool where
  early _ _ := none
  blocked count need := count < need
  grant count need := count - need
  act := signal s
  lapses := true

abbrev Event := Monitor.Event Nat Empty Nat Bool

def takenBy : Event → Nat
  | .granted need => need
  | .acted _ _ => 0
  | .refused _ => 0

def signalledBy : Event → Nat
  | .acted n true => n
  | .acted _ false => 0
  | .granted _ => 0
  | .refused _ => 0

def taken (w : List Event) : Nat := (w.map takenBy).sum

def signalled (w : List Event) : Nat := (w.map signalledBy).sum

structure Counts (s : GuestSemaphore) (count : Nat) (w : List Event) : Prop where
  total : count + taken w = s.initial + signalled w
  le : count ≤ s.ceiling

theorem moves_counts {s : GuestSemaphore} {g : Monitor.Guarded Nat Nat}
    {a : Monitor.Action Nat Nat} {count : Nat} {w e : List Event} (h : Counts s g.state w)
    (hmoves : (semaphore s).Moves g a count e) : Counts s count (w ++ e) := by
  obtain ⟨htotal, hle⟩ := h
  unfold taken signalled at htotal
  cases hmoves with
  | idle =>
      rw [List.append_nil]
      exact ⟨htotal, hle⟩
  | refused need =>
      refine ⟨?_, hle⟩
      simp [taken, signalled, takenBy, signalledBy, htotal]
  | answered call need patience _ x => exact x.elim
  | granted need _ hfree =>
      have henough : need ≤ g.state := by simpa [semaphore] using hfree
      have hleft : (semaphore s).grant g.state need = g.state - need := rfl
      rw [hleft]
      refine ⟨?_, by omega⟩
      simp [taken, signalled, takenBy, signalledBy]
      omega
  | acted n _ =>
      show Counts s (signal s g.state n).1 (w ++ [.acted n (signal s g.state n).2])
      unfold signal
      dsimp only
      split
      · refine ⟨?_, hle⟩
        simp [taken, signalled, takenBy, signalledBy, htotal]
      · split
        · refine ⟨?_, hle⟩
          simp [taken, signalled, takenBy, signalledBy, htotal]
        · refine ⟨?_, by dsimp only; omega⟩
          simp [taken, signalled, takenBy, signalledBy]
          omega

/-- A take gets all it asked for or nothing. -/
def TakesWhole (s : GuestSemaphore) (g : Monitor.Guarded Nat Nat) (a : Monitor.Action Nat Nat) :
    Prop :=
  (∀ need, .granted need ∈ ((semaphore s).step g a).2 →
    need ≤ g.state ∧ ((semaphore s).step g a).1.state = g.state - need) ∧
  ∀ need, .refused need ∈ ((semaphore s).step g a).2 →
    ((semaphore s).step g a).1.state = g.state

theorem step_takesWhole (s : GuestSemaphore) (g : Monitor.Guarded Nat Nat)
    (a : Monitor.Action Nat Nat) : TakesWhole s g a := by
  have hmoves := (semaphore s).step_moves g a
  unfold TakesWhole
  generalize ((semaphore s).step g a).1.state = count at hmoves ⊢
  generalize ((semaphore s).step g a).2 = e at hmoves ⊢
  cases hmoves with
  | idle => simp
  | refused need => simp
  | answered call need patience _ x => exact x.elim
  | granted need _ hfree =>
      have henough : need ≤ g.state := by simpa [semaphore] using hfree
      constructor
      · intro n hn
        cases List.mem_singleton.mp hn
        exact ⟨henough, rfl⟩
      · intro n hn
        cases List.mem_singleton.mp hn
  | acted n _ => simp

end Semaphore

/-! ## Runs -/

open Mutex in
/-- One thread at a time holds a lock, as often as its depth says, exactly in the runs whose
count never runs over; a semaphore's count is right in every run. -/
theorem locks_and_semaphores (recursion : Recursion) (as : List Action) (s : GuestSemaphore)
    (bs : List (Monitor.Action Nat Nat)) :
    ((∀ pre, pre <+: as → Exclusive ((mutex recursion).machine.after start pre).state
        ((mutex recursion).machine.log start pre)) ↔
      (mutex recursion).machine.Meets (NotFull recursion) start as) ∧
    let g := (Semaphore.semaphore s).machine.after (Monitor.start s.initial) bs
    Semaphore.Counts s g.state ((Semaphore.semaphore s).machine.log (Monitor.start s.initial) bs) ∧
      ∀ a, Semaphore.TakesWhole s g a := by
  constructor
  · constructor
    · intro hall
      induction as using List.reverseRecOn with
      | nil => exact trivial
      | append_singleton as a ih =>
          have hbefore := ih (fun pre hpre => hall pre (hpre.trans (List.prefix_append as [a])))
          have hlast := hall (as ++ [a]) List.prefix_rfl
          rw [Machine.after_append, Machine.log_append] at hlast
          refine Machine.meets_append.mpr ⟨hbefore, ?_, trivial⟩
          by_contra hfull
          apply full_not_exclusive recursion (after_balanced recursion hbefore) hfull
          rw [Machine.after_cons, Machine.after_nil, Machine.log_cons, Machine.log_nil,
            List.append_nil, Monitor.machine_step] at hlast
          exact hlast
    · intro hmeets pre hpre
      exact (after_balanced recursion (hmeets.of_prefix hpre)).exclusive
  · constructor
    · apply (Semaphore.semaphore s).run_inv (R := Semaphore.Counts s)
      · exact fun _ _ _ _ _ h hmoves => Semaphore.moves_counts h hmoves
      · exact ⟨rfl, s.initial_le⟩
    · exact fun a => Semaphore.step_takesWhole s _ a

open Mutex in
/-- A thread takes a recursive lock until its depth is nothing again, and another takes it too. -/
theorem both_hold : ∃ (as : List Action),
    ¬ Exclusive ((mutex .allowed).machine.after start as).state
        ((mutex .allowed).machine.log start as) ∧
      0 < holds ((mutex .allowed).machine.log start as) 1 ∧
      0 < holds ((mutex .allowed).machine.log start as) 2 :=
  retakes_not_exclusive (n := 2 ^ 32 - 1) (by decide) (by decide)

end Orbistoun.Kernel.Sync
