import Orbistoun.Lib.Machine
import Orbistoun.Lib.Roster

/-! # Waits on an address

`wait_on_address` and `wake_on_address` of `sync.rs` on one address, step by step: a
step is what one thread does while it holds the queue's lock, or a write of the word
or a raise of a signal by anyone. Beside what the queue keeps, the model keeps when
each wait began, when each outstanding token was granted, and which of these each
released wait collected. A poisoned host lock and an unreadable word are left out.
-/

namespace Orbistoun.Kernel.Sync.AddressWait

open Orbistoun.Lib

/-- How long a wait may last. -/
inductive Blocking where
  | never
  | forever
  | deadline
  deriving DecidableEq, Repr

/-- Where a wait is while it does not hold the lock. -/
inductive Phase where
  | asleep
  | inHandler
  | gaveUp
  deriving DecidableEq, Repr

/-- A wait that has not returned, and when it began. -/
structure Waiter where
  id : Nat
  thread : Nat
  until_ : Blocking
  phase : Phase
  born : Nat
  deriving DecidableEq, Repr

/-- A collected token: when its wait began and when it was granted. -/
structure Release where
  born : Nat
  granted : Nat
  deriving DecidableEq, Repr

/-- The queue's two counts and the word, with the signals pending on threads, the waits
inside, the time, and the history of the tokens. -/
structure Queue where
  waiting : Nat
  tokens : Nat
  word : Nat
  pending : Nat → Bool
  inside : List Waiter
  clock : Nat
  grants : List Nat
  released : List Release

def Queue.initial (word : Nat) : Queue := ⟨0, 0, word, fun _ => false, [], 0, [], []⟩

inductive Action where
  | write (word : Nat)
  | raise (thread : Nat)
  | waitOnAddress (id thread expected : Nat) (until_ : Blocking)
  | recheck (id : Nat)
  | expire (id : Nat)
  | deliver (id : Nat) (more : Bool)
  | relock (id : Nat)
  | wakeOnAddress (count : Nat)
  deriving DecidableEq, Repr

/-- What a call answers; `underflow` stands for a count lowered below zero. -/
inductive Outcome where
  | mismatch (id : Nat)
  | woken (id : Nat)
  | timedOut (id : Nat)
  | granted (count : Nat)
  | underflow
  deriving DecidableEq, Repr

/-- `-= 1` on a count. -/
def lower (n : Nat) : Nat × List Outcome := if n = 0 then (0, [.underflow]) else (n - 1, [])

def rephase (q : Queue) (id : Nat) (phase : Phase) : Queue :=
  { q with inside := Roster.amend Waiter.id q.inside id (fun w => { w with phase }) }

/-- The end of a wait that was woken. -/
def collect (q : Queue) (w : Waiter) : Queue × List Outcome :=
  let (tokens, noTokens) := lower q.tokens
  let (waiting, noWaiting) := lower q.waiting
  ({ q with
      tokens, waiting
      inside := Roster.strike Waiter.id q.inside w.id
      grants := q.grants.tail
      released := q.released ++ [⟨w.born, q.grants.headD 0⟩] },
    noTokens ++ noWaiting ++ [.woken w.id])

/-- The end of a wait that gave up: it leaves the queue, with a token when the tokens
outnumber those still waiting. -/
def giveUp (q : Queue) (w : Waiter) : Queue × List Outcome :=
  let (waiting, noWaiting) := lower q.waiting
  let q := { q with waiting, inside := Roster.strike Waiter.id q.inside w.id }
  if q.tokens > waiting then
    let (tokens, noTokens) := lower q.tokens
    ({ q with
        tokens
        grants := q.grants.tail
        released := q.released ++ [⟨w.born, q.grants.headD 0⟩] },
      noWaiting ++ noTokens ++ [.woken w.id])
  else (q, noWaiting ++ [.timedOut w.id])

/-- The predicate `wait_while` sleeps on. -/
def blocked (q : Queue) (w : Waiter) : Bool := q.tokens = 0 && !q.pending w.thread

/-- A turn of the wait's loop, the lock held: sleep or give up while blocked, run a
signal's handler first, and collect a token otherwise. -/
def look (q : Queue) (w : Waiter) : Queue × List Outcome :=
  if blocked q w then
    (rephase q w.id (if w.until_ = .never then .gaveUp else .asleep), [])
  else if q.pending w.thread then (rephase q w.id .inHandler, [])
  else collect q w

def find (q : Queue) (id : Nat) : Option Waiter := Roster.entry Waiter.id q.inside id

def join (q : Queue) (w : Waiter) : Queue :=
  { q with waiting := q.waiting + 1, inside := q.inside ++ [w] }

def wake (q : Queue) (count : Nat) : Queue × List Outcome :=
  let granted := min count (q.waiting - q.tokens)
  ({ q with
      tokens := q.tokens + granted
      grants := q.grants ++ List.replicate granted q.clock },
    [.granted granted])

def turn (q : Queue) : Action → Queue × List Outcome
  | .write word => ({ q with word }, [])
  | .raise thread => ({ q with pending := Function.update q.pending thread true }, [])
  | .waitOnAddress id thread expected until_ =>
      match find q id with
      | some _ => (q, [])
      | none =>
          if q.word ≠ expected then (q, [.mismatch id])
          else
            let w : Waiter := ⟨id, thread, until_, .asleep, q.clock⟩
            look (join q w) w
  | .recheck id =>
      match find q id with
      | some w => if w.phase = .asleep then look q w else (q, [])
      | none => (q, [])
  | .expire id =>
      match find q id with
      | some w =>
          if w.phase = .asleep ∧ w.until_ = .deadline then
            if blocked q w then (rephase q id .gaveUp, []) else look q w
          else (q, [])
      | none => (q, [])
  | .deliver id more =>
      match find q id with
      | some w =>
          if w.phase = .inHandler then
            (rephase { q with pending := Function.update q.pending w.thread more } id .asleep, [])
          else (q, [])
      | none => (q, [])
  | .relock id =>
      match find q id with
      | some w => if w.phase = .gaveUp then giveUp q w else (q, [])
      | none => (q, [])
  | .wakeOnAddress count => wake q count

def step (q : Queue) (a : Action) : Queue × List Outcome :=
  ({ (turn q a).1 with clock := q.clock + 1 }, (turn q a).2)

def addressQueue : Machine Queue Action Outcome := ⟨step⟩

/-! ## The counts -/

/-- The two counts against the waits inside and the tokens' history, all before `now`. -/
structure Sane (now : Nat) (q : Queue) : Prop where
  distinct : Roster.Distinct Waiter.id q.inside
  waiting : q.waiting = q.inside.length
  tokens : q.tokens ≤ q.waiting
  grants : q.grants.length = q.tokens
  granted : ∀ g ∈ q.grants, g < now
  born : ∀ w ∈ q.inside, w.born < now

variable {now : Nat}

theorem sane_initial (word : Nat) : Sane 0 (Queue.initial word) := by
  constructor <;> simp [Queue.initial, Roster.Distinct]

theorem lower_pos {n : Nat} (h : 0 < n) : lower n = (n - 1, []) := by
  rw [lower, if_neg (by omega)]

theorem rephase_sane {q : Queue} (h : Sane now q) (id : Nat) (phase : Phase) :
    Sane now (rephase q id phase) where
  distinct := Roster.distinct_amend h.distinct id (fun _ => rfl)
  waiting := by simp [rephase, h.waiting]
  tokens := h.tokens
  grants := h.grants
  granted := h.granted
  born w hw := by
    obtain ⟨d, hd, rfl | rfl⟩ := Roster.mem_amend hw
    · exact h.born w hd
    · exact h.born d hd

theorem Sane.waiting_pos {q : Queue} (h : Sane now q) {w : Waiter} (hw : w ∈ q.inside) :
    0 < q.waiting := by
  rw [h.waiting]
  exact List.length_pos_of_mem hw

theorem collect_eq {q : Queue} {w : Waiter} (h : Sane now q) (hw : w ∈ q.inside)
    (htokens : 0 < q.tokens) :
    collect q w = ({ q with
      tokens := q.tokens - 1
      waiting := q.waiting - 1
      inside := Roster.strike Waiter.id q.inside w.id
      grants := q.grants.tail
      released := q.released ++ [⟨w.born, q.grants.headD 0⟩] }, [.woken w.id]) := by
  simp [collect, lower_pos htokens, lower_pos (h.waiting_pos hw)]

theorem giveUp_eq {q : Queue} {w : Waiter} (h : Sane now q) (hw : w ∈ q.inside) :
    giveUp q w =
      if q.tokens = q.waiting then
        ({ q with
            tokens := q.tokens - 1
            waiting := q.waiting - 1
            inside := Roster.strike Waiter.id q.inside w.id
            grants := q.grants.tail
            released := q.released ++ [⟨w.born, q.grants.headD 0⟩] }, [.woken w.id])
      else
        ({ q with
            waiting := q.waiting - 1
            inside := Roster.strike Waiter.id q.inside w.id }, [.timedOut w.id]) := by
  have hpos := h.waiting_pos hw
  have hle := h.tokens
  simp only [giveUp, lower_pos hpos, List.nil_append]
  by_cases heq : q.tokens = q.waiting
  · rw [if_pos heq, if_pos (by omega), lower_pos (by omega)]
    rfl
  · rw [if_neg heq, if_neg (by omega)]

theorem strike_sane {q : Queue} {w : Waiter} (h : Sane now q) (hw : w ∈ q.inside)
    {tokens : Nat} {grants : List Nat} {released : List Release} (htokens : tokens ≤ q.waiting - 1)
    (hgrants : grants.length = tokens) (hsub : ∀ g ∈ grants, g ∈ q.grants) :
    Sane now { q with
      tokens, grants, released
      waiting := q.waiting - 1
      inside := Roster.strike Waiter.id q.inside w.id } where
  distinct := Roster.distinct_strike h.distinct w.id
  waiting := by
    have hlen := Roster.length_strike h.distinct hw
    have hwait := h.waiting
    dsimp only
    omega
  tokens := htokens
  grants := hgrants
  granted g hg := h.granted g (hsub g hg)
  born v hv := h.born v (Roster.mem_strike.mp hv).1

theorem collect_sane {q : Queue} {w : Waiter} (h : Sane now q) (hw : w ∈ q.inside)
    (htokens : 0 < q.tokens) : Sane now (collect q w).1 := by
  have hle := h.tokens
  rw [collect_eq h hw htokens]
  exact strike_sane h hw (by omega) (by rw [List.length_tail, h.grants])
    (fun g hg => List.mem_of_mem_tail hg)

theorem giveUp_sane {q : Queue} {w : Waiter} (h : Sane now q) (hw : w ∈ q.inside) :
    Sane now (giveUp q w).1 := by
  have hle := h.tokens
  rw [giveUp_eq h hw]
  split
  · exact strike_sane h hw (by omega) (by rw [List.length_tail, h.grants])
      (fun g hg => List.mem_of_mem_tail hg)
  · exact strike_sane h hw (by omega) h.grants (fun g hg => hg)

/-- What a turn of the loop does: it stays inside, or collects a token that is there. -/
theorem look_cases (q : Queue) (w : Waiter) :
    (∃ phase, look q w = (rephase q w.id phase, []) ∧
      (q.tokens = 0 ∨ q.pending w.thread = true)) ∨
      (0 < q.tokens ∧ q.pending w.thread = false ∧ look q w = collect q w) := by
  unfold look
  by_cases hb : blocked q w = true
  · left
    rw [if_pos hb]
    simp only [blocked, Bool.and_eq_true, decide_eq_true_eq] at hb
    exact ⟨_, rfl, .inl hb.1⟩
  · rw [if_neg hb]
    cases hp : q.pending w.thread with
    | true => exact .inl ⟨.inHandler, by simp, .inr rfl⟩
    | false =>
        right
        have htokens : q.tokens ≠ 0 := by
          intro hzero
          simp [blocked, hzero, hp] at hb
        exact ⟨by omega, rfl, by simp⟩

theorem look_sane {q : Queue} {w : Waiter} (h : Sane now q) (hw : w ∈ q.inside) :
    Sane now (look q w).1 ∧ .underflow ∉ (look q w).2 := by
  rcases look_cases q w with ⟨phase, heq, -⟩ | ⟨htokens, -, heq⟩
  · rw [heq]
    exact ⟨rephase_sane h w.id phase, by simp⟩
  · rw [heq]
    refine ⟨collect_sane h hw htokens, ?_⟩
    rw [collect_eq h hw htokens]
    simp

theorem Sane.later {q : Queue} (h : Sane now q) {now' : Nat} (hle : now ≤ now') : Sane now' q :=
  { h with
    granted := fun g hg => Nat.lt_of_lt_of_le (h.granted g hg) hle
    born := fun w hw => Nat.lt_of_lt_of_le (h.born w hw) hle }

theorem join_sane {q : Queue} {w : Waiter} (h : Sane now q) (hnone : find q w.id = none)
    (hborn : w.born < now) : Sane now (join q w) where
  distinct := Roster.distinct_join h.distinct hnone
  waiting := by simp [join, h.waiting]
  tokens := Nat.le_succ_of_le h.tokens
  grants := h.grants
  granted := h.granted
  born v hv := by
    rcases List.mem_append.mp hv with hv | hv
    · exact h.born v hv
    · rw [List.mem_singleton.mp hv]
      exact hborn

theorem wake_sane {q : Queue} (h : Sane now q) (count : Nat) (hclock : q.clock < now) :
    Sane now (wake q count).1 where
  distinct := h.distinct
  waiting := h.waiting
  tokens := by
    have hle := h.tokens
    simp only [wake]
    omega
  grants := by simp [wake, h.grants]
  granted g hg := by
    rcases List.mem_append.mp hg with hg | hg
    · exact h.granted g hg
    · rw [(List.mem_replicate.mp hg).2]
      exact hclock
  born := h.born

/-- Whatever a thread does with the lock, the counts stay right and none is lowered
below zero. -/
theorem turn_sane {q : Queue} (h : Sane q.clock q) (a : Action) :
    Sane (q.clock + 1) (turn q a).1 ∧ .underflow ∉ (turn q a).2 := by
  have hlater : Sane (q.clock + 1) q := h.later (Nat.le_succ _)
  have hstay : Sane (q.clock + 1) q ∧ (.underflow : Outcome) ∉ ([] : List Outcome) :=
    ⟨hlater, by simp⟩
  cases a with
  | write word => exact ⟨{ hlater with }, by simp [turn]⟩
  | raise thread => exact ⟨{ hlater with }, by simp [turn]⟩
  | waitOnAddress id thread expected until_ =>
      simp only [turn]
      cases hf : find q id with
      | some w => exact hstay
      | none =>
          dsimp only
          split
          · exact ⟨hlater, by simp⟩
          · refine look_sane (join_sane hlater hf (Nat.lt_succ_self _)) ?_
            simp [join]
  | recheck id =>
      simp only [turn]
      cases hf : find q id with
      | none => exact hstay
      | some w =>
          dsimp only
          split
          · exact look_sane hlater (Roster.entry_mem hf).1
          · exact hstay
  | expire id =>
      simp only [turn]
      cases hf : find q id with
      | none => exact hstay
      | some w =>
          dsimp only
          split
          · split
            · exact ⟨rephase_sane hlater id .gaveUp, by simp⟩
            · exact look_sane hlater (Roster.entry_mem hf).1
          · exact hstay
  | deliver id more =>
      simp only [turn]
      cases hf : find q id with
      | none => exact hstay
      | some w =>
          dsimp only
          split
          · have hq : Sane (q.clock + 1)
                { q with pending := Function.update q.pending w.thread more } := { hlater with }
            exact ⟨rephase_sane hq id .asleep, by simp⟩
          · exact hstay
  | relock id =>
      simp only [turn]
      cases hf : find q id with
      | none => exact hstay
      | some w =>
          dsimp only
          split
          · have hw := (Roster.entry_mem hf).1
            refine ⟨giveUp_sane hlater hw, ?_⟩
            rw [giveUp_eq hlater hw]
            split <;> simp
          · exact hstay
  | wakeOnAddress count => exact ⟨wake_sane hlater count (Nat.lt_succ_self _), by simp [turn, wake]⟩

theorem step_sane {q : Queue} (h : Sane q.clock q) (a : Action) :
    Sane (step q a).1.clock (step q a).1 ∧ .underflow ∉ (step q a).2 := by
  obtain ⟨hsane, hlog⟩ := turn_sane h a
  exact ⟨{ hsane with }, hlog⟩

/-! ## Who collects a token -/

/-- Every token collected so far was granted after its wait began, and every wait
inside began before each outstanding token was granted. -/
structure Rightful (q : Queue) : Prop where
  released : ∀ r ∈ q.released, r.born < r.granted
  inside : ∀ w ∈ q.inside, ∀ g ∈ q.grants, w.born < g

/-- A wait begins with a matching word only while no token is outstanding. -/
def Fair (q : Queue) : Action → Prop
  | .waitOnAddress id _ expected _ => find q id = none → q.word = expected → q.tokens = 0
  | _ => True

theorem rephase_rightful {q : Queue} (h : Rightful q) (id : Nat) (phase : Phase) :
    Rightful (rephase q id phase) where
  released := h.released
  inside w hw := by
    obtain ⟨d, hd, rfl | rfl⟩ := Roster.mem_amend hw
    · exact h.inside w hd
    · exact h.inside d hd

theorem strike_rightful {q : Queue} {w : Waiter} (h : Rightful q) (hs : Sane now q)
    (hw : w ∈ q.inside) (htokens : 0 < q.tokens) {tokens waiting : Nat} :
    Rightful { q with
      tokens, waiting
      inside := Roster.strike Waiter.id q.inside w.id
      grants := q.grants.tail
      released := q.released ++ [⟨w.born, q.grants.headD 0⟩] } := by
  have hlen := hs.grants
  refine ⟨?_, fun v hv g hg => ?_⟩
  · intro r hr
    rcases List.mem_append.mp hr with hr | hr
    · exact h.released r hr
    · rw [List.mem_singleton.mp hr]
      cases hgs : q.grants with
      | nil =>
          rw [hgs, List.length_nil] at hlen
          omega
      | cons g rest => exact h.inside w hw g (by simp [hgs])
  · exact h.inside v (Roster.mem_strike.mp hv).1 g (List.mem_of_mem_tail hg)

theorem look_rightful {q : Queue} {w : Waiter} (h : Rightful q) (hs : Sane now q)
    (hw : w ∈ q.inside) : Rightful (look q w).1 := by
  rcases look_cases q w with ⟨phase, heq, -⟩ | ⟨htokens, -, heq⟩
  · rw [heq]
    exact rephase_rightful h w.id phase
  · rw [heq, collect_eq hs hw htokens]
    exact strike_rightful h hs hw htokens

theorem giveUp_rightful {q : Queue} {w : Waiter} (h : Rightful q) (hs : Sane now q)
    (hw : w ∈ q.inside) : Rightful (giveUp q w).1 := by
  have hpos := hs.waiting_pos hw
  rw [giveUp_eq hs hw]
  split
  · exact strike_rightful h hs hw (by omega)
  · exact ⟨h.released, fun v hv => h.inside v (Roster.mem_strike.mp hv).1⟩

theorem wake_rightful {q : Queue} (h : Rightful q) (hs : Sane q.clock q) (count : Nat) :
    Rightful (wake q count).1 where
  released := h.released
  inside w hw g hg := by
    rcases List.mem_append.mp hg with hg | hg
    · exact h.inside w hw g hg
    · rw [(List.mem_replicate.mp hg).2]
      exact hs.born w hw

theorem turn_rightful {q : Queue} {a : Action} (h : Rightful q) (hs : Sane q.clock q)
    (hfair : Fair q a) : Rightful (turn q a).1 := by
  cases a with
  | write word => exact ⟨h.released, h.inside⟩
  | raise thread => exact ⟨h.released, h.inside⟩
  | waitOnAddress id thread expected until_ =>
      simp only [turn]
      cases hf : find q id with
      | some w => exact h
      | none =>
          dsimp only
          split
          · exact h
          · next hword =>
            have hzero : q.tokens = 0 := hfair hf (by simpa using hword)
            have hnil : q.grants = [] := List.length_eq_zero_iff.mp (by rw [hs.grants, hzero])
            have hjoin : Rightful (join q ⟨id, thread, until_, .asleep, q.clock⟩) :=
              ⟨h.released, fun w _ g hg => by simp [join, hnil] at hg⟩
            exact look_rightful hjoin
              (join_sane (hs.later (Nat.le_succ _)) hf (Nat.lt_succ_self _)) (by simp [join])
  | recheck id =>
      simp only [turn]
      cases hf : find q id with
      | none => exact h
      | some w =>
          dsimp only
          split
          · exact look_rightful h hs (Roster.entry_mem hf).1
          · exact h
  | expire id =>
      simp only [turn]
      cases hf : find q id with
      | none => exact h
      | some w =>
          dsimp only
          split
          · split
            · exact rephase_rightful h id .gaveUp
            · exact look_rightful h hs (Roster.entry_mem hf).1
          · exact h
  | deliver id more =>
      simp only [turn]
      cases hf : find q id with
      | none => exact h
      | some w =>
          dsimp only
          split
          · have hq : Rightful { q with pending := Function.update q.pending w.thread more } :=
              ⟨h.released, h.inside⟩
            exact rephase_rightful hq id .asleep
          · exact h
  | relock id =>
      simp only [turn]
      cases hf : find q id with
      | none => exact h
      | some w =>
          dsimp only
          split
          · exact giveUp_rightful h hs (Roster.entry_mem hf).1
          · exact h
  | wakeOnAddress count => exact wake_rightful h hs count

/-- A wait that begins while tokens are outstanding collects one granted before it
began, or is inside with it after a signal's handler. -/
theorem waitOnAddress_unfair {q : Queue} {id thread expected : Nat} {until_ : Blocking}
    (hs : Sane q.clock q) (hf : find q id = none) (hword : q.word = expected)
    (htokens : 0 < q.tokens) :
    ¬ Rightful (turn q (.waitOnAddress id thread expected until_)).1 := by
  intro h
  simp only [turn, hf, hword, ne_eq, not_true_eq_false, if_false] at h
  obtain ⟨g, rest, hg⟩ : ∃ g rest, q.grants = g :: rest :=
    List.exists_cons_of_length_pos (by rw [hs.grants]; exact htokens)
  have hgrant := hs.granted g (by simp [hg])
  have hjoin := join_sane (w := ⟨id, thread, until_, .asleep, q.clock⟩)
    (hs.later (Nat.le_succ _)) hf (Nat.lt_succ_self _)
  rcases look_cases (join q ⟨id, thread, until_, .asleep, q.clock⟩)
    ⟨id, thread, until_, .asleep, q.clock⟩ with ⟨phase, heq, -⟩ | ⟨-, -, heq⟩
  · rw [heq] at h
    have hin : (⟨id, thread, until_, phase, q.clock⟩ : Waiter) ∈
        (rephase (join q ⟨id, thread, until_, .asleep, q.clock⟩) id phase).inside := by
      refine List.mem_map.mpr ⟨⟨id, thread, until_, .asleep, q.clock⟩, by simp [join], by simp⟩
    have := h.inside _ hin g (by simp [rephase, join, hg])
    dsimp only at this
    omega
  · rw [heq, collect_eq hjoin (by simp [join]) (show 0 < (join q _).tokens from htokens)] at h
    have := h.released ⟨q.clock, g⟩ (by simp [join, hg])
    dsimp only at this
    omega

/-! ## Runs -/

theorem run_sane (word : Nat) (as : List Action) :
    Sane (addressQueue.after (Queue.initial word) as).clock
      (addressQueue.after (Queue.initial word) as) :=
  Machine.after_inv (m := addressQueue) (I := fun q => Sane q.clock q)
    (fun _ a h => (step_sane h a).1) (sane_initial word) as

theorem run_no_underflow {q : Queue} (h : Sane q.clock q) (as : List Action) :
    .underflow ∉ addressQueue.log q as := by
  induction as generalizing q with
  | nil => simp
  | cons a as ih =>
      obtain ⟨hsane, hlog⟩ := step_sane h a
      rw [Machine.log_cons, List.mem_append]
      intro hmem
      rcases hmem with hmem | hmem
      · exact hlog hmem
      · exact ih hsane hmem

/-- In every run on one address the tokens never outnumber the waits inside and
neither count is lowered below zero; and tokens are collected only by waits that had
begun when they were granted exactly when no wait begins, with a matching word, while
tokens are outstanding. -/
theorem tokens_rightful_iff_fair (word : Nat) (as : List Action) :
    (∀ pre, pre <+: as →
      (addressQueue.after (Queue.initial word) pre).tokens ≤
          (addressQueue.after (Queue.initial word) pre).waiting ∧
        (addressQueue.after (Queue.initial word) pre).waiting =
          (addressQueue.after (Queue.initial word) pre).inside.length) ∧
    .underflow ∉ addressQueue.log (Queue.initial word) as ∧
    (addressQueue.Throughout Rightful (Queue.initial word) as ↔
      addressQueue.Meets Fair (Queue.initial word) as) := by
  refine ⟨fun pre _ => ⟨(run_sane word pre).tokens, (run_sane word pre).waiting⟩,
    run_no_underflow (sane_initial word) as, ?_⟩
  rw [Machine.throughout_iff_prefix]
  constructor
  · intro hkept
    rw [Machine.meets_iff_prefix]
    intro pre a hpre
    have hafter := hkept (pre ++ [a]) hpre
    rw [Machine.after_append] at hafter
    cases a with
    | waitOnAddress id thread expected until_ =>
        intro hf hword
        by_contra htokens
        exact waitOnAddress_unfair (run_sane word pre) hf hword (by omega)
          ⟨hafter.released, hafter.inside⟩
    | _ => trivial
  · intro hfair pre hpre
    have h := Machine.after_inv_of_meets (m := addressQueue)
      (I := fun q => Sane q.clock q ∧ Rightful q)
      (fun q a hq ha => ⟨(step_sane hq.1 a).1, by
        have hturn := turn_rightful hq.2 hq.1 ha
        exact ⟨hturn.released, hturn.inside⟩⟩)
      ⟨sane_initial word, by constructor <;> simp [Queue.initial]⟩ (hfair.of_prefix hpre)
    exact h.2

/-- A wait that begins after a wake, with the word unchanged, takes the token granted
to the sleeper, who sleeps on. -/
theorem token_taken_by_newcomer :
    addressQueue.log (Queue.initial 0) [.waitOnAddress 1 1 0 .forever, .wakeOnAddress 1,
      .waitOnAddress 2 2 0 .forever, .recheck 1] = [.granted 1, .woken 2] ∧
    (addressQueue.after (Queue.initial 0) [.waitOnAddress 1 1 0 .forever, .wakeOnAddress 1,
      .waitOnAddress 2 2 0 .forever, .recheck 1]).inside = [⟨1, 1, .forever, .asleep, 0⟩] ∧
    ¬ (∀ word as, addressQueue.Throughout Rightful (Queue.initial word) as) := by
  refine ⟨by decide, by decide, fun h => ?_⟩
  have hlast := (h 0 [.waitOnAddress 1 1 0 .forever, .wakeOnAddress 1,
    .waitOnAddress 2 2 0 .forever]).2.2.2.1.released ⟨2, 1⟩ (by decide)
  exact absurd hlast (by decide)

end Orbistoun.Kernel.Sync.AddressWait
