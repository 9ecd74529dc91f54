import Orbistoun.Lib.Machine
import Orbistoun.Lib.Roster

/-! # Event flags and their cancels

`event_flag_wait`, `event_flag_set`, `event_flag_clear` and `event_flag_cancel` of `sync.rs`. A
step is what one thread does while it holds the bits, or the one thing it does after it let go
of them: a wait that has ended takes itself off the count of those waiting. A cancel in between
counts it still, as it counts one an earlier cancel found that has not looked since.
-/

namespace Orbistoun.Kernel.Sync.EventFlag

open Orbistoun.Lib

abbrev Bits := BitVec 64

/-- A call of `event_flag_wait` that waits: what it looks for, how it clears, whether it has a
timeout, and the cancel count it started at; and, read by no branch, how many cancels there had
been and which of them found it waiting first. -/
structure Waiter where
  call : Nat
  wanted : Bits
  all : Bool
  clearAll : Bool
  clearPat : Bool
  timed : Bool
  cancels : Nat
  joined : Nat
  hit : Option Nat
  deriving DecidableEq, Repr

inductive FlagWait where
  | found (bits : Bits)
  | timedOut
  | cancelled
  deriving DecidableEq, Repr

/-- A guest event flag, with the calls that wait, those that have ended and are counted still,
and how many cancels there were. -/
structure GuestEventFlag where
  bits : Bits
  waiting : Nat
  cancels : Nat
  inside : List Waiter
  leaving : List Nat
  performed : Nat
  deriving DecidableEq, Repr

def start (initial : Bits) : GuestEventFlag := ⟨initial, 0, 0, [], [], 0⟩

inductive Action where
  | wait (call : Nat) (wanted : Bits) (all clearAll clearPat timed : Bool)
  | recheck (call : Nat)
  | timeOut (call : Nat)
  | leave (call : Nat)
  | set (pattern : Bits)
  | clear (pattern : Bits)
  | cancel (pattern : Bits)

inductive Event where
  | ended (wait : Waiter) (answer : FlagWait)
  | cancelled (which answer : Nat)
  deriving DecidableEq, Repr

def matched (v : Waiter) (bits : Bits) : Bool :=
  if v.all then v.wanted != 0 && bits &&& v.wanted == v.wanted else bits &&& v.wanted != 0

/-- What a wait that found its pattern leaves of the bits. -/
def cleared (v : Waiter) (bits : Bits) : Bits :=
  if v.clearAll then 0 else if v.clearPat then bits &&& ~~~ v.wanted else bits

def finish (g : GuestEventFlag) (v : Waiter) (answer : FlagWait) : GuestEventFlag × List Event :=
  ({ g with inside := Roster.strike Waiter.call g.inside v.call, leaving := v.call :: g.leaving },
    [.ended v answer])

/-- The top of the loop of `wait_on_flag`. -/
def look (g : GuestEventFlag) (v : Waiter) : GuestEventFlag × List Event :=
  if g.cancels ≠ v.cancels then finish g v .cancelled
  else if matched v g.bits then finish { g with bits := cleared v g.bits } v (.found g.bits)
  else (g, [])

def expire (g : GuestEventFlag) (v : Waiter) : GuestEventFlag × List Event :=
  if g.cancels ≠ v.cancels ∨ matched v g.bits then look g v else finish g v .timedOut

def find (g : GuestEventFlag) (call : Nat) : Option Waiter := Roster.entry Waiter.call g.inside call

def join (g : GuestEventFlag) (v : Waiter) : GuestEventFlag :=
  { g with waiting := g.waiting + 1, inside := g.inside ++ [v] }

/-- A cancel finds the calls that wait, those an earlier one found excepted. -/
def Waiter.meet (v : Waiter) (which : Nat) : Waiter := { v with hit := v.hit <|> some which }

def cancel (g : GuestEventFlag) (pattern : Bits) : GuestEventFlag × List Event :=
  ({ g with
    bits := pattern
    cancels := (g.cancels + 1) % 2 ^ 64
    inside := g.inside.map (fun v => v.meet g.performed)
    performed := g.performed + 1 }, [.cancelled g.performed g.waiting])

def step (g : GuestEventFlag) : Action → GuestEventFlag × List Event
  | .wait call wanted all clearAll clearPat timed =>
      if (find g call).isSome ∨ call ∈ g.leaving then (g, [])
      else
        let v : Waiter :=
          ⟨call, wanted, all, clearAll, clearPat, timed, g.cancels, g.performed, none⟩
        look (join g v) v
  | .recheck call =>
      match find g call with
      | some v => look g v
      | none => (g, [])
  | .timeOut call =>
      match find g call with
      | some v => if v.timed then expire g v else (g, [])
      | none => (g, [])
  | .leave call =>
      if call ∈ g.leaving then
        ({ g with waiting := g.waiting - 1, leaving := g.leaving.erase call }, [])
      else (g, [])
  | .set pattern => ({ g with bits := g.bits ||| pattern }, [])
  | .clear pattern => ({ g with bits := g.bits &&& pattern }, [])
  | .cancel pattern => cancel g pattern

def flag : Machine GuestEventFlag Action Event := ⟨step⟩

/-! ## What a cancel answers -/

def endedBy (which : Nat) : Event → Bool
  | .ended v answer => answer = .cancelled && v.hit = some which
  | .cancelled _ _ => false

/-- Each cancel answered how many waits end as cancelled by it, those waits and no others end
so, and each of them had begun before. -/
structure Right (g : GuestEventFlag) (w : List Event) : Prop where
  answers : ∀ which n, .cancelled which n ∈ w →
    n = w.countP (endedBy which) + g.inside.countP (fun v => v.hit = some which)
  outcomes : ∀ v answer, .ended v answer ∈ w → (answer = .cancelled ↔ v.hit.isSome)
  waits : ∀ v ∈ g.inside, (look g v).2 = [.ended v .cancelled] ↔ v.hit.isSome
  before : ∀ v, v ∈ g.inside ∨ (∃ answer, .ended v answer ∈ w) →
    ∀ which, v.hit = some which → v.joined ≤ which

/-- A cancel comes when no wait is on its way out. -/
def Clean (g : GuestEventFlag) : Action → Prop
  | .cancel _ => g.leaving = [] ∧ ∀ v ∈ g.inside, v.hit = none
  | .wait _ _ _ _ _ _ => True
  | .recheck _ => True
  | .timeOut _ => True
  | .leave _ => True
  | .set _ => True
  | .clear _ => True

/-- The count is of the calls inside and those leaving; a call inside was found by no cancel, or
by the last. -/
structure Counted (g : GuestEventFlag) : Prop where
  distinct : Roster.Distinct Waiter.call g.inside
  waiting : g.waiting = g.inside.length + g.leaving.length
  cancels : g.cancels = g.performed % 2 ^ 64
  started : ∀ v ∈ g.inside, v.joined ≤ g.performed ∧ v.cancels = v.joined % 2 ^ 64
  hit : ∀ v ∈ g.inside, if v.hit.isSome then v.hit = some v.joined ∧ g.performed = v.joined + 1
    else g.performed = v.joined

/-- What the run put out agrees with which cancels found which waits. -/
structure Recorded (g : GuestEventFlag) (w : List Event) : Prop where
  answers : ∀ which n, .cancelled which n ∈ w → which < g.performed ∧
    n = w.countP (endedBy which) + g.inside.countP (fun v => v.hit = some which)
  outcomes : ∀ v answer, .ended v answer ∈ w → (answer = .cancelled ↔ v.hit.isSome)
  before : ∀ v, v ∈ g.inside ∨ (∃ answer, .ended v answer ∈ w) →
    ∀ which, v.hit = some which → v.joined ≤ which ∧ which < g.performed

theorem counted_start (initial : Bits) : Counted (start initial) where
  distinct := List.nodup_nil
  waiting := rfl
  cancels := rfl
  started v hv := (List.not_mem_nil hv).elim
  hit v hv := (List.not_mem_nil hv).elim

theorem recorded_start (initial : Bits) : Recorded (start initial) [] where
  answers which n h := (List.not_mem_nil h).elim
  outcomes v answer h := (List.not_mem_nil h).elim
  before v h := by
    rcases h with h | ⟨answer, h⟩
    · exact (List.not_mem_nil h).elim
    · exact (List.not_mem_nil h).elim

section

variable {g : GuestEventFlag} {v : Waiter}

theorem Counted.cancelled_iff (h : Counted g) (hv : v ∈ g.inside) :
    g.cancels ≠ v.cancels ↔ v.hit.isSome := by
  have hhit := h.hit v hv
  rw [h.cancels, (h.started v hv).2]
  split at hhit
  · next hsome =>
    refine iff_of_true ?_ hsome
    rw [hhit.2]
    omega
  · next hnone =>
    refine iff_of_false ?_ hnone
    rw [hhit, not_not]

theorem Counted.with_bits (h : Counted g) (bits : Bits) : Counted { g with bits } :=
  ⟨h.distinct, h.waiting, h.cancels, h.started, h.hit⟩

theorem Recorded.with_bits {w : List Event} (h : Recorded g w) (bits : Bits) :
    Recorded { g with bits } w :=
  ⟨h.answers, h.outcomes, h.before⟩

/-- What a call that looks does: it ends as cancelled where a cancel found it, and else may end
with what it found. -/
theorem look_cases (h : Counted g) (hv : v ∈ g.inside) :
    (v.hit.isSome ∧ look g v = finish g v .cancelled) ∨
      (v.hit = none ∧ ∃ bits, look g v = finish { g with bits } v (.found g.bits)) ∨
      (v.hit = none ∧ look g v = (g, [])) := by
  have hiff := h.cancelled_iff hv
  unfold look
  by_cases hmoved : g.cancels ≠ v.cancels
  · left
    exact ⟨hiff.mp hmoved, if_pos hmoved⟩
  · right
    have hnone : v.hit = none := Option.not_isSome_iff_eq_none.mp (fun hs => hmoved (hiff.mpr hs))
    rw [if_neg hmoved]
    split
    · exact .inl ⟨hnone, _, rfl⟩
    · exact .inr ⟨hnone, rfl⟩

theorem Counted.waits (h : Counted g) (hv : v ∈ g.inside) :
    (look g v).2 = [.ended v .cancelled] ↔ v.hit.isSome := by
  rcases look_cases h hv with ⟨hsome, hlook⟩ | ⟨hnone, bits, hlook⟩ | ⟨hnone, hlook⟩
  · rw [hlook]
    exact iff_of_true rfl hsome
  · rw [hlook, hnone]
    refine iff_of_false (fun heq => ?_) (by decide)
    cases heq
  · rw [hlook, hnone]
    exact iff_of_false (by simp) (by decide)

theorem Recorded.right {w : List Event} (h : Counted g) (hr : Recorded g w) : Right g w :=
  ⟨fun which n hn => (hr.answers which n hn).2, hr.outcomes, fun _ hv => h.waits hv,
    fun v hv which hw => (hr.before v hv which hw).1⟩

/-! ## Steps -/

theorem finish_counted (h : Counted g) (hv : v ∈ g.inside) (answer : FlagWait) :
    Counted (finish g v answer).1 := by
  have hlen := Roster.length_strike h.distinct hv
  have hwaiting := h.waiting
  refine ⟨Roster.distinct_strike h.distinct _, ?_, h.cancels, fun u hu => ?_, fun u hu => ?_⟩
  · show g.waiting = (Roster.strike Waiter.call g.inside v.call).length + (g.leaving.length + 1)
    omega
  · exact h.started u (Roster.mem_strike.mp hu).1
  · exact h.hit u (Roster.mem_strike.mp hu).1

theorem finish_recorded {w : List Event} (h : Counted g) (hr : Recorded g w) (hv : v ∈ g.inside)
    {answer : FlagWait} (hanswer : answer = .cancelled ↔ v.hit.isSome) :
    Recorded (finish g v answer).1 (w ++ [.ended v answer]) := by
  obtain ⟨hanswers, houtcomes, hbefore⟩ := hr
  constructor
  · intro which n hn
    rcases List.mem_append.mp hn with hn | hn
    · obtain ⟨hlt, heq⟩ := hanswers which n hn
      refine ⟨hlt, ?_⟩
      have hstrike := Roster.countP_strike h.distinct hv (fun u => u.hit = some which)
      show n = (w ++ [Event.ended v answer]).countP (endedBy which) +
        (Roster.strike Waiter.call g.inside v.call).countP (fun u => u.hit = some which)
      rw [List.countP_append, List.countP_singleton, heq, ← hstrike]
      by_cases hhit : v.hit = some which
      · have hc : answer = .cancelled := hanswer.mpr (by rw [hhit]; rfl)
        simp [endedBy, hhit, hc]
        omega
      · simp [endedBy, hhit]
    · cases List.mem_singleton.mp hn
  · intro u out hu
    rcases List.mem_append.mp hu with hu | hu
    · exact houtcomes u out hu
    · cases List.mem_singleton.mp hu
      exact hanswer
  · intro u hu
    rcases hu with hu | ⟨out, hu⟩
    · exact hbefore u (.inl (Roster.mem_strike.mp hu).1)
    · rcases List.mem_append.mp hu with hu | hu
      · exact hbefore u (.inr ⟨out, hu⟩)
      · cases List.mem_singleton.mp hu
        exact hbefore v (.inl hv)

theorem look_recorded {w : List Event} (h : Counted g) (hr : Recorded g w) (hv : v ∈ g.inside) :
    Counted (look g v).1 ∧ Recorded (look g v).1 (w ++ (look g v).2) := by
  rcases look_cases h hv with ⟨hsome, hlook⟩ | ⟨hnone, bits, hlook⟩ | ⟨hnone, hlook⟩
  · rw [hlook]
    exact ⟨finish_counted h hv _, finish_recorded h hr hv (iff_of_true rfl hsome)⟩
  · rw [hlook]
    refine ⟨finish_counted (h.with_bits bits) hv _,
      finish_recorded (h.with_bits bits) (hr.with_bits bits) hv (iff_of_false ?_ ?_)⟩
    · exact FlagWait.noConfusion
    · rw [hnone]
      decide
  · rw [hlook, List.append_nil]
    exact ⟨h, hr⟩

theorem expire_recorded {w : List Event} (h : Counted g) (hr : Recorded g w) (hv : v ∈ g.inside) :
    Counted (expire g v).1 ∧ Recorded (expire g v).1 (w ++ (expire g v).2) := by
  unfold expire
  split
  · exact look_recorded h hr hv
  · next hstays =>
    have hnot := fun hsome => hstays (.inl ((h.cancelled_iff hv).mpr hsome))
    refine ⟨finish_counted h hv _, finish_recorded h hr hv (iff_of_false ?_ hnot)⟩
    exact FlagWait.noConfusion

theorem join_counted (h : Counted g) (hfind : find g v.call = none)
    (hcancels : v.cancels = g.cancels) (hjoined : v.joined = g.performed) (hhit : v.hit = none) :
    Counted (join g v) := by
  have hwaiting := h.waiting
  refine ⟨Roster.distinct_join h.distinct hfind, ?_, h.cancels, fun u hu => ?_, fun u hu => ?_⟩
  · show g.waiting + 1 = (g.inside ++ [v]).length + g.leaving.length
    rw [List.length_append, List.length_singleton]
    omega
  · rcases List.mem_append.mp hu with hu | hu
    · exact h.started u hu
    · rw [List.mem_singleton.mp hu, hjoined, hcancels]
      exact ⟨Nat.le_refl _, h.cancels⟩
  · rcases List.mem_append.mp hu with hu | hu
    · exact h.hit u hu
    · rw [List.mem_singleton.mp hu, hhit, hjoined]
      rfl

theorem join_recorded {w : List Event} (hr : Recorded g w) (hhit : v.hit = none) :
    Recorded (join g v) w := by
  refine ⟨fun which n hn => ?_, hr.outcomes, fun u hu => ?_⟩
  · obtain ⟨hlt, heq⟩ := hr.answers which n hn
    refine ⟨hlt, ?_⟩
    show n = _ + (g.inside ++ [v]).countP _
    rw [List.countP_append, List.countP_singleton, heq, hhit]
    simp
  · rcases hu with hu | hu
    · rcases List.mem_append.mp hu with hu | hu
      · exact hr.before u (.inl hu)
      · rw [List.mem_singleton.mp hu, hhit]
        intro which hw
        cases hw
    · exact hr.before u (.inr hu)

theorem countP_meet {w : List Event} (hr : Recorded g w) (which : Nat) :
    (g.inside.map (fun v => v.meet g.performed)).countP (fun v => v.hit = some which) =
      g.inside.countP (fun v => v.hit = some which) +
        if which = g.performed then g.inside.countP (fun v => v.hit = none) else 0 := by
  have hbefore : ∀ v ∈ g.inside, v.hit ≠ some g.performed := fun v hv hhit =>
    absurd (hr.before v (.inl hv) _ hhit).2 (Nat.lt_irrefl _)
  rw [List.countP_map]
  generalize g.inside = l at hbefore ⊢
  induction l with
  | nil => simp
  | cons v l ih =>
      have hv := hbefore v List.mem_cons_self
      have hrest := ih (fun u hu => hbefore u (List.mem_cons_of_mem _ hu))
      rw [List.countP_cons, List.countP_cons, List.countP_cons, hrest]
      by_cases hlast : which = g.performed
      · subst hlast
        cases hhit : v.hit with
        | none =>
            simp [Waiter.meet, hhit]
            omega
        | some k =>
            rw [hhit] at hv
            simp [Waiter.meet, hhit, hv]
      · have hne : g.performed ≠ which := Ne.symm hlast
        cases hhit : v.hit <;> simp [Waiter.meet, hhit, hlast, hne]

theorem countP_endedBy {w : List Event} (hr : Recorded g w) :
    w.countP (endedBy g.performed) = 0 := by
  apply List.countP_eq_zero.mpr
  intro e he hby
  cases e with
  | ended v answer =>
      have hhit : v.hit = some g.performed := by
        simp [endedBy] at hby
        exact hby.2
      exact absurd (hr.before v (.inr ⟨answer, he⟩) _ hhit).2 (Nat.lt_irrefl _)
  | cancelled which n => cases hby

theorem cancel_counted (h : Counted g) (hclean : ∀ v ∈ g.inside, v.hit = none) (pattern : Bits) :
    Counted (cancel g pattern).1 := by
  have hmember : ∀ u ∈ (cancel g pattern).1.inside, ∃ v ∈ g.inside,
      u = { v with hit := some g.performed } ∧ g.performed = v.joined := by
    intro u hu
    obtain ⟨v, hv, rfl⟩ := List.mem_map.mp hu
    have hnone := hclean v hv
    have hhit := h.hit v hv
    rw [hnone] at hhit
    refine ⟨v, hv, ?_, hhit⟩
    unfold Waiter.meet
    rw [hnone]
    rfl
  constructor
  · have hnames : (cancel g pattern).1.inside.map Waiter.call = g.inside.map Waiter.call := by
      show (g.inside.map _).map _ = _
      rw [List.map_map]
      rfl
    rw [Roster.Distinct, hnames]
    exact h.distinct
  · show g.waiting = (g.inside.map _).length + g.leaving.length
    rw [List.length_map]
    exact h.waiting
  · have hcancels := h.cancels
    show (g.cancels + 1) % 2 ^ 64 = (g.performed + 1) % 2 ^ 64
    omega
  · intro u hu
    obtain ⟨v, hv, rfl, hjoined⟩ := hmember u hu
    have hstarted := h.started v hv
    exact ⟨Nat.le_succ_of_le hstarted.1, hstarted.2⟩
  · intro u hu
    obtain ⟨v, hv, rfl, hjoined⟩ := hmember u hu
    dsimp only [Option.isSome_some]
    rw [if_pos rfl]
    exact ⟨congrArg some hjoined, congrArg (· + 1) hjoined⟩

theorem cancel_recorded {w : List Event} (h : Counted g) (hr : Recorded g w)
    (hleaving : g.leaving = []) (hclean : ∀ v ∈ g.inside, v.hit = none) (pattern : Bits) :
    Recorded (cancel g pattern).1 (w ++ (cancel g pattern).2) := by
  constructor
  · intro which n hn
    show which < g.performed + 1 ∧ n = (w ++ [Event.cancelled g.performed g.waiting]).countP _ +
      (g.inside.map (fun v => v.meet g.performed)).countP _
    rw [countP_meet hr, List.countP_append, List.countP_singleton]
    rcases List.mem_append.mp hn with hn | hn
    · obtain ⟨hlt, heq⟩ := hr.answers which n hn
      refine ⟨by omega, ?_⟩
      rw [if_neg (show ¬ which = g.performed by omega), heq]
      simp [endedBy]
    · cases List.mem_singleton.mp hn
      have hwaiting := h.waiting
      have hall : g.inside.countP (fun v => v.hit = none) = g.inside.length :=
        List.countP_eq_length.mpr (fun v hv => by simp [hclean v hv])
      have hnone : g.inside.countP (fun v => v.hit = some g.performed) = 0 :=
        List.countP_eq_zero.mpr (fun v hv => by simp [hclean v hv])
      rw [hleaving, List.length_nil] at hwaiting
      rw [if_pos rfl, countP_endedBy hr, hall, hnone]
      simp [endedBy, hwaiting]
  · intro v answer hv
    rcases List.mem_append.mp hv with hv | hv
    · exact hr.outcomes v answer hv
    · cases List.mem_singleton.mp hv
  · intro u hu
    rcases hu with hu | ⟨answer, hu⟩
    · obtain ⟨v, hv, rfl⟩ := List.mem_map.mp hu
      intro which hwhich
      have hstarted := (h.started v hv).1
      unfold Waiter.meet at hwhich ⊢
      dsimp only at hwhich ⊢
      rw [hclean v hv] at hwhich
      cases hwhich
      exact ⟨hstarted, Nat.lt_succ_self _⟩
    · rcases List.mem_append.mp hu with hu | hu
      · intro which hwhich
        have hlast := hr.before u (.inr ⟨answer, hu⟩) which hwhich
        exact ⟨hlast.1, Nat.lt_succ_of_lt hlast.2⟩
      · cases List.mem_singleton.mp hu

/-- A cancel that comes while a wait is on its way out counts one it does not cancel. -/
theorem cancel_not_right {w : List Event} (h : Counted g) (hr : Recorded g w)
    (hunclean : ¬ (g.leaving = [] ∧ ∀ v ∈ g.inside, v.hit = none)) (pattern : Bits) :
    ¬ Right (cancel g pattern).1 (w ++ (cancel g pattern).2) := by
  intro hright
  have hanswer : g.waiting = (w ++ [Event.cancelled g.performed g.waiting]).countP
      (endedBy g.performed) +
        (g.inside.map (fun v => v.meet g.performed)).countP (fun v => v.hit = some g.performed) :=
    hright.answers g.performed g.waiting (List.mem_append_right _ List.mem_cons_self)
  have hold : g.inside.countP (fun v => v.hit = some g.performed) = 0 :=
    List.countP_eq_zero.mpr (fun v hv hhit =>
      absurd (hr.before v (.inl hv) _ (by simpa using hhit)).2 (Nat.lt_irrefl _))
  have hwaiting := h.waiting
  have hle : g.inside.countP (fun v => v.hit = none) ≤ g.inside.length := List.countP_le_length
  rw [countP_meet hr, if_pos rfl, List.countP_append, List.countP_singleton, countP_endedBy hr,
    hold] at hanswer
  simp only [endedBy, Bool.false_eq_true, if_false, Nat.zero_add, Nat.add_zero] at hanswer
  apply hunclean
  constructor
  · exact List.length_eq_zero_iff.mp (by omega)
  · intro v hv
    have hall := List.countP_eq_length.mp
      (show g.inside.countP (fun v => v.hit = none) = g.inside.length by omega) v hv
    simpa using hall

end

theorem step_recorded {g : GuestEventFlag} {w : List Event} (h : Counted g) (hr : Recorded g w)
    (a : Action) (hclean : Clean g a) :
    Counted (step g a).1 ∧ Recorded (step g a).1 (w ++ (step g a).2) := by
  have hidle : Counted g ∧ Recorded g (w ++ []) := ⟨h, by rwa [List.append_nil]⟩
  cases a with
  | wait call wanted all clearAll clearPat timed =>
      rw [step]
      split
      · exact hidle
      · next hnew =>
        rw [not_or, Option.not_isSome_iff_eq_none] at hnew
        dsimp only
        generalize hv : Waiter.mk call wanted all clearAll clearPat timed g.cancels g.performed
          none = v
        subst hv
        apply look_recorded
        · exact join_counted h hnew.1 rfl rfl rfl
        · exact join_recorded hr rfl
        · exact List.mem_append_right _ List.mem_cons_self
  | recheck call =>
      rw [step]
      cases hfind : find g call with
      | none => exact hidle
      | some v => exact look_recorded h hr (Roster.entry_mem hfind).1
  | timeOut call =>
      rw [step]
      cases hfind : find g call with
      | none => exact hidle
      | some v =>
          dsimp only
          split
          · exact expire_recorded h hr (Roster.entry_mem hfind).1
          · exact hidle
  | leave call =>
      rw [step]
      split
      · next hin =>
        rw [List.append_nil]
        have hwaiting := h.waiting
        have hlen := List.length_erase_of_mem hin
        have hpos := List.length_pos_of_mem hin
        refine ⟨⟨h.distinct, ?_, h.cancels, h.started, h.hit⟩, ⟨hr.answers, hr.outcomes, hr.before⟩⟩
        show g.waiting - 1 = g.inside.length + (g.leaving.erase call).length
        omega
      · exact hidle
  | set pattern =>
      rw [step, List.append_nil]
      exact ⟨h.with_bits _, hr.with_bits _⟩
  | clear pattern =>
      rw [step, List.append_nil]
      exact ⟨h.with_bits _, hr.with_bits _⟩
  | cancel pattern =>
      exact ⟨cancel_counted h hclean.2 pattern, cancel_recorded h hr hclean.1 hclean.2 pattern⟩

/-! ## Runs -/

theorem after_recorded {initial : Bits} {as : List Action}
    (h : flag.Meets Clean (start initial) as) :
    Counted (flag.after (start initial) as) ∧
      Recorded (flag.after (start initial) as) (flag.log (start initial) as) :=
  Machine.run_rule (m := flag) (g := Clean) (R := fun g w => Counted g ∧ Recorded g w) (w := [])
    (fun _ _ a hr hclean => step_recorded hr.1 hr.2 a hclean)
    ⟨counted_start initial, recorded_start initial⟩ h

/-- Every cancel of a run answers the waits that end by it exactly when each comes while no wait
is on its way out. -/
theorem cancels_right_iff_clean (initial : Bits) (as : List Action) :
    (∀ pre, pre <+: as → Right (flag.after (start initial) pre) (flag.log (start initial) pre)) ↔
      flag.Meets Clean (start initial) as := by
  constructor
  · intro hall
    induction as using List.reverseRecOn with
    | nil => exact trivial
    | append_singleton as a ih =>
        have hbefore := ih (fun pre hpre => hall pre (hpre.trans (List.prefix_append as [a])))
        have hlast := hall (as ++ [a]) List.prefix_rfl
        refine Machine.meets_append.mpr ⟨hbefore, ?_, trivial⟩
        obtain ⟨hcounted, hrecorded⟩ := after_recorded hbefore
        cases a with
        | cancel pattern =>
            by_contra hunclean
            apply cancel_not_right hcounted hrecorded hunclean pattern
            rw [Machine.after_append, Machine.log_append, Machine.after_cons, Machine.log_cons,
              Machine.log_nil, List.append_nil] at hlast
            exact hlast
        | _ => trivial
  · intro hmeets pre hpre
    obtain ⟨hcounted, hrecorded⟩ := after_recorded (hmeets.of_prefix hpre)
    exact hrecorded.right hcounted

/-- Two cancels count a wait that was asleep for both, and one that found its pattern is counted
by a cancel it was not ended by. -/
theorem cancel_counts_twice :
    flag.log (start 0) [.wait 1 1 false false false false, .cancel 0, .cancel 0, .recheck 1] =
        [.cancelled 0 1, .cancelled 1 1, .ended ⟨1, 1, false, false, false, false, 0, 0, some 0⟩
          .cancelled] ∧
      flag.log (start 1) [.wait 1 1 false false false false, .cancel 0, .leave 1] =
        [.ended ⟨1, 1, false, false, false, false, 0, 0, none⟩ (.found 1), .cancelled 0 1] ∧
      ¬ ∀ (initial : Bits) (as : List Action),
        Right (flag.after (start initial) as) (flag.log (start initial) as) := by
  refine ⟨by decide, by decide, fun h => ?_⟩
  have hright := h 1 [.wait 1 1 false false false false, .cancel 0]
  have hanswer := hright.answers 0 1 (by decide)
  revert hanswer
  decide

end Orbistoun.Kernel.Sync.EventFlag
