import Orbistoun.Kernel.Sync.Locks

/-! # Reader-writer locks

`rwlock_read`, `rwlock_write` and `rwlock_unlock` of `sync.rs`. The lock counts its readers and
not whose they are, and an unlock is given no thread: who holds it is told here from what the
calls answered. An unlock by a thread that holds nothing takes away somebody else's hold.
-/

namespace Orbistoun.Kernel.Sync.Rwlock

open Orbistoun.Lib

/-- Who holds a read/write lock right now. -/
structure RwState where
  readers : Nat
  writer : Bool
  deriving DecidableEq, Repr

def free : RwState := ⟨0, false⟩

inductive Request where
  | read (thread : ThreadHandle)
  | write (thread : ThreadHandle)
  deriving DecidableEq, Repr

def unlock (s : RwState) : RwState × Bool :=
  if s.writer then ({ s with writer := false }, true)
  else if s.readers > 0 then ({ s with readers := s.readers - 1 }, true)
  else (s, false)

/-- `GuestRwlock`; who unlocks it is not told to it. -/
def rwlock : Monitor RwState Request Empty ThreadHandle Bool where
  early _ _ := none
  blocked s
    | .read _ => s.writer
    | .write _ => s.writer || 0 < s.readers
  grant s
    | .read _ => { s with readers := counted s.readers }
    | .write _ => { s with writer := true }
  act s _ := unlock s
  lapses := false

abbrev Event := Monitor.Event Request Empty ThreadHandle Bool

abbrev Action := Monitor.Action Request ThreadHandle

abbrev start : Monitor.Guarded RwState Request := Monitor.start free

/-! ## Who holds it -/

/-- Each thread as often as it was given the lock and has not given it back. -/
structure Holders where
  reading : List ThreadHandle
  writing : List ThreadHandle
  deriving DecidableEq, Repr

def Holders.note (h : Holders) : Event → Holders
  | .granted (.read t) => { h with reading := t :: h.reading }
  | .granted (.write t) => { h with writing := t :: h.writing }
  | .acted t true =>
      if t ∈ h.writing then { h with writing := h.writing.erase t }
      else { h with reading := h.reading.erase t }
  | .acted _ false => h
  | .refused _ => h

def holders (w : List Event) : Holders := w.foldl Holders.note ⟨[], []⟩

def Holders.nothing (h : Holders) (thread : ThreadHandle) : Prop :=
  thread ∉ h.reading ∧ thread ∉ h.writing

instance (h : Holders) (thread : ThreadHandle) : Decidable (h.nothing thread) :=
  inferInstanceAs (Decidable (_ ∧ _))

/-- A writer holds the lock alone. -/
def Holders.Exclusive (h : Holders) : Prop :=
  h.writing.length ≤ 1 ∧ (h.writing ≠ [] → h.reading = [])

/-- An unlock is by a thread that holds the lock, or nobody does; and the readers are fewer
than a count holds. -/
def Clean (g : Monitor.Guarded RwState Request) (w : List Event) (a : Action) : Prop :=
  (∀ t, a = .act t → (holders w).nothing t → holders w = ⟨[], []⟩) ∧
    ∀ t, Monitor.requestOf g a = some (.read t) → g.state.readers < 2 ^ 32 - 1

theorem clean_act {g : Monitor.Guarded RwState Request} {w : List Event} {t : ThreadHandle}
    (h : (holders w).nothing t → holders w = ⟨[], []⟩) : Clean g w (.act t) := by
  refine ⟨fun t' ht' hnot => ?_, fun t' ht' => by cases ht'⟩
  cases ht'
  exact h hnot

theorem clean_wait {g : Monitor.Guarded RwState Request} {w : List Event} {a : Action}
    (ha : ∀ t, a ≠ .act t) (hroom : g.state.readers < 2 ^ 32 - 1) : Clean g w a :=
  ⟨fun t ht => absurd ht (ha t), fun _ _ => hroom⟩

/-- The counts are those of the holders. -/
structure Tracks (s : RwState) (h : Holders) : Prop where
  readers : s.readers = h.reading.length
  writer : h.writing.length = if s.writer then 1 else 0
  alone : s.writer = true → h.reading = []

theorem Tracks.exclusive {s : RwState} {h : Holders} (ht : Tracks s h) : h.Exclusive := by
  obtain ⟨-, hwriter, halone⟩ := ht
  constructor
  · split at hwriter <;> omega
  · intro hne
    apply halone
    by_contra hnone
    rw [if_neg hnone] at hwriter
    exact hne (List.length_eq_zero_iff.mp hwriter)

theorem tracks_free : Tracks free ⟨[], []⟩ := ⟨rfl, rfl, fun h => by cases h⟩

/-- An unlock takes away the hold of the thread that calls it, or is refused. -/
theorem unlock_tracks {s : RwState} {h : Holders} (ht : Tracks s h) {t : ThreadHandle}
    (hown : h.nothing t → h = ⟨[], []⟩) :
    Tracks (unlock s).1 (h.note (.acted t (unlock s).2)) ∧ (h.nothing t → unlock s = (s, false)) := by
  obtain ⟨hreaders, hwriter, halone⟩ := ht
  have hnone : h.nothing t → s.readers = 0 ∧ s.writer = false := by
    intro hnot
    rw [hown hnot] at hreaders hwriter
    refine ⟨hreaders, ?_⟩
    cases hw : s.writer
    · rfl
    · rw [hw] at hwriter
      cases hwriter
  have hrefused : h.nothing t → unlock s = (s, false) := by
    intro hnot
    obtain ⟨hzero, hw⟩ := hnone hnot
    unfold unlock
    rw [hw, hzero]
    rfl
  refine ⟨?_, hrefused⟩
  unfold unlock
  cases hw : s.writer with
  | true =>
      rw [hw] at hwriter
      obtain ⟨holder, hholder⟩ := List.length_eq_one_iff.mp hwriter
      have hmine : t = holder := by
        by_contra hne
        have hnot : h.nothing t := by
          unfold Holders.nothing
          rw [halone hw, hholder]
          simp [hne]
        have := (hnone hnot).2
        rw [hw] at this
        cases this
      subst hmine
      have hnote : h.note (.acted t true) = { h with writing := [] } := by
        dsimp only [Holders.note]
        rw [if_pos (by simp [hholder]), hholder, List.erase_cons_head]
      rw [if_pos rfl]
      dsimp only
      rw [hnote]
      exact ⟨hreaders, rfl, fun h => by cases h⟩
  | false =>
      rw [hw, if_neg (by decide)] at hwriter
      have hempty : h.writing = [] := List.length_eq_zero_iff.mp hwriter
      rw [if_neg (by decide)]
      split
      · next hread =>
        have hmine : t ∈ h.reading := by
          by_contra hne
          have hnot : h.nothing t := ⟨hne, by simp [hempty]⟩
          have := (hnone hnot).1
          omega
        have hnote : h.note (.acted t true) = { h with reading := h.reading.erase t } := by
          dsimp only [Holders.note]
          rw [if_neg (by simp [hempty])]
        dsimp only
        rw [hnote]
        refine ⟨?_, ?_, fun h => by cases h⟩
        · dsimp only
          rw [List.length_erase_of_mem hmine, hreaders]
        · dsimp only
          rw [hempty]
          rfl
      · refine ⟨hreaders, ?_, fun h => absurd (hw.symm.trans h) (by decide)⟩
        dsimp only [Holders.note]
        rw [hempty, hw]
        rfl

theorem holders_snoc (w : List Event) (e : Event) : holders (w ++ [e]) = (holders w).note e :=
  List.foldl_append ..

theorem moves_tracks {g : Monitor.Guarded RwState Request} {a : Action} {s : RwState}
    {w e : List Event} (h : Tracks g.state (holders w)) (hclean : Clean g w a)
    (hmoves : rwlock.Moves g a s e) : Tracks s (holders (w ++ e)) := by
  cases hmoves with
  | idle => rwa [List.append_nil]
  | refused request =>
      rw [holders_snoc]
      exact h
  | answered call request patience _ x => exact x.elim
  | granted request hrequest hfree =>
      obtain ⟨hreaders, hwriter, halone⟩ := h
      rw [holders_snoc]
      cases request with
      | read t =>
          have hw : g.state.writer = false := hfree
          have hroom := hclean.2 t hrequest
          have hnext : counted g.state.readers = g.state.readers + 1 :=
            Nat.mod_eq_of_lt (by omega)
          refine ⟨?_, hwriter, fun hn => absurd (hw.symm.trans hn) (by decide)⟩
          show counted g.state.readers = _
          rw [hnext, hreaders]
          rfl
      | write t =>
          have hfree : (g.state.writer || decide (0 < g.state.readers)) = false := hfree
          obtain ⟨hw, hread⟩ := Bool.or_eq_false_iff.mp hfree
          have hzero : (holders w).reading.length = 0 := by
            rw [← hreaders]
            simpa using hread
          rw [hw] at hwriter
          refine ⟨hreaders, ?_, fun _ => List.length_eq_zero_iff.mp hzero⟩
          show ((holders w).writing).length + 1 = 1
          rw [hwriter]
          rfl
  | acted t haction =>
      rw [holders_snoc]
      exact (unlock_tracks h (hclean.1 t haction)).1

theorem after_tracks {as : List Action}
    (h : ∀ pre a, pre ++ [a] <+: as →
      Clean (rwlock.machine.after start pre) (rwlock.machine.log start pre) a) :
    Tracks (rwlock.machine.after start as).state (holders (rwlock.machine.log start as)) :=
  rwlock.prefix_rule (p := Clean) (R := fun s w => Tracks s (holders w))
    (fun _ _ _ _ _ ht hclean hmoves => moves_tracks ht hclean hmoves) tracks_free h

/-- In a run of clean steps a writer holds the lock alone, and an unlock by a thread that holds
nothing is refused and changes nothing. -/
theorem rwlock_excludes (as : List Action)
    (h : ∀ pre a, pre ++ [a] <+: as →
      Clean (rwlock.machine.after start pre) (rwlock.machine.log start pre) a) :
    (∀ pre, pre <+: as → (holders (rwlock.machine.log start pre)).Exclusive) ∧
      ∀ pre t, pre ++ [.act t] <+: as → (holders (rwlock.machine.log start pre)).nothing t →
        rwlock.machine.log (rwlock.machine.after start pre) [.act t] = [.acted t false] ∧
          rwlock.machine.after start (pre ++ [.act t]) = rwlock.machine.after start pre := by
  have hpre : ∀ pre, pre <+: as →
      Tracks (rwlock.machine.after start pre).state (holders (rwlock.machine.log start pre)) :=
    fun pre hpre => after_tracks (fun pre' a hpre' => h pre' a (hpre'.trans hpre))
  refine ⟨fun pre hp => (hpre pre hp).exclusive, fun pre t hp hnot => ?_⟩
  have hrefused := (unlock_tracks (hpre pre ((List.prefix_append pre [_]).trans hp))
    ((h pre _ hp).1 t rfl)).2 hnot
  have hstep : rwlock.step (rwlock.machine.after start pre) (.act t) =
      (rwlock.machine.after start pre, [.acted t false]) := by
    show (_, _) = _
    rw [show rwlock.act (rwlock.machine.after start pre).state t = _ from hrefused]
  rw [Machine.after_append, Machine.after_cons, Machine.log_cons, Monitor.machine_step, hstep]
  exact ⟨rfl, rfl⟩

/-- A thread reads, another writes once it is done, and the first finds nothing of its own left
to unlock while nobody holds the lock. -/
theorem rwlock_excludes_handover :
    let as : List Action :=
      [.ask 0 (.read 1) .forever, .ask 1 (.write 2) .deadline, .act 1, .recheck 1, .act 2, .act 1]
    (∀ pre, pre <+: as → (holders (rwlock.machine.log start pre)).Exclusive) ∧
      ∀ pre t, pre ++ [.act t] <+: as → (holders (rwlock.machine.log start pre)).nothing t →
        rwlock.machine.log (rwlock.machine.after start pre) [.act t] = [.acted t false] ∧
          rwlock.machine.after start (pre ++ [.act t]) = rwlock.machine.after start pre := by
  intro as
  apply rwlock_excludes as
  refine forall_snoc_prefix_cons.mpr ⟨clean_wait (by simp) (by decide), ?_⟩
  refine forall_snoc_prefix_cons.mpr ⟨clean_wait (by simp) (by decide), ?_⟩
  refine forall_snoc_prefix_cons.mpr ⟨clean_act (by decide), ?_⟩
  refine forall_snoc_prefix_cons.mpr ⟨clean_wait (by simp) (by decide), ?_⟩
  refine forall_snoc_prefix_cons.mpr ⟨clean_act (by decide), ?_⟩
  refine forall_snoc_prefix_cons.mpr ⟨clean_act (by decide), fun pre a hpre => ?_⟩
  exact absurd (List.prefix_nil.mp hpre) (List.append_ne_nil_of_right_ne_nil _ (List.cons_ne_nil _ _))

/-- An unlock by a thread that holds nothing lets a writer in beside a reader. -/
theorem stray_unlock :
    let as : List Action :=
      [.ask 0 (.read 1) .never, .act 2, .ask 0 (.write 3) .never]
    holders (rwlock.machine.log start as) = ⟨[1], [3]⟩ ∧
      ¬ ∀ (as : List Action),
        (∀ pre, pre <+: as → (holders (rwlock.machine.log start pre)).Exclusive) ∧
          ∀ pre t, pre ++ [.act t] <+: as → (holders (rwlock.machine.log start pre)).nothing t →
            rwlock.machine.log (rwlock.machine.after start pre) [.act t] = [.acted t false] := by
  intro as
  have hboth : holders (rwlock.machine.log start as) = ⟨[1], [3]⟩ := by decide
  refine ⟨hboth, fun hall => ?_⟩
  have halone := ((hall as).1 as List.prefix_rfl).2
  rw [hboth] at halone
  exact absurd (halone (by decide)) (by decide)

end Orbistoun.Kernel.Sync.Rwlock
