import Orbistoun.Mem.Watch.Asks

/-! # The watch over whole runs

Each operation of `watch.rs` holds the record for as long as it runs, so a run is any
interleaving of them with guest writes, with what the guest maps, protects and frees, and
with the host's own answers changing. A guest write that meets a guard only runs the
fault handler; the instruction runs again as a write of its own.
-/

namespace Orbistoun.Mem.Watch

open Std (TreeMap TreeSet)
open Orbistoun.Lib
open Orbistoun.Lib.U64 (saturatingAdd bound)

inductive Act where
  | guardMarkedRanges
  | mark (base len : Nat)
  | markAll (ranges : List (Nat × Nat))
  | harvestAll (ranges : List (Nat × Nat))
  | writtenSince (base len since : Nat)
  | write (address : Nat)
  | noteWritten (base len : Nat)
  | releaseGuards (base len : Nat)
  | forbidGuards (base len : Nat)
  | allowGuards (base len : Nat)
  | owedTo (base len : Nat)
  | settled (base : Nat)
  | reserve (base len : Nat)
  | free (base len : Nat)
  | protect (base len : Nat) (readOnly : Nat → Bool)
  | registry (op : Mappings.Op)
  | regions (regionEnd : Nat → Option Nat) (plain : Nat → Nat → Bool)

/-- What a step did: a stamp handed out, a range written, and ranges whose written pages
the record now has, all of them. -/
inductive Event where
  | handed (stamp : Nat)
  | wrote (base len : Nat)
  | harvested (ranges : List (Nat × Nat))
  deriving DecidableEq, Repr

/-- The page of `x` is part of memory the guest frees. -/
def Act.Frees (x : Nat) : Act → Prop
  | .free base len => touches base (base + len) (x / pageBytes) = true
  | _ => False

namespace State

/-- A guest write: nothing where nothing is mapped, the fault handler where the page is
read-only, and otherwise a page the host's watch holds as written. -/
def write (s : State) (address : Nat) : State × List Event :=
  if !s.host.holds address then (s, [])
  else if s.host.readOnly (address / pageBytes) then ((s.writeFaulted address).2, [])
  else
    ({ s with host := { s.host with dirty := s.host.dirty.insert (address / pageBytes) } },
      [.wrote address 1])

/-- A reservation the host makes: inside user space, and of nothing it holds already. -/
def reserve (s : State) (base len : Nat) : State :=
  if base + len ≤ userEnd ∧ ∀ r ∈ s.host.held, base + len ≤ r.1 ∨ r.1 + r.2 ≤ base then
    { s with host := { s.host with held := (base, len) :: s.host.held } }
  else s

/-- The host's side of a reservation going away: its pages and what the watch held of
them. -/
def unmap (s : State) (base len : Nat) : State :=
  { s with
    host := { s.host.setReadOnly base (base + len) false with
      held := s.host.held.erase (base, len)
      dirty := (s.host.dirty.toList.filter (touches base (base + len))).foldl
        TreeSet.erase s.host.dirty } }

/-- A reservation dropped: its guards released first. -/
def free (s : State) (base len : Nat) : State :=
  if (base, len) ∈ s.host.held then (s.releaseGuards base len).unmap base len else s

/-- A change of protection: the guards of the range released first. -/
def protect (s : State) (base len : Nat) (readOnly : Nat → Bool) : State :=
  let s := s.releaseGuards base len
  let readOnly n := if touches base (base + len) n then readOnly n else s.host.readOnly n
  { s with host := { s.host with readOnly := readOnly } }

def step (s : State) : Act → State × List Event
  | .guardMarkedRanges => ({ s with guarding := true }, [])
  | .mark base len =>
      match s.mark base len with
      | (none, s) => (s, [])
      | (some m, s) => (s, [.handed m, .harvested [(base, len)]])
  | .markAll ranges =>
      match s.markAll ranges with
      | (none, s) => (s, [])
      | (some m, s) => (s, [.handed m, .harvested ranges])
  | .harvestAll ranges =>
      match s.harvestAll ranges with
      | (false, s) => (s, [])
      | (true, s) => (s, [.harvested ranges])
  | .writtenSince base len since =>
      ((s.writtenSince base len since).2,
        if !s.owedOver base len && (s.writtenSince base len since).1.isSome then
          [.harvested [(base, len)]]
        else [])
  | .write address => s.write address
  | .noteWritten base len => (s.noteWritten base len, [.wrote base len])
  | .releaseGuards base len => (s.releaseGuards base len, [])
  | .forbidGuards base len => (s.forbidGuards base len, [])
  | .allowGuards base len => (s.allowGuards base len, [])
  | .owedTo base len => (s.owedTo base len, [])
  | .settled base => (s.settled base, [])
  | .reserve base len => (s.reserve base len, [])
  | .free base len => (s.free base len, [])
  | .protect base len readOnly => (s.protect base len readOnly, [])
  | .registry op => ({ s with registry := Mappings.step s.registry op }, [])
  | .regions regionEnd plain =>
      ({ s with host := { s.host with regionEnd := regionEnd, plain := plain } }, [])

/-- The watch and the memory it is asked about. -/
def watch : Machine State Act Event := ⟨step⟩

variable {s : State}

/-! ## Steps -/

theorem inv_start : Inv start where
  aligned := by simp [start]
  apart := by simp [start]
  quiet := by simp [start]
  indexed := by simp [start, Record.Indexed]
  counted := rfl
  bounded := by simp [start]

/-- A page of a live reservation is in user space. -/
theorem Inv.lt_userEnd (h : Inv s) {x : Nat} (hx : s.host.holds x = true) : x < userEnd := by
  obtain ⟨r, hr, hin⟩ := List.any_eq_true.mp hx
  have hend := h.bounded r hr
  simp only [Bool.and_eq_true, decide_eq_true_eq] at hin
  omega

theorem Inv.unmap (h : Inv s) {base len : Nat}
    (hfree : ∀ g ∈ s.record.guards, g.meets (pagesOf base len).1 (pagesOf base len).2 = false) :
    Inv (s.unmap base len) := by
  refine ⟨h.aligned, h.apart, fun g hg n hn => ?_, h.indexed, h.counted, fun r hr => ?_⟩
  · obtain ⟨hread, hclean⟩ := h.quiet g hg n hn
    have hother : ¬ touches base (base + len) n = true := fun ht =>
      not_has_of_released (h.aligned g hg) (hfree g hg) ht hn
    refine ⟨?_, fun hmem => hclean (mem_foldl_erase.mp hmem).1⟩
    simp only [State.unmap, Host.setReadOnly, if_neg hother]
    exact hread
  · exact h.bounded r (List.mem_of_mem_erase hr)

theorem Inv.protect (h : Inv s) (base len : Nat) (readOnly : Nat → Bool) :
    Inv (s.protect base len readOnly) := by
  obtain ⟨hinv, -, hfree⟩ := releaseGuards_spec base len h
  refine ⟨hinv.aligned, hinv.apart, fun g hg n hn => ?_, hinv.indexed, hinv.counted,
    hinv.bounded⟩
  obtain ⟨hread, hclean⟩ := hinv.quiet g hg n hn
  have hother : ¬ touches base (base + len) n = true := fun ht =>
    not_has_of_released (hinv.aligned g hg) (hfree g hg) ht hn
  refine ⟨?_, hclean⟩
  simp only [State.protect, if_neg hother]
  exact hread

theorem Inv.write (h : Inv s) (address : Nat) : Inv (s.write address).1 := by
  unfold State.write
  split
  · exact h
  · split
    · exact (writeFaulted_spec h address).1
    · next hwritable =>
      refine ⟨h.aligned, h.apart, fun g hg n hn => ?_, h.indexed, h.counted, h.bounded⟩
      obtain ⟨hread, hclean⟩ := h.quiet g hg n hn
      refine ⟨hread, fun hmem => ?_⟩
      -- a write lands on no page of a guard: those are read-only
      rcases TreeSet.mem_insert.mp hmem with heq | hmem
      · rw [Nat.compare_eq_eq.mp heq, hread] at hwritable
        exact hwritable rfl
      · exact hclean hmem

theorem Inv.step (h : Inv s) (a : Act) : Inv (step s a).1 := by
  cases a with
  | guardMarkedRanges => exact ⟨h.aligned, h.apart, h.quiet, h.indexed, h.counted, h.bounded⟩
  | mark base len =>
      have hinv := (mark_spec h base len).1
      simp only [State.step]
      split <;> simp_all
  | markAll ranges =>
      have hinv := (markAll_spec h ranges).1
      simp only [State.step]
      split <;> simp_all
  | harvestAll ranges =>
      have hinv := (harvestAll_spec h ranges).1
      simp only [State.step]
      split <;> simp_all
  | writtenSince base len since => exact (writtenSince_spec h base len since).1
  | write address => exact h.write address
  | noteWritten base len => exact (noteWritten_spec h base len).1
  | releaseGuards base len => exact (releaseGuards_spec base len h).1
  | forbidGuards base len =>
      have hinv : Inv { s with unguardable := s.unguardable.insert base len } :=
        ⟨h.aligned, h.apart, h.quiet, h.indexed, h.counted, h.bounded⟩
      exact (releaseGuards_spec base len hinv).1
  | allowGuards base len =>
      simp only [State.step, allowGuards]
      split
      · exact ⟨h.aligned, h.apart, h.quiet, h.indexed, h.counted, h.bounded⟩
      · exact h
  | owedTo base len => exact ⟨h.aligned, h.apart, h.quiet, h.indexed, h.counted, h.bounded⟩
  | settled base => exact ⟨h.aligned, h.apart, h.quiet, h.indexed, h.counted, h.bounded⟩
  | reserve base len =>
      simp only [State.step, reserve]
      split
      · next hfits =>
        refine ⟨h.aligned, h.apart, h.quiet, h.indexed, h.counted, fun r hr => ?_⟩
        rcases List.mem_cons.mp hr with rfl | hr
        · exact hfits.1
        · exact h.bounded r hr
      · exact h
  | free base len =>
      simp only [State.step, free]
      split
      · obtain ⟨hinv, -, hfree⟩ := releaseGuards_spec base len h
        exact hinv.unmap hfree
      · exact h
  | protect base len readOnly => exact h.protect base len readOnly
  | registry op => exact ⟨h.aligned, h.apart, h.quiet, h.indexed, h.counted, h.bounded⟩
  | regions regionEnd plain =>
      exact ⟨h.aligned, h.apart, h.quiet, h.indexed, h.counted, h.bounded⟩

/-- Pages written meanwhile, or none, with the record as it was. -/
theorem kept_of_record_eq {s' : State} (hrecord : s'.record = s.record)
    (hdirty : ∀ n, n ∈ s.host.dirty → n ∈ s'.host.dirty) : Kept s s' := by
  refine ⟨by rw [hrecord], fun n hn => .inl (hdirty n hn), fun a e ha => ⟨e, ?_, .inl rfl⟩⟩
  rw [hrecord, ha]

theorem write_kept (h : Inv s) (address : Nat) : Kept s (s.write address).1 := by
  unfold State.write
  split
  · exact Kept.refl s
  · split
    · exact (writeFaulted_spec h address).2
    · exact kept_of_record_eq rfl (fun n hn => TreeSet.mem_insert.mpr (.inr hn))

/-- Every step but the freeing of memory keeps the pages seen written. -/
theorem step_kept (h : Inv s) {a : Act} (hfree : ∀ base len, a ≠ .free base len) :
    Kept s (step s a).1 := by
  cases a with
  | guardMarkedRanges => exact kept_of_record_eq rfl (fun _ hn => hn)
  | mark base len =>
      have hkept := (mark_spec h base len).2.1
      simp only [State.step]
      split <;> simp_all
  | markAll ranges =>
      have hkept := (markAll_spec h ranges).2
      simp only [State.step]
      split <;> simp_all
  | harvestAll ranges =>
      have hkept := (harvestAll_spec h ranges).2
      simp only [State.step]
      split <;> simp_all
  | writtenSince base len since => exact (writtenSince_spec h base len since).2
  | write address => exact write_kept h address
  | noteWritten base len => exact (noteWritten_spec h base len).2
  | releaseGuards base len => exact (releaseGuards_spec base len h).2.1
  | forbidGuards base len =>
      have hinv : Inv { s with unguardable := s.unguardable.insert base len } :=
        ⟨h.aligned, h.apart, h.quiet, h.indexed, h.counted, h.bounded⟩
      have hsame : Kept s { s with unguardable := s.unguardable.insert base len } :=
        kept_of_record_eq rfl (fun _ hn => hn)
      exact hsame.trans (releaseGuards_spec base len hinv).2.1
  | allowGuards base len =>
      simp only [State.step, allowGuards]
      split
      · exact kept_of_record_eq rfl (fun _ hn => hn)
      · exact Kept.refl s
  | owedTo base len => exact kept_of_record_eq rfl (fun _ hn => hn)
  | settled base => exact kept_of_record_eq rfl (fun _ hn => hn)
  | reserve base len =>
      simp only [State.step, reserve]
      split
      · exact kept_of_record_eq rfl (fun _ hn => hn)
      · exact Kept.refl s
  | free base len => exact absurd rfl (hfree base len)
  | protect base len readOnly =>
      exact (releaseGuards_spec base len h).2.1.trans (kept_of_record_eq rfl (fun _ hn => hn))
  | registry op => exact kept_of_record_eq rfl (fun _ hn => hn)
  | regions regionEnd plain => exact kept_of_record_eq rfl (fun _ hn => hn)

variable {m x : Nat} {a : Act}

theorem step_epoch (h : Inv s) (a : Act) : s.record.epoch ≤ (step s a).1.record.epoch := by
  by_cases hfree : ∃ base len, a = .free base len
  · obtain ⟨base, len, rfl⟩ := hfree
    simp only [State.step, free]
    split
    · exact (releaseGuards_spec base len h).2.1.epoch
    · exact le_refl _
  · exact (step_kept h (fun base len heq => hfree ⟨base, len, heq⟩)).epoch

/-- A page in the record stays in it, freed memory or not. -/
theorem step_recorded (h : Inv s) (hm : m < s.record.epoch) {n : Nat} (hr : s.Recorded n m) :
    (step s a).1.Recorded n m := by
  by_cases hfree : ∃ base len, a = .free base len
  · obtain ⟨base, len, rfl⟩ := hfree
    simp only [State.step, free]
    split
    · exact (releaseGuards_spec base len h).2.1.recorded hm hr
    · exact hr
  · exact (step_kept h (fun base len heq => hfree ⟨base, len, heq⟩)).recorded hm hr

theorem step_seen (h : Inv s) (hm : m < s.record.epoch) (hseen : s.Seen (x / pageBytes) m)
    (hkept : ¬ a.Frees x) : (step s a).1.Seen (x / pageBytes) m := by
  by_cases hfree : ∃ base len, a = .free base len
  · obtain ⟨base, len, rfl⟩ := hfree
    simp only [State.step, free]
    split
    · rcases (releaseGuards_spec base len h).2.1.seen hm hseen with hn | hr
      · refine .inl (mem_foldl_erase.mpr ⟨hn, fun hmem => hkept ?_⟩)
        exact (List.mem_filter.mp hmem).2
      · exact .inr hr
    · exact hseen
  · exact (step_kept h (fun base len heq => hfree ⟨base, len, heq⟩)).seen hm hseen

theorem step_handed (h : Inv s) (hm : .handed m ∈ (step s a).2) :
    m < (step s a).1.record.epoch := by
  cases a with
  | mark base len =>
      have hspec := (mark_spec h base len).2.2
      simp only [State.step] at hm ⊢
      split at hm <;> simp_all
  | markAll ranges =>
      have hspec := @markAll_stamp s h ranges
      simp only [State.step] at hm ⊢
      split at hm <;> simp_all
  | harvestAll ranges =>
      simp only [State.step] at hm
      split at hm <;> simp at hm
  | writtenSince base len since =>
      simp only [State.step] at hm
      split at hm <;> simp at hm
  | write address =>
      simp only [State.step, State.write] at hm
      split at hm
      · simp at hm
      · split at hm <;> simp at hm
  | _ => simp [State.step] at hm

theorem step_wrote (h : Inv s) {base len : Nat} (hm : m < s.record.epoch)
    (hw : .wrote base len ∈ (step s a).2) (hbase : base ≤ x) (hlen : x < base + len)
    (hx : x < userEnd) : (step s a).1.Seen (x / pageBytes) m := by
  cases a with
  | mark base len =>
      simp only [State.step] at hw
      split at hw <;> simp at hw
  | markAll ranges =>
      simp only [State.step] at hw
      split at hw <;> simp at hw
  | harvestAll ranges =>
      simp only [State.step] at hw
      split at hw <;> simp at hw
  | writtenSince base len since =>
      simp only [State.step] at hw
      split at hw <;> simp at hw
  | write address =>
      simp only [State.step, State.write] at hw ⊢
      split at hw
      · simp at hw
      · split at hw
        · simp at hw
        · next hholds hwritable =>
          simp only [List.mem_singleton, Event.wrote.injEq] at hw
          rw [if_neg hholds, if_neg hwritable]
          have heq : x = address := by omega
          rw [heq]
          exact .inl (TreeSet.mem_insert.mpr (.inl (Nat.compare_eq_eq.mpr rfl)))
  | noteWritten base' len' =>
      simp only [State.step, List.mem_singleton, Event.wrote.injEq] at hw
      obtain ⟨rfl, rfl⟩ := hw
      exact .inr (noteWritten_recorded h hbase hlen hx hm)
  | _ => simp [State.step] at hw

/-- A range said to be harvested has no written page left with the host. -/
theorem step_harvested (h : Inv s) {ranges : List (Nat × Nat)}
    (hh : .harvested ranges ∈ (step s a).2) {r : Nat × Nat} (hr : r ∈ ranges)
    (hbase : r.1 ≤ x) (hlen : x < r.1 + r.2) (hx : x < userEnd) : (step s a).1.Clear x := by
  cases a with
  | mark base len =>
      have hspec := (mark_spec h base len).2.2
      simp only [State.step] at hh ⊢
      split at hh
      · simp at hh
      · next stamp s' hmark =>
        simp only [List.mem_cons, Event.harvested.injEq, List.not_mem_nil, or_false,
          reduceCtorEq, false_or] at hh
        subst hh
        rw [List.mem_singleton.mp hr] at hbase hlen
        rw [hmark] at hspec
        exact (hspec stamp rfl).2 _ (touches_of_mem hbase hlen hx)
  | markAll ranges' =>
      simp only [State.step] at hh ⊢
      split at hh
      · simp at hh
      · next stamp s' hmark =>
        simp only [List.mem_cons, Event.harvested.injEq, List.not_mem_nil, or_false,
          reduceCtorEq, false_or] at hh
        subst hh
        have hwatched := (markAll_stamp h (congrArg Prod.fst hmark)).1
        have hclear := harvestAll_clear h hwatched hr hbase hlen hx
        have hs' : s' = (s.harvestAll ranges).2.nextEpoch := (congrArg Prod.snd hmark).symm
        rw [hs']
        exact hclear
  | harvestAll ranges' =>
      simp only [State.step] at hh ⊢
      split at hh
      · simp at hh
      · next s' hharvest =>
        simp only [List.mem_singleton, Event.harvested.injEq] at hh
        subst hh
        have hclear := harvestAll_clear h (congrArg Prod.fst hharvest) hr hbase hlen hx
        rwa [hharvest] at hclear
  | writtenSince base len since =>
      simp only [State.step] at hh ⊢
      split at hh
      · next hasked =>
        simp only [List.mem_singleton, Event.harvested.injEq] at hh
        subst hh
        rw [List.mem_singleton.mp hr] at hbase hlen
        simp only [Bool.and_eq_true, Bool.not_eq_true'] at hasked
        exact writtenSince_clear h hasked.1 hasked.2 hbase hlen hx
      · simp at hh
  | write address =>
      simp only [State.step, State.write] at hh
      split at hh
      · simp at hh
      · split at hh <;> simp at hh
  | _ => simp [State.step] at hh

/-! ## Runs -/

theorem run_inv (as : List Act) : Inv (watch.after start as) :=
  Machine.after_inv (m := watch) (fun _ a h => h.step a) inv_start as

theorem after_epoch (h : Inv s) (hm : m < s.record.epoch) (as : List Act) :
    m < (watch.after s as).record.epoch :=
  (Machine.after_inv (m := watch) (I := fun s => Inv s ∧ m < s.record.epoch)
    (fun _ a hs => ⟨hs.1.step a, lt_of_lt_of_le hs.2 (step_epoch hs.1 a)⟩) ⟨h, hm⟩ as).2

theorem after_seen (h : Inv s) (hm : m < s.record.epoch) (hseen : s.Seen (x / pageBytes) m)
    {as : List Act} (hkept : ∀ a ∈ as, ¬ a.Frees x) :
    (watch.after s as).Seen (x / pageBytes) m := by
  induction as generalizing s with
  | nil => exact hseen
  | cons a as ih =>
      have hepoch : m < (step s a).1.record.epoch := lt_of_lt_of_le hm (step_epoch h a)
      exact ih (h.step a) hepoch (step_seen h hm hseen (hkept a List.mem_cons_self))
        (fun b hb => hkept b (List.mem_cons_of_mem _ hb))

theorem after_recorded (h : Inv s) (hm : m < s.record.epoch) {n : Nat} (hr : s.Recorded n m)
    (as : List Act) : (watch.after s as).Recorded n m := by
  induction as generalizing s with
  | nil => exact hr
  | cons a as ih =>
      have hepoch : m < (step s a).1.record.epoch := lt_of_lt_of_le hm (step_epoch h a)
      exact ih (h.step a) hepoch (step_recorded h hm hr)

end State

open State

theorem lt_userEnd_of_same_page {x y : Nat} (h : y / pageBytes = x / pageBytes)
    (hx : x < userEnd) : y < userEnd := by
  simp only [pageBytes, userEnd] at *
  omega

/-- A run hands out the stamp `m`, then writes the byte `x` of live memory, and does not
free its page afterwards. -/
structure WroteSince (as : List Act) (m x : Nat) : Prop where
  run : ∃ before marks between writes later b l,
    as = before ++ marks :: between ++ writes :: later ∧
    .handed m ∈ (watch.step (watch.after start before) marks).2 ∧
    .wrote b l ∈ (watch.step (watch.after start (before ++ marks :: between)) writes).2 ∧
    (b ≤ x ∧ x < b + l) ∧
    (watch.after start (before ++ marks :: between)).host.holds x = true ∧
    ∀ a ∈ later, ¬ a.Frees x

/-- A range has an address of the page of `x`. -/
def HasPage (base len x : Nat) : Prop :=
  ∃ y, y / pageBytes = x / pageBytes ∧ base ≤ y ∧ y < base + len

/-- A step after which the record has every written page of a range with the page of
`x`. -/
def HarvestsPage (s : State) (a : Act) (x : Nat) : Prop :=
  ∃ ranges, .harvested ranges ∈ (watch.step s a).2 ∧ ∃ r ∈ ranges, HasPage r.1 r.2 x

theorem WroteSince.seen {as : List Act} {m x : Nat} (h : WroteSince as m x) :
    (watch.after start as).Seen (x / pageBytes) m ∧
      m < (watch.after start as).record.epoch ∧ x < userEnd := by
  obtain ⟨before, marks, between, writes, later, b, l, rfl, hmark, hwrite, ⟨hb, hl⟩, hheld, hkept⟩ :=
    h.run
  have hbefore := run_inv before
  have hinv := run_inv (before ++ marks :: between)
  have hx : x < userEnd := hinv.lt_userEnd hheld
  have hstamp : m < (watch.after start (before ++ marks :: between)).record.epoch := by
    rw [Machine.after_append, Machine.after_cons]
    exact after_epoch (hbefore.step marks) (step_handed hbefore hmark) between
  rw [Machine.after_append _ _ (before ++ marks :: between), Machine.after_cons]
  have hseen := step_wrote hinv hstamp hwrite hb hl hx
  have hepoch := lt_of_lt_of_le hstamp (step_epoch hinv writes)
  exact ⟨after_seen (hinv.step writes) hepoch hseen hkept,
    after_epoch (hinv.step writes) hepoch later, hx⟩

/-- No write is missed: after a stamp is handed out and memory then written, by the guest
or by a device that says so, no question with that stamp over a range with an address of
the page answers that it was not written, until its reservation is freed. The record
alone says that it was from the first harvest of the page after the write. -/
theorem write_never_missed {as : List Act} {m x base len : Nat} (hwrote : WroteSince as m x)
    (hrange : HasPage base len x) :
    (State.writtenSince (watch.after start as) base len m).1 ≠ some false ∧
      ∀ harvests rest, HarvestsPage (watch.after start as) harvests x →
        State.recordedSince (watch.after start (as ++ harvests :: rest)) base len m = true := by
  obtain ⟨hseen, hepoch, hx⟩ := hwrote.seen
  obtain ⟨y, hpage, hbase, hlen⟩ := hrange
  have hinv := run_inv as
  have hy : y < userEnd := lt_userEnd_of_same_page hpage hx
  constructor
  · rw [← hpage] at hseen
    exact writtenSince_of_seen hinv hepoch hseen hbase hlen hy
  · rintro harvests rest ⟨ranges, hharvested, r, hr, z, hz, hzbase, hzlen⟩
    have hclear := step_harvested hinv hharvested hr hzbase hzlen (lt_userEnd_of_same_page hz hx)
    have hfrees : ¬ harvests.Frees x := by
      intro hfrees
      cases harvests with
      | free base len => simp [watch, State.step] at hharvested
      | _ => exact hfrees
    have hafter : (watch.step (watch.after start as) harvests).1.Seen (x / pageBytes) m :=
      step_seen hinv hepoch hseen hfrees
    rw [State.Clear, hz] at hclear
    have hrecorded := after_recorded (hinv.step harvests)
      (lt_of_lt_of_le hepoch (step_epoch hinv harvests)) (hafter.recorded hclear) rest
    rw [← hpage] at hrecorded
    have hrest := run_inv (as ++ harvests :: rest)
    rw [Machine.after_append, Machine.after_cons] at hrest ⊢
    exact recordedSince_of_recorded hrest hrecorded hbase hlen hy

def markedThenWritten : List Act :=
  [.reserve 0x10000 0x1000, .registry (.reserved 0x10000 0x1000 true),
    .markAll [(0x10000, 0x1000)], .write 0x10000]

theorem markedThenWritten_wroteSince : WroteSince markedThenWritten 1 0x10000 :=
  ⟨[.reserve 0x10000 0x1000, .registry (.reserved 0x10000 0x1000 true)],
    .markAll [(0x10000, 0x1000)], [], .write 0x10000, [], 0x10000, 1, rfl, by decide, by decide,
    by decide, by decide, by simp⟩

theorem write_never_missed_one_page :
    (State.writtenSince (watch.after start markedThenWritten) 0x10000 0x1000 1).1 ≠ some false ∧
      State.recordedSince (watch.after start
        (markedThenWritten ++ [.harvestAll [(0x10000, 0x1000)]])) 0x10000 0x1000 1 = true := by
  have hrange : HasPage 0x10000 0x1000 0x10000 := ⟨0x10000, rfl, by decide, by decide⟩
  have hnever := write_never_missed markedThenWritten_wroteSince hrange
  refine ⟨hnever.1, hnever.2 (.harvestAll [(0x10000, 0x1000)]) [] ?_⟩
  exact ⟨[(0x10000, 0x1000)], by decide, (0x10000, 0x1000), by decide, hrange⟩

/-- The record alone does not know of a write no harvest has taken, and the host forgets
one with the reservation it was made in: the same range reserved again is answered for as
unwritten. -/
theorem unharvested_write_missed :
    (.handed 1 ∈ watch.log start markedThenWritten ∧
      .wrote 0x10000 1 ∈ watch.log start markedThenWritten ∧
      State.recordedSince (watch.after start markedThenWritten) 0x10000 0x1000 1 = false) ∧
    (State.writtenSince (watch.after start (markedThenWritten ++
      [.registry (.released 0x10000), .free 0x10000 0x1000, .reserve 0x10000 0x1000,
        .registry (.reserved 0x10000 0x1000 true)])) 0x10000 0x1000 1).1 = some false := by
  decide

end Orbistoun.Mem.Watch
