import Orbistoun.Mem.Watch.Threads.Step

/-! # The ranges owed and the ranges forbidden

Both are kept in a map by their base, so one range at a base takes the place of another. What a
sequence of calls leaves owed, or forbidden, is stated on the calls alone; the maps answer for it
where no call puts a range over another that hides it.
-/

namespace Orbistoun.Mem.Watch

open Std (TreeMap)
open Orbistoun.Lib
open Orbistoun.Lib.U64 (saturatingAdd bound)

theorem getElem?_insert (t : TreeMap Nat Nat) (a l b : Nat) :
    (t.insert a l)[b]? = if a = b then some l else t[b]? := by
  simp only [TreeMap.getElem?_insert, Nat.compare_eq_eq]

theorem getElem?_erase (t : TreeMap Nat Nat) (a b : Nat) :
    (t.erase a)[b]? = if a = b then none else t[b]? := by
  simp only [TreeMap.getElem?_erase, Nat.compare_eq_eq]

/-! ## Ranges owed -/

inductive DebtCall where
  | owedTo (base len : Nat)
  | settled (base : Nat)

namespace DebtCall

/-- The debts that stand once a call is made: those of each `owed_to` no `settled` of its base has
followed. -/
def stands (standing : List (Nat × Nat)) : DebtCall → List (Nat × Nat)
  | .owedTo base len => (base, len) :: standing
  | .settled base => standing.filter (fun debt => debt.1 ≠ base)

def make (s : State) : DebtCall → State
  | .owedTo base len => s.owedTo base len
  | .settled base => s.settled base

/-- A debt of some bytes, ending in the address space, no shorter than one that stands at its base.
No range reaches around the first address, so a debt of no bytes does no harm there. -/
def Clean (standing : List (Nat × Nat)) : DebtCall → Prop
  | .owedTo base len => (0 < len ∨ base = 0) ∧ base + len < bound ∧
      ∀ debt ∈ standing, debt.1 = base → debt.2 ≤ len
  | .settled _ => True

end DebtCall

def standingDebts (calls : List DebtCall) : List (Nat × Nat) := calls.foldl DebtCall.stands []

/-- Some call owes the byte, and none has settled it since. -/
def OwedBy (calls : List DebtCall) (x : Nat) : Prop :=
  ∃ debt ∈ standingDebts calls, debt.1 ≤ x ∧ x < debt.1 + debt.2

def State.debts (s : State) (calls : List DebtCall) : State :=
  calls.foldl DebtCall.make { s with owed := ∅, owedCount := 0 }

/-- Every call is clean after the ones before it. -/
def CleanDebts (standing : List (Nat × Nat)) : List DebtCall → Prop
  | [] => True
  | call :: calls => call.Clean standing ∧ CleanDebts (call.stands standing) calls

/-- The map against the debts that stand: the longest at each base. -/
structure OwedInv (s : State) (standing : List (Nat × Nat)) : Prop where
  counted : s.owedCount = s.owed.size
  mapped : ∀ base len : Nat, s.owed[base]? = some len → (base, len) ∈ standing
  longest : ∀ debt ∈ standing, ∃ len : Nat, s.owed[debt.1]? = some len ∧ debt.2 ≤ len
  clean : ∀ debt ∈ standing, (0 < debt.2 ∨ debt.1 = 0) ∧ debt.1 + debt.2 < bound

theorem OwedInv.owedTo {s : State} {standing : List (Nat × Nat)} (h : OwedInv s standing)
    {base len : Nat} (hcall : (DebtCall.owedTo base len).Clean standing) :
    OwedInv (s.owedTo base len) ((base, len) :: standing) := by
  constructor
  · show (if s.owed.contains base then s.owedCount else s.owedCount + 1) =
      (s.owed.insert base len).size
    rw [TreeMap.size_insert, h.counted]
  · intro b l hb
    have hb' : (s.owed.insert base len)[b]? = some l := hb
    rw [getElem?_insert] at hb'
    split at hb'
    · rename_i heq
      cases hb'
      rw [heq]
      exact List.mem_cons_self
    · exact List.mem_cons_of_mem _ (h.mapped b l hb')
  · intro debt hdebt
    show ∃ l : Nat, (s.owed.insert base len)[debt.1]? = some l ∧ debt.2 ≤ l
    rw [getElem?_insert]
    rcases List.mem_cons.mp hdebt with rfl | hdebt
    · exact ⟨len, if_pos rfl, le_refl _⟩
    · by_cases heq : base = debt.1
      · exact ⟨len, if_pos heq, hcall.2.2 debt hdebt heq.symm⟩
      · rw [if_neg heq]
        exact h.longest debt hdebt
  · intro debt hdebt
    rcases List.mem_cons.mp hdebt with rfl | hdebt
    · exact ⟨hcall.1, hcall.2.1⟩
    · exact h.clean debt hdebt

theorem OwedInv.settled {s : State} {standing : List (Nat × Nat)} (h : OwedInv s standing)
    (base : Nat) :
    OwedInv (s.settled base) (standing.filter (fun debt => debt.1 ≠ base)) := by
  have hmem : ∀ debt, debt ∈ standing.filter (fun debt => debt.1 ≠ base) ↔
      debt ∈ standing ∧ debt.1 ≠ base := by
    intro debt
    simp [List.mem_filter]
  constructor
  · show (if s.owed.contains base then s.owedCount - 1 else s.owedCount) =
      (s.owed.erase base).size
    rw [TreeMap.size_erase, h.counted]
  · intro b l hb
    have hb' : (s.owed.erase base)[b]? = some l := hb
    rw [getElem?_erase] at hb'
    split at hb'
    · cases hb'
    · rename_i hne
      exact (hmem (b, l)).mpr ⟨h.mapped b l hb', fun heq => hne heq.symm⟩
  · intro debt hdebt
    obtain ⟨hin, hne⟩ := (hmem debt).mp hdebt
    show ∃ l : Nat, (s.owed.erase base)[debt.1]? = some l ∧ debt.2 ≤ l
    rw [getElem?_erase, if_neg (fun heq => hne heq.symm)]
    exact h.longest debt hin
  · intro debt hdebt
    exact h.clean debt ((hmem debt).mp hdebt).1

theorem OwedInv.make {s : State} {standing : List (Nat × Nat)} (h : OwedInv s standing)
    {call : DebtCall} (hcall : call.Clean standing) :
    OwedInv (call.make s) (call.stands standing) := by
  cases call with
  | owedTo base len => exact h.owedTo hcall
  | settled base => exact h.settled base

theorem OwedInv.run {s : State} {standing : List (Nat × Nat)} (h : OwedInv s standing)
    {calls : List DebtCall} (hclean : CleanDebts standing calls) :
    OwedInv (calls.foldl DebtCall.make s) (calls.foldl DebtCall.stands standing) := by
  induction calls generalizing s standing with
  | nil => exact h
  | cons call calls ih => exact ih (h.make hclean.1) hclean.2

theorem owedInv_debts (s : State) {calls : List DebtCall} (hclean : CleanDebts [] calls) :
    OwedInv (s.debts calls) (standingDebts calls) := by
  apply OwedInv.run _ hclean
  constructor
  · rfl
  · intro b l hb
    have hb' : (∅ : TreeMap Nat Nat)[b]? = some l := hb
    simp at hb'
  · exact List.forall_mem_nil _
  · exact List.forall_mem_nil _

/-- A range of some bytes is reported exactly where one of them is owed. -/
theorem OwedInv.owedOver_iff {s : State} {standing : List (Nat × Nat)} (h : OwedInv s standing)
    {base len : Nat} (hlen : 0 < len) : s.owedOver base len = true ↔
      ∃ x, base ≤ x ∧ x < base + len ∧ ∃ debt ∈ standing, debt.1 ≤ x ∧ x < debt.1 + debt.2 := by
  rw [State.owedOver]
  constructor
  · intro hover
    split at hover
    · cases hover
    · rw [List.any_eq_true] at hover
      obtain ⟨⟨at_, bytes⟩, hmem, hmeets⟩ := hover
      simp only [Bool.and_eq_true, decide_eq_true_eq] at hmeets
      have hin := h.mapped at_ bytes (TreeMap.mem_toList_iff_getElem?_eq_some.mp hmem)
      obtain ⟨hpos, hbound⟩ := h.clean _ hin
      simp only [saturatingAdd, bound] at *
      refine ⟨max base at_, le_max_left _ _, by omega, (at_, bytes), hin, le_max_right _ _, by omega⟩
  · rintro ⟨x, hbase, hx, debt, hdebt, hat, hbytes⟩
    obtain ⟨l, hl, hle⟩ := h.longest debt hdebt
    have hmapped := h.clean _ (h.mapped _ _ hl)
    have hmem := TreeMap.mem_toList_iff_getElem?_eq_some.mpr hl
    have hcount : (s.owedCount == 0) = false := by
      rw [h.counted, beq_eq_false_iff_ne]
      intro hzero
      have hempty := TreeMap.isEmpty_eq_size_eq_zero (t := s.owed)
      rw [hzero] at hempty
      rw [TreeMap.getElem?_of_isEmpty hempty] at hl
      cases hl
    rw [hcount, if_neg Bool.false_ne_true, List.any_eq_true]
    refine ⟨(debt.1, l), hmem, ?_⟩
    simp only [Bool.and_eq_true, decide_eq_true_eq]
    simp only [saturatingAdd, bound] at *
    omega

/-- In a run of clean calls a range is reported owed exactly where some call owes a byte of it that
none has settled since, and every question of such a range answers that it was written. -/
theorem owedOver_of_clean (s : State) (calls : List DebtCall) (hclean : CleanDebts [] calls)
    (base len : Nat) (hlen : 0 < len) :
    ((s.debts calls).owedOver base len = true ↔
      ∃ x, base ≤ x ∧ x < base + len ∧ OwedBy calls x) ∧
    ∀ x, base ≤ x → x < base + len → OwedBy calls x →
      ∀ since, ((s.debts calls).writtenSince base len since).1 = some true := by
  have hiff : (s.debts calls).owedOver base len = true ↔
      ∃ x, base ≤ x ∧ x < base + len ∧ OwedBy calls x :=
    (owedInv_debts s hclean).owedOver_iff hlen
  constructor
  · exact hiff
  · intro x hbase hx howed since
    rw [State.writtenSince, if_pos (hiff.mpr ⟨x, hbase, hx, howed⟩)]

/-- A debt of no bytes, and two that overlap, the first settled. -/
def overlapping : List DebtCall := [.owedTo 0 0, .owedTo 0 8192, .owedTo 4096 8192, .settled 0]

theorem owedOver_of_clean_overlapping :
    ((State.start.debts overlapping).owedOver 8000 1 = true ↔
      ∃ x, 8000 ≤ x ∧ x < 8000 + 1 ∧ OwedBy overlapping x) ∧
    ∀ x, 8000 ≤ x → x < 8000 + 1 → OwedBy overlapping x →
      ∀ since, ((State.start.debts overlapping).writtenSince 8000 1 since).1 = some true :=
  owedOver_of_clean State.start overlapping
    ⟨⟨by decide, by decide, by decide⟩, ⟨by decide, by decide, by decide⟩,
      ⟨by decide, by decide, by decide⟩, trivial, trivial⟩ 8000 1 (by decide)

/-- A shorter debt at the base of one that stands takes its place. -/
theorem owed_shortened :
    ¬ ∀ (s : State) (calls : List DebtCall) (base len x : Nat), base ≤ x → x < base + len →
      OwedBy calls x → (s.debts calls).owedOver base len = true := by
  intro h
  have hshort := h State.start [.owedTo 0 8192, .owedTo 0 4096] 5000 1 5000 (by decide) (by decide)
    ⟨(0, 8192), by decide, by decide, by decide⟩
  revert hshort
  decide +kernel

/-! ## Ranges forbidden -/

/-- Two ranges that are the same, or of which the one that starts first ends no later. -/
def InLine (r r' : Nat × Nat) : Prop :=
  r = r' ∨ (r.1 < r'.1 ∧ r.1 + r.2 ≤ r'.1 + r'.2) ∨ (r'.1 < r.1 ∧ r'.1 + r'.2 ≤ r.1 + r.2)

instance (r r' : Nat × Nat) : Decidable (InLine r r') := inferInstanceAs (Decidable (_ ∨ _ ∨ _))

inductive ForbidCall where
  | forbid (base len : Nat)
  | allow (base len : Nat)

namespace ForbidCall

/-- The ranges forbidden once a call is made: those of each `forbid_guards` that no `allow_guards` of
the same range has followed. -/
def stands (standing : List (Nat × Nat)) : ForbidCall → List (Nat × Nat)
  | .forbid base len => (base, len) :: standing
  | .allow base len => standing.filter (fun range => range ≠ (base, len))

def make (s : State) : ForbidCall → State
  | .forbid base len => s.forbidGuards base len
  | .allow base len => s.allowGuards base len

/-- A range that none forbidden hides and that hides none. -/
def Clean (standing : List (Nat × Nat)) : ForbidCall → Prop
  | .forbid base len => ∀ range ∈ standing, InLine range (base, len)
  | .allow _ _ => True

end ForbidCall

def standingForbids (calls : List ForbidCall) : List (Nat × Nat) := calls.foldl ForbidCall.stands []

/-- Every call is clean after the ones before it. -/
def CleanForbids (standing : List (Nat × Nat)) : List ForbidCall → Prop
  | [] => True
  | call :: calls => call.Clean standing ∧ CleanForbids (call.stands standing) calls

def State.forbids (s : State) (calls : List ForbidCall) : State :=
  calls.foldl ForbidCall.make { s with unguardable := ∅ }

structure ForbidInv (s : State) (standing : List (Nat × Nat)) : Prop where
  mapped : ∀ base len : Nat, s.unguardable[base]? = some len ↔ (base, len) ∈ standing
  inLine : ∀ range ∈ standing, ∀ range' ∈ standing, InLine range range'

theorem releaseMeeting_unguardable (first stop : Nat) (turns : Nat) (s : State) :
    (State.releaseMeeting first stop turns s).unguardable = s.unguardable := by
  induction turns generalizing s with
  | zero => rfl
  | succ turns ih =>
      rw [State.releaseMeeting]
      split
      · rfl
      · rename_i i _
        rw [ih]
        rw [State.release]
        split <;> rfl

theorem releaseGuards_unguardable (s : State) (base len : Nat) :
    (s.releaseGuards base len).unguardable = s.unguardable := by
  rw [State.releaseGuards]
  split
  · rfl
  · exact releaseMeeting_unguardable _ _ _ s

theorem InLine.symm {r r' : Nat × Nat} (h : InLine r r') : InLine r' r := by
  rcases h with h | h | h
  · exact .inl h.symm
  · exact .inr (.inr h)
  · exact .inr (.inl h)

theorem InLine.eq {base len len' : Nat} (h : InLine (base, len) (base, len')) : len = len' := by
  rcases h with h | h | h
  · exact congrArg Prod.snd h
  · exact absurd h.1 (lt_irrefl _)
  · exact absurd h.1 (lt_irrefl _)

theorem ForbidInv.forbid {s : State} {standing : List (Nat × Nat)} (h : ForbidInv s standing)
    {base len : Nat} (hcall : ∀ range ∈ standing, InLine range (base, len)) :
    ForbidInv (s.forbidGuards base len) ((base, len) :: standing) := by
  constructor
  · intro b l
    rw [State.forbidGuards, releaseGuards_unguardable]
    show (s.unguardable.insert base len)[b]? = some l ↔ _
    rw [getElem?_insert, List.mem_cons, Prod.mk.injEq]
    split
    · rename_i heq
      subst heq
      rw [Option.some_inj]
      constructor
      · intro hl
        exact .inl ⟨rfl, hl.symm⟩
      · intro hl
        rcases hl with hl | hl
        · exact hl.2.symm
        · exact (hcall (base, l) hl).eq.symm
    · rename_i hne
      rw [h.mapped b l]
      constructor
      · exact .inr
      · intro hl
        exact hl.resolve_left (fun heq => hne heq.1.symm)
  · intro range hrange range' hrange'
    rcases List.mem_cons.mp hrange with rfl | hrange
    · rcases List.mem_cons.mp hrange' with rfl | hrange'
      · exact .inl rfl
      · exact (hcall range' hrange').symm
    · rcases List.mem_cons.mp hrange' with rfl | hrange'
      · exact hcall range hrange
      · exact h.inLine range hrange range' hrange'

theorem ForbidInv.allow {s : State} {standing : List (Nat × Nat)} (h : ForbidInv s standing)
    (base len : Nat) :
    ForbidInv (s.allowGuards base len)
      (standing.filter (fun range => range ≠ (base, len))) := by
  have hmem : ∀ range, range ∈ standing.filter (fun range => range ≠ (base, len)) ↔
      range ∈ standing ∧ range ≠ (base, len) := by
    intro range
    simp [List.mem_filter]
  constructor
  · intro b l
    rw [hmem, ← h.mapped, State.allowGuards]
    split
    · rename_i hheld
      show (s.unguardable.erase base)[b]? = some l ↔ _
      rw [getElem?_erase]
      split
      · rename_i heq
        subst heq
        constructor
        · intro hnone
          cases hnone
        · intro ⟨hb, hne⟩
          rw [hheld] at hb
          cases hb
          exact absurd rfl hne
      · rename_i hne
        constructor
        · intro hb
          exact ⟨hb, fun heq => hne (congrArg Prod.fst heq).symm⟩
        · exact And.left
    · rename_i hnot
      constructor
      · intro hb
        refine ⟨hb, fun heq => hnot ?_⟩
        cases heq
        exact hb
      · exact And.left
  · intro range hrange range' hrange'
    exact h.inLine range ((hmem range).mp hrange).1 range' ((hmem range').mp hrange').1

theorem ForbidInv.make {s : State} {standing : List (Nat × Nat)} (h : ForbidInv s standing)
    {call : ForbidCall} (hcall : call.Clean standing) :
    ForbidInv (call.make s) (call.stands standing) := by
  cases call with
  | forbid base len => exact h.forbid hcall
  | allow base len => exact h.allow base len

theorem ForbidInv.run {s : State} {standing : List (Nat × Nat)} (h : ForbidInv s standing)
    {calls : List ForbidCall} (hclean : CleanForbids standing calls) :
    ForbidInv (calls.foldl ForbidCall.make s) (calls.foldl ForbidCall.stands standing) := by
  induction calls generalizing s standing with
  | nil => exact h
  | cons call calls ih => exact ih (h.make hclean.1) hclean.2

/-- The last range with its base before the end is past the start where any range is. -/
theorem ForbidInv.guardsForbidden_iff {s : State} {standing : List (Nat × Nat)}
    (h : ForbidInv s standing) {first stop : Nat} (hrange : first < stop) (hstop : stop < bound) :
    s.guardsForbidden first stop = true ↔
      ∃ range ∈ standing, range.1 < stop ∧ first < range.1 + range.2 := by
  have hsat : ∀ base len, first < saturatingAdd base len ↔ first < base + len := by
    intro base len
    simp only [saturatingAdd, bound] at *
    omega
  rw [State.guardsForbidden, Nearest.getEntryLT?_eq_lastLT]
  cases hlast : Nearest.lastLT s.unguardable stop with
  | none =>
      constructor
      · intro hfalse
        cases hfalse
      · rintro ⟨range, hin, hbase, hend⟩
        have hnot := Nearest.not_of_last_none hlast ((h.mapped range.1 range.2).mpr hin)
        exact absurd hbase (by simpa using hnot)
  | some e =>
      obtain ⟨b, l⟩ := e
      obtain ⟨hb, hbstop⟩ := Nearest.last_mem hlast
      have hin := (h.mapped b l).mp hb
      have hbstop : b < stop := by simpa using hbstop
      simp only [decide_eq_true_eq, hsat]
      constructor
      · intro hend
        exact ⟨(b, l), hin, hbstop, hend⟩
      · rintro ⟨range, hrange, hbase, hend⟩
        have hle : range.1 ≤ b :=
          Nearest.le_last hlast ((h.mapped range.1 range.2).mpr hrange) (by simpa using hbase)
        rcases h.inLine range hrange (b, l) hin with heq | ⟨-, hends⟩ | ⟨hless, -⟩
        · rw [heq] at hend
          exact hend
        · exact hend.trans_le hends
        · exact absurd hle (Nat.not_le.mpr hless)

/-- In a run where no range forbidden lies within another that is still forbidden, a range is
answered kept off exactly where it overlaps one that some call has forbidden and none has allowed
since. -/
theorem guardsForbidden_of_clean (s : State) (calls : List ForbidCall) (hclean : CleanForbids [] calls)
    (first stop : Nat) (hrange : first < stop) (hstop : stop < bound) :
    (s.forbids calls).guardsForbidden first stop = true ↔
      ∃ range ∈ standingForbids calls, range.1 < stop ∧ first < range.1 + range.2 := by
  have hstart : ForbidInv { s with unguardable := ∅ } [] := by
    constructor
    · intro b l
      show (∅ : TreeMap Nat Nat)[b]? = some l ↔ _
      simp
    · exact List.forall_mem_nil _
  exact (hstart.run hclean).guardsForbidden_iff hrange hstop

/-- Two ranges that overlap and a third, one of them allowed again. -/
theorem guardsForbidden_of_clean_two :
    (State.start.forbids [.forbid 0 8192, .forbid 4096 8192, .forbid 20480 4096,
        .allow 0 8192]).guardsForbidden 0 8192 = true ↔
      ∃ range ∈ standingForbids [.forbid 0 8192, .forbid 4096 8192, .forbid 20480 4096,
        .allow 0 8192], range.1 < 8192 ∧ 0 < range.1 + range.2 := by
  apply guardsForbidden_of_clean State.start [.forbid 0 8192, .forbid 4096 8192,
    .forbid 20480 4096, .allow 0 8192] _ 0 8192 (by decide) (by decide)
  refine ⟨?_, ?_, ?_, trivial, trivial⟩
  · exact List.forall_mem_nil _
  · show ∀ range ∈ [(0, 8192)], InLine range (4096, 8192)
    decide
  · show ∀ range ∈ [(4096, 8192), (0, 8192)], InLine range (20480, 4096)
    decide

/-- A range nested in another hides the part of it after its own end. -/
theorem guardsForbidden_nested :
    ¬ ∀ (s : State) (calls : List ForbidCall) (first stop : Nat), first < stop → stop < bound →
      ((s.forbids calls).guardsForbidden first stop = true ↔
        ∃ range ∈ standingForbids calls, range.1 < stop ∧ first < range.1 + range.2) := by
  intro h
  have hnested := (h State.start [.forbid 0 65536, .forbid 4096 4096] 32768 36864 (by decide)
    (by decide)).mpr ⟨(0, 65536), by decide, by decide, by decide⟩
  revert hnested
  decide +kernel

end Orbistoun.Mem.Watch
