import Orbistoun.Mem.Watch.Guards

/-! # Marks and questions

A mark leaves no written page of its range with the host, and one that puts up a guard
makes it stand over pages nothing has written. A question answers that nothing was
written only where neither the host nor the record has a page of the range.
-/

namespace Orbistoun.Mem.Watch

open Std (TreeMap TreeSet)
open Orbistoun.Lib
open Orbistoun.Lib.U64 (saturatingAdd bound)

namespace State

variable {s s' : State} {base len : Nat}

theorem Inv.nextEpoch (h : Inv s) : Inv s.nextEpoch :=
  ⟨h.aligned, h.apart, h.quiet, h.indexed, h.counted, h.bounded⟩

theorem nextEpoch_kept (s : State) : Kept s s.nextEpoch :=
  ⟨Nat.le_succ _, fun _ h => .inl h, fun _ e h => ⟨e, h, .inl rfl⟩⟩

/-! ## A mark -/

theorem putGuard_kept (s : State) (base len : Nat) : Kept s (s.putGuard base len).2 := by
  unfold putGuard
  dsimp only
  split
  · exact ⟨le_refl _, fun _ h => .inl h, fun _ e h => ⟨e, h, .inl rfl⟩⟩
  · exact Kept.refl s

theorem putGuard_record (s : State) (base len : Nat) :
    (s.putGuard base len).2.record = s.record := by
  unfold putGuard
  dsimp only
  split <;> rfl

/-- What a guard put up gives: the range is long, no other guard meets it, and its pages
are read-only. -/
structure Put (base len : Nat) (s : State) : Prop where
  long : 0 < len
  alone : ∀ g ∈ s.record.guards, g.meets (pagesOf base len).1 (pagesOf base len).2 = false
  shut : ∀ n, touches (pagesOf base len).1 (pagesOf base len).2 n = true →
    s.host.readOnly n = true

theorem putGuard_put (h : (s.putGuard base len).1 = true) : Put base len (s.putGuard base len).2 := by
  unfold putGuard at h ⊢
  dsimp only at h ⊢
  split at h
  · next hmay =>
    rw [if_pos hmay]
    simp only [mayGuard, Bool.and_eq_true, decide_eq_true_eq, Bool.not_eq_true',
      List.any_eq_false, Bool.not_eq_true] at hmay
    obtain ⟨⟨⟨⟨⟨-, hlong⟩, -⟩, halone⟩, -⟩, -⟩ := hmay
    refine ⟨lt_of_lt_of_le (by decide) hlong, halone, fun n ht => ?_⟩
    simp only [Host.guard, Host.setReadOnly, if_pos ht]
  · cases h

theorem Inv.putGuard (h : Inv s) (base len : Nat) : Inv (s.putGuard base len).2 := by
  unfold State.putGuard
  dsimp only
  split
  · refine ⟨h.aligned, h.apart, fun g hg n hn => ?_, h.indexed, h.counted, h.bounded⟩
    obtain ⟨hread, hclean⟩ := h.quiet g hg n hn
    refine ⟨?_, hclean⟩
    simp only [Host.guard, Host.setReadOnly, hread, ite_self]
  · exact h

/-- A guard whose harvest failed is taken down again. -/
theorem Inv.takeDown (h : Inv s) (hput : Put base len s) : Inv { s with
    host := s.host.unguard (pagesOf base len).1 (pagesOf base len).2 } := by
  refine ⟨h.aligned, h.apart, fun g hg n hn => ?_, h.indexed, h.counted, h.bounded⟩
  obtain ⟨hread, hclean⟩ := h.quiet g hg n hn
  have hother : ¬ touches (pagesOf base len).1 (pagesOf base len).2 n = true := by
    intro ht
    have hmeet := hn.meets ((pagesOf_aligned base len).has_iff.mp ht)
    rw [hput.alone g hg] at hmeet
    exact Bool.false_ne_true hmeet
  refine ⟨?_, hclean⟩
  simp only [Host.unguard, Host.setReadOnly, if_neg hother]
  exact hread

/-- A guard whose pages are read-only and harvested may stand. -/
theorem Inv.recordGuard (h : Inv s) (hput : Put base len s)
    (hclear : ∀ n, touches base (saturatingAdd base len) n = true → n ∉ s.host.dirty) :
    Inv (s.recordGuard base len) where
  aligned := by
    intro g hg
    rcases List.mem_append.mp hg with hg | hg
    · exact h.aligned g hg
    · rw [List.mem_singleton.mp hg]
      exact pagesOf_aligned base len
  apart := by
    refine List.pairwise_append.mpr ⟨h.apart, List.pairwise_singleton _ _, fun g hg g' hg' => ?_⟩
    rw [List.mem_singleton.mp hg']
    exact hput.alone g hg
  quiet := by
    intro g hg n hn
    rcases List.mem_append.mp hg with hg | hg
    · exact h.quiet g hg n hn
    · rw [List.mem_singleton.mp hg] at hn
      exact ⟨hput.shut n ((pagesOf_aligned base len).has_iff.mpr hn),
        hclear n (touches_of_mem_pagesOf hput.long hn.1 hn.2)⟩
  indexed := h.indexed
  counted := by
    show s.guardCount + 1 = (s.record.guards ++ [_]).length
    rw [List.length_append, h.counted]
    rfl
  bounded := h.bounded

theorem Put.harvest (hput : Put base len s) : Put base len (s.harvest base len).2 where
  long := hput.long
  alone := by simpa [State.harvest] using hput.alone
  shut := by
    intro n ht
    have hframe := (s.harvest_walk base len).frame
    show (harvestByReservation s.registry s.host base len).host.readOnly n = true
    rw [hframe]
    exact hput.shut n ht

/-- What a mark does: it keeps the invariant and every page seen written, hands out a
stamp below every later epoch, and leaves no written page of its range with the host. -/
theorem mark_spec (h : Inv s) (base len : Nat) :
    Inv (s.mark base len).2 ∧ Kept s (s.mark base len).2 ∧
      ∀ m, (s.mark base len).1 = some m → m < (s.mark base len).2.record.epoch ∧
        ∀ n, touches base (saturatingAdd base len) n = true →
          n ∉ (s.mark base len).2.host.dirty := by
  have hinv := (h.putGuard base len).harvest base len
  have hkept := (s.putGuard_kept base len).trans (harvest_kept _ base len)
  have hepoch : s.record.epoch = ((s.putGuard base len).2.harvest base len).2.record.epoch := by
    rw [State.harvest, take_epoch, putGuard_record]
  unfold mark
  dsimp only
  cases hanswer : ((s.putGuard base len).2.harvest base len).1 with
  | none =>
      refine ⟨?_, ?_, fun m hm => by cases hm⟩
      · dsimp only
        split
        · next hput => exact hinv.takeDown (putGuard_put hput).harvest
        · exact hinv
      · dsimp only
        split
        · exact hkept.trans ⟨le_refl _, fun _ h => .inl h, fun _ e h => ⟨e, h, .inl rfl⟩⟩
        · exact hkept
  | some b =>
      have hclear : ∀ n, touches base (saturatingAdd base len) n = true →
          n ∉ ((s.putGuard base len).2.harvest base len).2.host.dirty :=
        fun n => harvest_clear hanswer
      refine ⟨?_, ?_, fun m hm => ⟨?_, fun n ht => ?_⟩⟩
      · dsimp only
        split
        · next hput => exact (hinv.recordGuard (putGuard_put hput).harvest hclear).nextEpoch
        · exact hinv.nextEpoch
      · refine hkept.trans (.trans ?_ (nextEpoch_kept _))
        split
        · exact ⟨le_refl _, fun _ h => .inl h, fun _ e h => ⟨e, h, .inl rfl⟩⟩
        · exact Kept.refl _
      · cases hm
        dsimp only
        split <;> exact hepoch ▸ Nat.lt_succ_self _
      · dsimp only
        split <;> exact hclear n ht

/-! ## Many ranges -/

theorem inside_spec (held heldEnd stop : Nat) (l : List (Nat × Nat)) :
    ∃ taken, l = taken ++ (inside held heldEnd stop l).2 ∧
      stop ≤ (inside held heldEnd stop l).1 ∧
      (∀ r ∈ taken, (pagesOf r.1 r.2).2 ≤ (inside held heldEnd stop l).1) ∧
      (taken = [] → (inside held heldEnd stop l).1 = stop) := by
  induction l generalizing stop with
  | nil => exact ⟨[], rfl, le_refl _, by simp, fun _ => rfl⟩
  | cons r rest ih =>
      obtain ⟨base, len⟩ := r
      unfold inside
      dsimp only
      split
      · exact ⟨[], rfl, le_refl _, by simp, fun _ => rfl⟩
      · obtain ⟨taken, hl, hstop, hall, -⟩ := ih (max stop (pagesOf base len).2)
        refine ⟨(base, len) :: taken, by rw [List.cons_append, ← hl],
          le_trans (le_max_left _ _) hstop, fun r hr => ?_, fun hnil => by cases hnil⟩
        rcases List.mem_cons.mp hr with rfl | hr
        · exact le_trans (le_max_right _ _) hstop
        · exact hall r hr

def Clear (s : State) (x : Nat) : Prop := x / pageBytes ∉ s.host.dirty

/-- Pages are only handed over. -/
def Fewer (s s' : State) : Prop := ∀ n, n ∈ s'.host.dirty → n ∈ s.host.dirty

theorem take_fewer {w : Walk} {first stop : Nat} (hw : w.Harvests s.host first stop) :
    Fewer s (s.take w) :=
  fun n hn => ((hw.dirty n).mp hn).1

theorem harvestSorted_spec (turns : Nat) (h : Inv s) (l : List (Nat × Nat)) :
    Inv (harvestSorted turns s l).2 ∧ Kept s (harvestSorted turns s l).2 ∧
      Fewer s (harvestSorted turns s l).2 := by
  induction turns generalizing s l with
  | zero => exact ⟨h, Kept.refl s, fun _ hn => hn⟩
  | succ turns ih =>
      cases l with
      | nil => exact ⟨h, Kept.refl s, fun _ hn => hn⟩
      | cons r rest =>
          obtain ⟨base, len⟩ := r
          have hgo : ∀ {s' : State} (l' : List (Nat × Nat)), Inv s' → Kept s s' → Fewer s s' →
              Inv (harvestSorted turns s' l').2 ∧ Kept s (harvestSorted turns s' l').2 ∧
                Fewer s (harvestSorted turns s' l').2 := by
            intro s' l' hinv hkept hfewer
            obtain ⟨hinv', hkept', hfewer'⟩ := ih hinv l'
            exact ⟨hinv', hkept.trans hkept', fun n hn => hfewer n (hfewer' n hn)⟩
          have hone := s.harvest_walk base len
          unfold harvestSorted
          dsimp only
          split
          · exact hgo _ (h.harvest base len) (harvest_kept s base len) (take_fewer hone)
          · split
            · exact hgo _ (h.harvest base len) (harvest_kept s base len) (take_fewer hone)
            · have hspan := s.host.harvestSpan_harvests (pagesOf base len).1
              exact hgo _ (h.take (hspan _)) (take_kept (hspan _)) (take_fewer (hspan _))

/-- Ranges all watched leave no written page of theirs with the host. -/
theorem harvestSorted_clear {turns : Nat} (h : Inv s) {l : List (Nat × Nat)}
    (hturns : l.length ≤ turns) (hsorted : l.Pairwise rangeLe) (hlong : ∀ r ∈ l, 0 < r.2)
    (hwatched : (harvestSorted turns s l).1 = true) {r : Nat × Nat} (hr : r ∈ l) {x : Nat}
    (hbase : r.1 ≤ x) (hlen : x < r.1 + r.2) (hx : x < userEnd) :
    (harvestSorted turns s l).2.Clear x := by
  induction turns generalizing s l with
  | zero =>
      rw [List.length_eq_zero_iff.mp (Nat.le_zero.mp hturns)] at hr
      cases hr
  | succ turns ih =>
      cases l with
      | nil => cases hr
      | cons first rest =>
          obtain ⟨base, len⟩ := first
          rw [List.length_cons] at hturns
          have hrest : rest.Pairwise rangeLe := (List.pairwise_cons.mp hsorted).2
          have hlongrest : ∀ r ∈ rest, 0 < r.2 := fun r hr => hlong r (List.mem_cons_of_mem _ hr)
          have hle : base ≤ r.1 := by
            rcases List.mem_cons.mp hr with rfl | hr
            · exact le_refl _
            · rcases (List.pairwise_cons.mp hsorted).1 r hr with hlt | ⟨heq, -⟩
              · exact Nat.le_of_lt hlt
              · exact Nat.le_of_eq heq
          -- asked alone, a range is clear, and the others are left to the rest
          have halone : ∀ s', Inv s' →
              ((s.harvest base len).1.isSome && (harvestSorted turns s' rest).1) = true →
              s' = (s.harvest base len).2 → (harvestSorted turns s' rest).2.Clear x := by
            intro s' hinv hboth hs'
            obtain ⟨hsome, hafter⟩ := Bool.and_eq_true_iff.mp hboth
            rcases List.mem_cons.mp hr with rfl | hr
            · obtain ⟨b, hb⟩ := Option.isSome_iff_exists.mp hsome
              intro hmem
              have hfewer := (harvestSorted_spec turns hinv rest).2.2 _ hmem
              rw [hs'] at hfewer
              exact harvest_clear hb (touches_of_mem hbase hlen hx) hfewer
            · exact ih hinv (by omega) hrest hlongrest hafter hr
          unfold harvestSorted at hwatched ⊢
          dsimp only at hwatched ⊢
          cases hof : reservationOf s.registry (pagesOf base len).1 with
          | none =>
              simp only [hof] at hwatched ⊢
              exact halone _ (h.harvest base len) hwatched rfl
          | some p =>
              obtain ⟨held, heldLen⟩ := p
              simp only [hof] at hwatched ⊢
              obtain ⟨taken, hl, hstop, hall, hnone⟩ := inside_spec held
                (saturatingAdd held heldLen) (pagesOf base len).1 ((base, len) :: rest)
              generalize inside held (saturatingAdd held heldLen) (pagesOf base len).1
                ((base, len) :: rest) = ends at *
              obtain ⟨stop, left⟩ := ends
              dsimp only at hl hstop hall hnone hwatched ⊢
              by_cases hsame : stop = (pagesOf base len).1
              · rw [if_pos hsame] at hwatched ⊢
                cases taken with
                | nil =>
                    rw [List.nil_append] at hl
                    subst hl
                    exact halone _ (h.harvest base len) hwatched rfl
                | cons first' taken =>
                    -- only a range in the last page of all ends where it starts
                    rw [List.cons_append, List.cons.injEq] at hl
                    obtain ⟨rfl, -⟩ := hl
                    have hend := hall _ List.mem_cons_self
                    have hlong' := hlong (base, len) List.mem_cons_self
                    have hpages : (pagesOf base len).1 ≤ base / pageBytes * pageBytes ∧
                        base / pageBytes * pageBytes < (pagesOf base len).2 :=
                      page_mem_pagesOf (le_refl _) (by simpa using hlong') (by omega)
                    dsimp only at hend
                    omega
              · rw [if_neg hsame] at hwatched ⊢
                obtain ⟨hwalked, hafter⟩ := Bool.and_eq_true_iff.mp hwatched
                have hspan := s.host.harvestSpan_harvests (pagesOf base len).1 stop
                have hinv : Inv (s.harvestSpan (pagesOf base len).1 stop).2 := h.take hspan
                rw [hl] at hr
                rcases List.mem_append.mp hr with htaken | hleft
                · intro hmem
                  have hfewer := (harvestSorted_spec turns hinv left).2.2 _ hmem
                  have hpages := page_mem_pagesOf hbase hlen hx
                  have hend := hall r htaken
                  have hfloor : (pagesOf base len).1 ≤ (pagesOf r.1 r.2).1 :=
                    Nat.mul_le_mul_right _ (Nat.div_le_div_right hle)
                  have hpos := pageBytes_pos
                  refine hspan.clear hwalked _ (touches_iff.mpr ?_) hfewer
                  omega
                · cases taken with
                  | nil => exact absurd (hnone rfl) hsame
                  | cons first' taken =>
                      rw [List.cons_append, List.cons.injEq] at hl
                      obtain ⟨-, rfl⟩ := hl
                      rw [List.length_append] at hturns
                      exact ih hinv (by omega) (List.pairwise_append.mp hrest).2.1
                        (fun r hr => hlongrest r (List.mem_append_right _ hr)) hafter hleft

instance : Std.Total rangeLe where
  total x y := by
    unfold rangeLe
    omega

instance : IsTrans (Nat × Nat) rangeLe where
  trans x y z := by
    unfold rangeLe
    omega

theorem harvestAll_spec (h : Inv s) (ranges : List (Nat × Nat)) :
    Inv (s.harvestAll ranges).2 ∧ Kept s (s.harvestAll ranges).2 :=
  ⟨(harvestSorted_spec _ h _).1, (harvestSorted_spec _ h _).2.1⟩

theorem harvestAll_clear (h : Inv s) {ranges : List (Nat × Nat)}
    (hwatched : (s.harvestAll ranges).1 = true) {r : Nat × Nat} (hr : r ∈ ranges) {x : Nat}
    (hbase : r.1 ≤ x) (hlen : x < r.1 + r.2) (hx : x < userEnd) :
    (s.harvestAll ranges).2.Clear x := by
  have hmem : ∀ q, q ∈ (ranges.filter (fun r => 0 < r.2)).insertionSort rangeLe ↔
      q ∈ ranges ∧ 0 < q.2 := by
    intro q
    rw [(List.perm_insertionSort rangeLe _).mem_iff, List.mem_filter, decide_eq_true_eq]
  refine harvestSorted_clear h (le_refl _) (List.pairwise_insertionSort rangeLe _)
    (fun q hq => ((hmem q).mp hq).2) hwatched ((hmem r).mpr ⟨hr, by omega⟩) hbase hlen hx

theorem markAll_spec (h : Inv s) (ranges : List (Nat × Nat)) :
    Inv (s.markAll ranges).2 ∧ Kept s (s.markAll ranges).2 :=
  ⟨(harvestAll_spec h ranges).1.nextEpoch,
    (harvestAll_spec h ranges).2.trans (nextEpoch_kept _)⟩

theorem markAll_stamp (h : Inv s) {ranges : List (Nat × Nat)} {m : Nat}
    (hm : (s.markAll ranges).1 = some m) :
    (s.harvestAll ranges).1 = true ∧ m < (s.markAll ranges).2.record.epoch := by
  unfold markAll at hm ⊢
  dsimp only at hm ⊢
  split at hm
  · next hwatched =>
    cases hm
    exact ⟨hwatched, Nat.lt_succ_of_le (harvestAll_spec h ranges).2.epoch⟩
  · cases hm

/-! ## Questions -/

theorem writtenAfter_of_recorded (h : Inv s) {x m : Nat} (hr : s.Recorded (x / pageBytes) m)
    (hbase : base ≤ x) (hlen : x < base + len) (hx : x < userEnd) :
    s.record.writtenAfter (pageFloor base) (saturatingAdd base len) m = true := by
  obtain ⟨e, he, hlt⟩ := hr
  have htouch := touches_of_mem hbase hlen hx
  rw [touches_iff] at htouch
  refine Record.writtenAfter_of_written h.indexed he hlt (page_mem_pagesOf hbase hlen hx).1
    htouch.2.1 ?_
  have hle := Nat.div_mul_le_self x pageBytes
  unfold userEnd at hx
  unfold bound
  omega

theorem recordedSince_of_recorded (h : Inv s) {x m : Nat} (hr : s.Recorded (x / pageBytes) m)
    (hbase : base ≤ x) (hlen : x < base + len) (hx : x < userEnd) :
    s.recordedSince base len m = true := by
  rw [recordedSince, writtenAfter_of_recorded h hr hbase hlen hx, Bool.or_true]

theorem clear_of_guardOver (h : Inv s) {x : Nat}
    (hguard : (s.record.guardOver (pagesOf base len).1 (pagesOf base len).2).isSome = true)
    (hbase : base ≤ x) (hlen : x < base + len) (hx : x < userEnd) : s.Clear x := by
  obtain ⟨g, hg⟩ := Option.isSome_iff_exists.mp hguard
  have hover := List.find?_some hg
  simp only [Bool.and_eq_true, decide_eq_true_eq] at hover
  obtain ⟨hfirst, hstop⟩ := page_mem_pagesOf hbase hlen hx
  exact (h.quiet g (List.mem_of_find?_eq_some hg) _ ⟨by omega, by omega⟩).2

theorem writtenSince_spec (h : Inv s) (base len since : Nat) :
    Inv (s.writtenSince base len since).2 ∧ Kept s (s.writtenSince base len since).2 := by
  unfold writtenSince
  split
  · exact ⟨h, Kept.refl s⟩
  · split
    · exact ⟨h, Kept.refl s⟩
    · exact ⟨h.harvest base len, harvest_kept s base len⟩

/-- A question not answered by what a device owes leaves no written page of its range
with the host when it answers. -/
theorem writtenSince_clear (h : Inv s) {since x : Nat} (howed : s.owedOver base len = false)
    (hsome : (s.writtenSince base len since).1.isSome = true) (hbase : base ≤ x)
    (hlen : x < base + len) (hx : x < userEnd) : (s.writtenSince base len since).2.Clear x := by
  unfold writtenSince at hsome ⊢
  rw [if_neg (by rw [howed]; exact Bool.false_ne_true)] at hsome ⊢
  split
  · next hguard => exact clear_of_guardOver h hguard hbase hlen hx
  · next hguard =>
    rw [if_neg hguard] at hsome
    dsimp only at hsome ⊢
    cases hanswer : (s.harvest base len).1 with
    | none =>
        rw [hanswer] at hsome
        cases hsome
    | some b => exact harvest_clear hanswer (touches_of_mem hbase hlen hx)

theorem writtenSince_of_seen (h : Inv s) {x m : Nat} (hm : m < s.record.epoch)
    (hseen : s.Seen (x / pageBytes) m) (hbase : base ≤ x) (hlen : x < base + len)
    (hx : x < userEnd) : (s.writtenSince base len m).1 ≠ some false := by
  unfold writtenSince
  split
  · exact fun hfalse => by cases hfalse
  · split
    · next hguard =>
      have hrecorded := hseen.recorded (clear_of_guardOver h hguard hbase hlen hx)
      have htrue := writtenAfter_of_recorded h hrecorded hbase hlen hx
      intro hfalse
      rw [show (pagesOf base len).1 = pageFloor base from rfl, htrue] at hfalse
      cases hfalse
    · dsimp only
      cases hanswer : (s.harvest base len).1 with
      | none => exact fun hfalse => by cases hfalse
      | some found =>
          cases found with
          | true => exact fun hfalse => by cases hfalse
          | false =>
              have hclean := harvest_unfound hanswer (touches_of_mem hbase hlen hx)
              have hrecorded := (harvest_kept s base len).recorded hm (hseen.recorded hclean)
              have htrue := writtenAfter_of_recorded (h.harvest base len) hrecorded hbase hlen hx
              intro hfalse
              dsimp only at hfalse
              rw [htrue] at hfalse
              cases hfalse

end State

end Orbistoun.Mem.Watch
