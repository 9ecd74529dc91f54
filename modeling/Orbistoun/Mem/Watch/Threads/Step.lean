import Orbistoun.Lib.Nearest
import Orbistoun.Mem.Watch.Asks
import Orbistoun.Mem.Watch.Threads.Basic

/-! # One step of the thread with the record

Only one thread has the record at a time, and each of its steps keeps what the guards, their
count and the read-only pages say of each other. A page whose fault is on its way stays some
guard's, and a page of a forbidden range that no guard has is not taken up by one.
-/

namespace Orbistoun.Mem.Watch.Threads

open Std (TreeMap TreeSet)
open Orbistoun.Lib
open Orbistoun.Lib.U64 (saturatingAdd bound)

/-- The pages a mark has made read-only that no guard of the record has yet. -/
def Inside.up : Inside → Option Guard
  | .mark base len (.harvest true) | .mark base len .push => some (rangeGuard base len)
  | _ => none

def Inside.raised (p : Inside) : Option Guard := p.up.or p.down

/-- How many guards of the record `GUARDS` does not count yet. -/
def Inside.uncounted : Inside → Nat
  | .mark _ _ .count => 1
  | _ => 0

/-- How many guards `GUARDS` counts that the record has no more. -/
def Inside.overcounted : Inside → Nat
  | .count _ _ => 1
  | _ => 0

/-- What the thread with the record knows where it stands. -/
def Inside.Fits (s : State) : Inside → Prop
  | .mark base len .count => ∃ l, s.record.guards = l ++ [rangeGuard base len]
  | .find (.fault address true) => ∃ x ∈ s.record.guards, x.Has (address / pageBytes)
  | .count asker x | .unguard asker x => x.Aligned ∧ asker.seeks x = true
  | .note asker x =>
      x.Aligned ∧ asker.seeks x = true ∧ ∀ n, x.Has n → s.host.readOnly n = false
  | _ => True

structure Sound (s : State) (p : Option Inside) : Prop where
  aligned : ∀ x ∈ s.record.guards, x.Aligned
  counted : s.guardCount + p.elim 0 Inside.uncounted =
    s.record.guards.length + p.elim 0 Inside.overcounted
  covered : ∀ n, s.host.readOnly n = true →
    (∃ x ∈ s.record.guards, x.Has n) ∨ ∃ x, p.bind Inside.raised = some x ∧ x.Has n
  fits : ∀ q, p = some q → q.Fits s

structure Same (s s' : State) : Prop where
  guards : s'.record.guards = s.record.guards
  count : s'.guardCount = s.guardCount
  readOnly : s'.host.readOnly = s.host.readOnly

def Next.place : Next → Option Inside
  | .at_ p => some p
  | .done _ => none

def Next.events : Next → List Event
  | .at_ _ => []
  | .done w => w

section Next

variable {s : State} {x : Guard} {n : Nat} {r : Nat × Nat}

theorem rangeGuard_aligned (base len : Nat) : (rangeGuard base len).Aligned :=
  pagesOf_aligned base len

theorem seeks_fault {address : Nat} {guarded : Bool} (hx : x.Aligned) :
    (Asker.fault address guarded).seeks x = true ↔ x.Has (address / pageBytes) := by
  obtain ⟨⟨i, hi⟩, ⟨j, hj⟩, -⟩ := hx
  simp only [Asker.seeks, Bool.and_eq_true, decide_eq_true_eq, Guard.Has, hi, hj, pageBytes]
  omega

/-- A look at the forbidden ranges finds every one that has a page of the guard. -/
theorem guardsForbidden_of_apart
    (hapart : ∀ b l, s.unguardable[b]? = some l → System.Apart r (b, l))
    (hr : s.unguardable[r.1]? = some r.2) (hx : x.Aligned) (hn : x.Has n)
    (ht : touches r.1 (r.1 + r.2) n = true) : s.guardsForbidden x.first x.stop = true := by
  obtain ⟨-, ⟨j, hj⟩, hbound⟩ := hx
  obtain ⟨hfirst, hstop⟩ := hn
  obtain ⟨hlen, hbelow, habove⟩ := touches_iff.mp ht
  have hlt : r.1 < x.stop := by
    simp only [hj, pageBytes] at *
    omega
  unfold State.guardsForbidden
  rw [Nearest.getEntryLT?_eq_lastLT]
  cases hlast : Nearest.lastLT s.unguardable x.stop with
  | none =>
      have hnot := Nearest.not_of_last_none hlast hr
      exact absurd hlt (by simpa using hnot)
  | some e =>
      obtain ⟨b, l⟩ := e
      obtain ⟨hb, hbstop⟩ := Nearest.last_mem hlast
      have hle : r.1 ≤ b := Nearest.le_last hlast hr (by simpa using hlt)
      have hbstop : b < x.stop := by simpa using hbstop
      have hends : r.1 + r.2 ≤ b + l ∨ r.1 + r.2 ≤ b := by
        rcases hapart b l hb with heq | ⟨-, hend⟩ | ⟨hless, -⟩
        · rw [heq]
          exact .inl (le_refl _)
        · exact .inr hend
        · exact absurd hle (Nat.not_le.mpr hless)
      apply decide_eq_true
      simp only [saturatingAdd, bound, hj, pageBytes] at *
      omega

theorem Same.refl (s : State) : Same s s := ⟨rfl, rfl, rfl⟩

theorem harvest_same (s : State) (base len : Nat) : Same s (s.harvest base len).2 where
  guards := State.take_guards s _
  count := rfl
  readOnly := by
    show (harvestByReservation s.registry s.host base len).host.readOnly = _
    rw [(s.harvest_walk base len).frame]

variable {p p' : Option Inside} {s' : State}

/-- A step that changes nothing the invariants read. -/
theorem Sound.move (h : Sound s p) (hsame : Same s s')
    (hun : p'.elim 0 Inside.uncounted = p.elim 0 Inside.uncounted)
    (hover : p'.elim 0 Inside.overcounted = p.elim 0 Inside.overcounted)
    (hraised : ∀ x, p.bind Inside.raised = some x → p'.bind Inside.raised = some x)
    (hfits : ∀ q, p' = some q → q.Fits s') : Sound s' p' where
  aligned := by
    rw [hsame.guards]
    exact h.aligned
  counted := by
    rw [hsame.count, hsame.guards, hun, hover]
    exact h.counted
  covered := by
    intro n hn
    rw [hsame.readOnly] at hn
    rw [hsame.guards]
    rcases h.covered n hn with hguard | ⟨x, hx, hxn⟩
    · exact .inl hguard
    · exact .inr ⟨x, hraised x hx, hxn⟩
  fits := hfits

theorem fits_some {q : Inside} (h : q.Fits s) : ∀ q', some q = some q' → q'.Fits s := by
  intro q' hq'
  cases hq'
  exact h

theorem fits_none : ∀ q', (none : Option Inside) = some q' → q'.Fits s := by
  intro q' hq'
  cases hq'

theorem mem_swapRemove {i : Nat} (hi : s.record.guards[i]? = some x) (y : Guard) :
    y ∈ s.record.guards ↔ y = x ∨ y ∈ swapRemove s.record.guards i := by
  rw [← (swapRemove_perm hi).mem_iff, List.mem_cons]

theorem not_has_of_unguarded (hx : x.Aligned)
    (hro : (s.host.unguard x.first x.stop).readOnly n = true) :
    ¬ x.Has n ∧ s.host.readOnly n = true := by
  have hro : (if touches x.first x.stop n then false else s.host.readOnly n) = true := hro
  by_cases ht : touches x.first x.stop n = true
  · rw [if_pos ht] at hro
    cases hro
  · rw [if_neg ht] at hro
    exact ⟨fun hn => ht (hx.has_iff.mpr hn), hro⟩

theorem harvest_cases (s : State) (base len : Nat) (guarded : Bool) :
    (markNext s base len (.harvest guarded)).1 = (s.harvest base len).2 ∧
      (((s.harvest base len).1 = none ∧ (markNext s base len (.harvest guarded)).2 =
          if guarded then .at_ (.mark base len .unguard) else .done [.marked base len none]) ∨
        (markNext s base len (.harvest guarded)).2 =
          .at_ (.mark base len (if guarded then .push else .finish))) := by
  dsimp only [markNext]
  cases (s.harvest base len).1 with
  | none => exact ⟨rfl, .inl ⟨rfl, rfl⟩⟩
  | some b => exact ⟨rfl, .inr rfl⟩

theorem markNext_sound {base len : Nat} {at_ : MarkAt} (h : Sound s (some (.mark base len at_))) :
    Sound (markNext s base len at_).1 (markNext s base len at_).2.place := by
  cases at_ with
  | guarding =>
      dsimp only [markNext, Next.place]
      split
      · exact h.move (.refl s) rfl rfl (fun x hx => by cases hx) (fits_some trivial)
      · exact h.move (.refl s) rfl rfl (fun x hx => by cases hx) (fits_some trivial)
  | forbidden =>
      dsimp only [markNext, Next.place]
      split
      · exact h.move (.refl s) rfl rfl (fun x hx => by cases hx) (fits_some trivial)
      · exact h.move (.refl s) rfl rfl (fun x hx => by cases hx) (fits_some trivial)
  | guard =>
      dsimp only [markNext]
      split
      · refine ⟨h.aligned, h.counted, fun n hn => ?_, fits_some trivial⟩
        by_cases ht : touches (pagesOf base len).1 (pagesOf base len).2 n = true
        · exact .inr ⟨rangeGuard base len, rfl, (rangeGuard_aligned base len).has_iff.mp ht⟩
        · have hn : (if touches (pagesOf base len).1 (pagesOf base len).2 n then true
              else s.host.readOnly n) = true := hn
          rw [if_neg ht] at hn
          rcases h.covered n hn with hguard | ⟨x, hx, -⟩
          · exact .inl hguard
          · cases hx
      · exact h.move (.refl s) rfl rfl (fun x hx => by cases hx) (fits_some trivial)
  | harvest guarded =>
      obtain ⟨hstate, ⟨-, hnext⟩ | hnext⟩ := harvest_cases s base len guarded
      · rw [hstate, hnext]
        cases guarded
        · exact h.move (harvest_same s base len) rfl rfl (fun x hx => by cases hx) fits_none
        · exact h.move (harvest_same s base len) rfl rfl (fun x hx => hx) (fits_some trivial)
      · rw [hstate, hnext]
        cases guarded
        · exact h.move (harvest_same s base len) rfl rfl (fun x hx => by cases hx)
            (fits_some trivial)
        · exact h.move (harvest_same s base len) rfl rfl (fun x hx => hx) (fits_some trivial)
  | unguard =>
      refine ⟨h.aligned, h.counted, fun n hn => ?_, fits_none⟩
      obtain ⟨hnot, hro⟩ := not_has_of_unguarded (rangeGuard_aligned base len) hn
      rcases h.covered n hro with hguard | ⟨x, hx, hxn⟩
      · exact .inl hguard
      · cases hx
        exact absurd hxn hnot
  | push =>
      refine ⟨fun x hx => ?_, ?_, fun n hn => ?_, fits_some ⟨_, rfl⟩⟩
      · rcases List.mem_append.mp hx with hx | hx
        · exact h.aligned x hx
        · rw [List.mem_singleton.mp hx]
          exact rangeGuard_aligned base len
      · have hcounted : s.guardCount + 0 = s.record.guards.length + 0 := h.counted
        show s.guardCount + 1 = (s.record.guards ++ [rangeGuard base len]).length + 0
        rw [List.length_append, List.length_singleton]
        omega
      · rcases h.covered n hn with ⟨x, hx, hxn⟩ | ⟨x, hx, hxn⟩
        · exact .inl ⟨x, List.mem_append_left _ hx, hxn⟩
        · cases hx
          exact .inl ⟨_, List.mem_append_right _ (List.mem_singleton_self _), hxn⟩
  | count =>
      refine ⟨h.aligned, ?_, fun n hn => ?_, fits_some trivial⟩
      · exact h.counted
      · rcases h.covered n hn with hguard | ⟨x, hx, -⟩
        · exact .inl hguard
        · cases hx
  | finish => exact h.move ⟨rfl, rfl, rfl⟩ rfl rfl (fun x hx => by cases hx) fits_none

theorem next_find (asker : Asker) {i : Nat}
    (hfind : s.record.guards.findIdx? (fun x => asker.seeks x) = some i) :
    ∃ x, s.record.guards[i]? = some x ∧ asker.seeks x = true ∧ next s (.find asker) =
      ({ s with record := { s.record with guards := swapRemove s.record.guards i } },
        .at_ (.count asker x)) := by
  obtain ⟨hi, hseeks, -⟩ := List.findIdx?_eq_some_iff_getElem.mp hfind
  have hx : s.record.guards[i]? = some s.record.guards[i] := List.getElem?_eq_getElem hi
  refine ⟨s.record.guards[i], hx, hseeks, ?_⟩
  dsimp only [next]
  rw [hfind]
  dsimp only
  rw [hx]

theorem find_cases (s : State) (asker : Asker) :
    (next s (.find asker) = (s, .done (asker.answer false)) ∧
        ∀ x ∈ s.record.guards, asker.seeks x = false) ∨
      ∃ i x, s.record.guards[i]? = some x ∧ asker.seeks x = true ∧
        s.record.guards.find? (fun x => asker.seeks x) = some x ∧
        next s (.find asker) = ({ s with record := { s.record with
          guards := swapRemove s.record.guards i } }, .at_ (.count asker x)) := by
  cases hfind : s.record.guards.findIdx? (fun x => asker.seeks x) with
  | none =>
      left
      refine ⟨?_, List.findIdx?_eq_none_iff.mp hfind⟩
      dsimp only [next]
      rw [hfind]
  | some i =>
      right
      obtain ⟨x, hx, hseeks, hnext⟩ := next_find asker hfind
      refine ⟨i, x, hx, hseeks, ?_, hnext⟩
      obtain ⟨hi, -, hfirst⟩ := List.findIdx?_eq_some_iff_getElem.mp hfind
      rw [List.find?_eq_some_iff_getElem]
      exact ⟨hseeks, i, hi, (List.getElem?_eq_some_iff.mp hx).2,
        fun j hj => by simpa using hfirst j hj⟩

theorem next_sound {q : Inside} (h : Sound s (some q)) :
    Sound (next s q).1 (next s q).2.place := by
  cases q with
  | mark base len at_ => exact markNext_sound h
  | find asker =>
      rcases find_cases s asker with ⟨hnext, -⟩ | ⟨i, x, hi, hseeks, -, hnext⟩
      · rw [hnext]
        exact h.move (.refl s) rfl rfl (fun x hx => by cases hx) fits_none
      · rw [hnext]
        have hmem := mem_swapRemove hi
        refine ⟨fun y hy => h.aligned y ((hmem y).mpr (.inr hy)), ?_, fun n hn => ?_, fits_some ?_⟩
        · have hcounted : s.guardCount + 0 = s.record.guards.length + 0 := h.counted
          have hlen := (swapRemove_perm hi).length_eq
          rw [List.length_cons] at hlen
          show s.guardCount + 0 = (swapRemove s.record.guards i).length + 1
          omega
        · rcases h.covered n hn with ⟨y, hy, hyn⟩ | ⟨y, hy, -⟩
          · rcases (hmem y).mp hy with rfl | hy
            · exact .inr ⟨y, rfl, hyn⟩
            · exact .inl ⟨y, hy, hyn⟩
          · cases hy
        · exact ⟨h.aligned x ((hmem x).mpr (.inl rfl)), hseeks⟩
  | count asker x =>
      refine ⟨h.aligned, ?_, h.covered, fits_some (h.fits _ rfl)⟩
      have hcounted : s.guardCount + 0 = s.record.guards.length + 1 := h.counted
      show s.guardCount - 1 + 0 = s.record.guards.length + 0
      omega
  | unguard asker x =>
      obtain ⟨hx, hseeks⟩ := h.fits _ rfl
      refine ⟨h.aligned, h.counted, fun n hn => ?_, fits_some ⟨hx, hseeks, fun n hn => ?_⟩⟩
      · obtain ⟨hnot, hro⟩ := not_has_of_unguarded hx hn
        rcases h.covered n hro with hguard | ⟨y, hy, hyn⟩
        · exact .inl hguard
        · cases hy
          exact absurd hyn hnot
      · show (if touches x.first x.stop n then false else s.host.readOnly n) = false
        rw [if_pos (hx.has_iff.mpr hn)]
  | note asker x =>
      have hsame : Same s { s with
          record := s.record.noteAll (Record.steps x.first x.stop) } :=
        ⟨Record.noteAll_guards _ _, rfl, rfl⟩
      cases asker with
      | fault address guarded => exact h.move hsame rfl rfl (fun x hx => by cases hx) fits_none
      | range base len forbids =>
          exact h.move hsame rfl rfl (fun x hx => by cases hx) (fits_some trivial)

theorem next_unguardable (s : State) (q : Inside) :
    (next s q).1.unguardable = s.unguardable := by
  cases q with
  | mark base len at_ =>
      show (markNext s base len at_).1.unguardable = _
      cases at_ with
      | harvest guarded => rw [(harvest_cases s base len guarded).1]; rfl
      | guard =>
          dsimp only [markNext]
          split <;> rfl
      | _ => rfl
  | find asker =>
      rcases find_cases s asker with ⟨hnext, -⟩ | ⟨i, x, -, -, -, hnext⟩
      · rw [hnext]
      · rw [hnext]
  | _ => rfl

/-! ### Faults on their way -/

/-- A guard of the record has page `n`, or a mark that will record one. -/
def Covered (s : State) (p : Option Inside) (n : Nat) : Prop :=
  (∃ x ∈ s.record.guards, x.Has n) ∨ ∃ x, p.bind Inside.up = some x ∧ x.Has n

theorem Covered.move (h : Covered s p n) (hguards : s'.record.guards = s.record.guards)
    (hup : ∀ x, p.bind Inside.up = some x → p'.bind Inside.up = some x) : Covered s' p' n := by
  unfold Covered
  rw [hguards]
  rcases h with hguard | ⟨x, hx, hn⟩
  · exact .inl hguard
  · exact .inr ⟨x, hup x hx, hn⟩

/-- A page covered stays so, but where its own guard goes down. -/
theorem next_covered {g : System} {q : Inside} (h : Covered g.state (some q) n)
    (hclean : g.CleanInside q) (hquiet : ∀ x, g.Quiet x → ¬ x.Has n) :
    Covered (next g.state q).1 (next g.state q).2.place n := by
  cases q with
  | mark base len at_ =>
      show Covered (markNext g.state base len at_).1 (markNext g.state base len at_).2.place n
      cases at_ with
      | guarding => exact h.move rfl (fun x hx => by cases hx)
      | forbidden => exact h.move rfl (fun x hx => by cases hx)
      | guard =>
          dsimp only [markNext]
          split
          · exact h.move rfl (fun x hx => by cases hx)
          · exact h.move rfl (fun x hx => by cases hx)
      | harvest guarded =>
          have hguards := (harvest_same g.state base len).guards
          obtain ⟨hstate, ⟨hfailed, hnext⟩ | hnext⟩ := harvest_cases g.state base len guarded
          · rw [hstate, hnext]
            cases guarded
            · exact h.move hguards (fun x hx => by cases hx)
            · rcases h with ⟨x, hx, hn⟩ | ⟨x, hx, hn⟩
              · exact .inl ⟨x, hguards ▸ hx, hn⟩
              · cases hx
                exact absurd hn (hquiet _ (hclean hfailed))
          · rw [hstate, hnext]
            cases guarded
            · exact h.move hguards (fun x hx => by cases hx)
            · exact h.move hguards (fun x hx => hx)
      | unguard => exact h.move rfl (fun x hx => by cases hx)
      | push =>
          rcases h with ⟨x, hx, hn⟩ | ⟨x, hx, hn⟩
          · exact .inl ⟨x, List.mem_append_left _ hx, hn⟩
          · cases hx
            exact .inl ⟨_, List.mem_append_right _ (List.mem_singleton_self _), hn⟩
      | count => exact h.move rfl (fun x hx => by cases hx)
      | finish => exact h.move rfl (fun x hx => by cases hx)
  | find asker =>
      rcases find_cases g.state asker with ⟨hnext, -⟩ | ⟨i, x, hi, -, hfound, hnext⟩
      · rw [hnext]
        exact h.move rfl (fun x hx => by cases hx)
      · rw [hnext]
        rcases h with ⟨y, hy, hn⟩ | ⟨y, hy, -⟩
        · rcases (mem_swapRemove hi y).mp hy with rfl | hy
          · exact absurd hn (hquiet _ (hclean _ hfound))
          · exact .inl ⟨y, hy, hn⟩
        · cases hy
  | count asker x => exact h.move rfl (fun x hx => by cases hx)
  | unguard asker x => exact h.move rfl (fun x hx => by cases hx)
  | note asker x => exact h.move (Record.noteAll_guards _ _) (fun x hx => by cases hx)

/-! ### Ranges kept off -/

/-- No guard of the record has page `n`, nor what the thread with the record has in hand. -/
def Off (s : State) (p : Option Inside) (n : Nat) : Prop :=
  (∀ x ∈ s.record.guards, ¬ x.Has n) ∧ ∀ x, p.bind Inside.pages = some x → ¬ x.Has n

theorem Off.move (h : Off s p n) (hguards : s'.record.guards = s.record.guards)
    (hpages : ∀ x, p'.bind Inside.pages = some x → p.bind Inside.pages = some x) :
    Off s' p' n := by
  refine ⟨fun x hx => h.1 x (hguards ▸ hx), fun x hx => h.2 x (hpages x hx)⟩

theorem Inside.raised_pages {q : Inside} (h : q.raised = some x) : q.pages = some x := by
  cases q with
  | mark base len at_ =>
      cases at_ with
      | harvest guarded =>
          cases guarded
          · cases h
          · exact h
      | unguard => exact h
      | push => exact h
      | guarding => cases h
      | forbidden => cases h
      | guard => cases h
      | count => cases h
      | finish => cases h
  | find asker => cases h
  | count asker x => exact h
  | unguard asker x => exact h
  | note asker x => cases h

/-- Read-only pages are a guard's or in hand. -/
theorem Off.writable (h : Off s p n) (hs : Sound s p) : s.host.readOnly n = false := by
  rw [Bool.eq_false_iff]
  intro hn
  rcases hs.covered n hn with ⟨x, hx, hxn⟩ | ⟨x, hx, hxn⟩
  · exact h.1 x hx hxn
  · cases p with
    | none => cases hx
    | some q => exact h.2 x (Inside.raised_pages hx) hxn

/-- A page of a forbidden range that is off stays so: the one look that could let a mark
take it finds the range. -/
theorem next_off {q : Inside} (h : Off s (some q) n)
    (hlook : ∀ x : Guard, x.Aligned → x.Has n → s.guardsForbidden x.first x.stop = true) :
    Off (next s q).1 (next s q).2.place n := by
  cases q with
  | mark base len at_ =>
      show Off (markNext s base len at_).1 (markNext s base len at_).2.place n
      cases at_ with
      | guarding =>
          apply h.move rfl
          intro x hx
          dsimp only [markNext, Next.place] at hx
          split at hx <;> cases hx
      | forbidden =>
          dsimp only [markNext, Next.place]
          split
          · exact h.move rfl (fun x hx => by cases hx)
          · next hnot =>
            refine ⟨h.1, fun x hx hn => ?_⟩
            cases hx
            exact hnot (hlook _ (rangeGuard_aligned base len) hn)
      | guard =>
          dsimp only [markNext]
          split
          · exact h.move rfl (fun x hx => hx)
          · exact h.move rfl (fun x hx => by cases hx)
      | harvest guarded =>
          have hguards := (harvest_same s base len).guards
          obtain ⟨hstate, ⟨-, hnext⟩ | hnext⟩ := harvest_cases s base len guarded
          · rw [hstate, hnext]
            cases guarded
            · exact h.move hguards (fun x hx => by cases hx)
            · exact h.move hguards (fun x hx => hx)
          · rw [hstate, hnext]
            cases guarded
            · exact h.move hguards (fun x hx => by cases hx)
            · exact h.move hguards (fun x hx => hx)
      | unguard => exact h.move rfl (fun x hx => by cases hx)
      | push =>
          refine ⟨fun x hx => ?_, h.2⟩
          rcases List.mem_append.mp hx with hx | hx
          · exact h.1 x hx
          · exact h.2 x (by rw [List.mem_singleton.mp hx]; rfl)
      | count => exact h.move rfl (fun x hx => by cases hx)
      | finish => exact h.move rfl (fun x hx => by cases hx)
  | find asker =>
      rcases find_cases s asker with ⟨hnext, -⟩ | ⟨i, x, hi, -, -, hnext⟩
      · rw [hnext]
        exact h.move rfl (fun x hx => by cases hx)
      · rw [hnext]
        have hmem := mem_swapRemove hi
        refine ⟨fun y hy => h.1 y ((hmem y).mpr (.inr hy)), fun y hy => ?_⟩
        cases hy
        exact h.1 x ((hmem x).mpr (.inl rfl))
  | count asker x => exact h.move rfl (fun x hx => hx)
  | unguard asker x => exact h.move rfl (fun x hx => by cases hx)
  | note asker x =>
      apply h.move (Record.noteAll_guards _ _)
      intro y hy
      cases asker <;> cases hy

theorem off_of_not_meets {s : State} {p : Option Inside} {base len n : Nat}
    (haligned : ∀ x ∈ s.record.guards, x.Aligned)
    (hguards : ∀ x ∈ s.record.guards, (Asker.range base len true).seeks x = false)
    (hpages : ∀ x, p.bind Inside.pages = some x →
      x.Aligned ∧ (Asker.range base len true).seeks x = false)
    (ht : touches base (base + len) n = true) : Off s p n :=
  ⟨fun x hx => State.not_has_of_released (haligned x hx) (hguards x hx) ht,
    fun x hx => State.not_has_of_released (hpages x hx).1 (hpages x hx).2 ht⟩

/-- What the thread with the record has in hand is whole pages. -/
theorem Sound.pages_aligned {s : State} {p : Option Inside} (h : Sound s p) {x : Guard}
    (hx : p.bind Inside.pages = some x) : x.Aligned := by
  cases p with
  | none => cases hx
  | some q =>
      cases q with
      | mark base len at_ =>
          cases at_ with
          | harvest guarded =>
              cases guarded
              · cases hx
              · cases hx
                exact rangeGuard_aligned base len
          | guarding => cases hx
          | forbidden => cases hx
          | finish => cases hx
          | _ =>
              cases hx
              exact rangeGuard_aligned base len
      | find asker => cases hx
      | count asker y =>
          cases hx
          exact (h.fits _ rfl).1
      | unguard asker y =>
          cases hx
          exact (h.fits _ rfl).1
      | note asker y => cases hx

end Next

/-! ## Alone -/

/-- What a call comes to when no other thread comes between its steps. -/
inductive Alone : State → Inside → State → List Event → Prop where
  | done {s s' : State} {p : Inside} {w : List Event} :
      next s p = (s', .done w) → Alone s p s' w
  | at_ {s s' s'' : State} {p q : Inside} {w : List Event} :
      next s p = (s', .at_ q) → Alone s' q s'' w → Alone s p s'' w

theorem alone_harvest (s : State) (base len : Nat) (guarded : Bool) :
    Alone s (.mark base len (.harvest guarded))
      (match (s.harvest base len).1 with
        | none =>
            if guarded then { (s.harvest base len).2 with
              host := (s.harvest base len).2.host.unguard (pagesOf base len).1 (pagesOf base len).2 }
            else (s.harvest base len).2
        | some _ => (if guarded then (s.harvest base len).2.recordGuard base len
            else (s.harvest base len).2).nextEpoch)
      [.marked base len ((s.harvest base len).1.map (fun _ => s.record.epoch))] := by
  have hepoch : (s.harvest base len).2.record.epoch = s.record.epoch := State.take_epoch s _
  cases hharvest : (s.harvest base len).1 with
  | none =>
      have hnext : next s (.mark base len (.harvest guarded)) = ((s.harvest base len).2,
          if guarded then .at_ (.mark base len .unguard) else .done [.marked base len none]) := by
        rw [next, markNext, hharvest]
      cases guarded
      · exact .done hnext
      · exact .at_ hnext (.done rfl)
  | some b =>
      have hnext : next s (.mark base len (.harvest guarded)) = ((s.harvest base len).2,
          .at_ (.mark base len (if guarded then .push else .finish))) := by
        rw [next, markNext, hharvest]
      rw [Option.map_some, ← hepoch]
      cases guarded
      · exact .at_ hnext (.done rfl)
      · exact .at_ hnext (.at_ rfl (.at_ rfl (.done rfl)))

theorem mark_eq (s : State) (base len : Nat) :
    s.mark base len = (((s.putGuard base len).2.harvest base len).1.map (fun _ => s.record.epoch),
      match ((s.putGuard base len).2.harvest base len).1 with
      | none =>
          if (s.putGuard base len).1 then { ((s.putGuard base len).2.harvest base len).2 with
            host := ((s.putGuard base len).2.harvest base len).2.host.unguard
              (pagesOf base len).1 (pagesOf base len).2 }
          else ((s.putGuard base len).2.harvest base len).2
      | some _ =>
          (if (s.putGuard base len).1 then
            ((s.putGuard base len).2.harvest base len).2.recordGuard base len
          else ((s.putGuard base len).2.harvest base len).2).nextEpoch) := by
  unfold State.mark
  cases hharvest : ((s.putGuard base len).2.harvest base len).1 with
  | none =>
      dsimp only
      rw [hharvest]
      rfl
  | some b =>
      dsimp only
      rw [hharvest]
      rfl

theorem alone_mark (s : State) (base len : Nat) :
    Alone s (.mark base len .guarding) (s.mark base len).2
      [.marked base len (s.mark base len).1] := by
  have hharvest := alone_harvest (s.putGuard base len).2 base len (s.putGuard base len).1
  have hepoch : (s.putGuard base len).2.record = s.record := State.putGuard_record s base len
  rw [hepoch] at hharvest
  rw [mark_eq]
  by_cases hfirst : (s.guarding && decide (guardedFrom ≤ len) &&
      decide (s.record.guards.length < guardsMost) &&
      !s.record.guards.any (fun x => x.meets (pagesOf base len).1 (pagesOf base len).2)) = true
  · have hguarding : next s (.mark base len .guarding) = (s, .at_ (.mark base len .forbidden)) := by
      rw [next, markNext, if_pos hfirst]
    apply Alone.at_ hguarding
    by_cases hforbidden : s.guardsForbidden (pagesOf base len).1 (pagesOf base len).2 = true
    · have hput : s.putGuard base len = (false, s) := by
        simp [State.putGuard, State.mayGuard, hforbidden]
      rw [hput] at hharvest ⊢
      apply Alone.at_ _ hharvest
      rw [next, markNext, if_pos hforbidden]
    · have hlook : next s (.mark base len .forbidden) = (s, .at_ (.mark base len .guard)) := by
        rw [next, markNext, if_neg hforbidden]
      apply Alone.at_ hlook
      have hmay : s.mayGuard len (pagesOf base len).1 (pagesOf base len).2 = true := by
        rw [State.mayGuard, hfirst]
        simpa using hforbidden
      by_cases hplain : s.host.plain (pagesOf base len).1 (pagesOf base len).2 = true
      · have hput : s.putGuard base len =
            (true, { s with host := s.host.guard (pagesOf base len).1 (pagesOf base len).2 }) := by
          simp [State.putGuard, hmay, hplain]
        rw [hput] at hharvest ⊢
        apply Alone.at_ _ hharvest
        rw [next, markNext, if_pos hplain]
      · have hput : s.putGuard base len = (false, s) := by
          simp [State.putGuard, hplain]
        rw [hput] at hharvest ⊢
        apply Alone.at_ _ hharvest
        rw [next, markNext, if_neg hplain]
  · have hput : s.putGuard base len = (false, s) := by
      have hmay : ¬ s.mayGuard len (pagesOf base len).1 (pagesOf base len).2 = true := by
        intro h
        rw [State.mayGuard, Bool.and_eq_true] at h
        exact hfirst h.1
      simp [State.putGuard, hmay]
    rw [hput] at hharvest ⊢
    apply Alone.at_ _ hharvest
    rw [next, markNext, if_neg hfirst]

theorem alone_fault (s : State) (address : Nat) (guarded : Bool) (hcount : s.guardCount ≠ 0) :
    Alone s (.find (.fault address guarded)) (s.writeFaulted address).2
      [.answered address guarded (s.writeFaulted address).1] := by
  unfold State.writeFaulted
  rw [if_neg (by simpa using hcount)]
  cases hfind : s.record.guards.findIdx? (fun x => x.first ≤ address && address < x.stop) with
  | none =>
      apply Alone.done
      dsimp only [next, Asker.seeks]
      rw [hfind]
      rfl
  | some i =>
      obtain ⟨x, hx, -, hnext⟩ := next_find (.fault address guarded) hfind
      apply Alone.at_ hnext
      dsimp only
      rw [State.release_eq hx]
      exact .at_ rfl (.at_ rfl (.done rfl))

/-- The loop of `release_guards` that no thread comes between is `State.releaseMeeting`. -/
theorem alone_releaseMeeting (base len : Nat) (forbids : Bool) {turns : Nat} {s : State}
    (hturns : s.record.guards.length ≤ turns) :
    Alone s (.find (.range base len forbids))
      (s.releaseMeeting (pagesOf base len).1 (pagesOf base len).2 turns)
      (Asker.answer false (.range base len forbids)) := by
  induction turns generalizing s with
  | zero =>
      have hnil : s.record.guards = [] := List.length_eq_zero_iff.mp (Nat.le_zero.mp hturns)
      apply Alone.done
      dsimp only [next]
      rw [hnil]
      rfl
  | succ turns ih =>
      unfold State.releaseMeeting
      cases hfind : s.record.guards.findIdx?
          (fun g => g.meets (pagesOf base len).1 (pagesOf base len).2) with
      | none =>
          apply Alone.done
          dsimp only [next, Asker.seeks]
          rw [hfind]
      | some i =>
          obtain ⟨x, hx, -, hnext⟩ := next_find (.range base len forbids) hfind
          have hlen := (State.release_guards_perm hx).length_eq
          rw [List.length_cons] at hlen
          have hrest := ih (s := s.release i) (by omega)
          dsimp only
          rw [State.release_eq hx] at hrest ⊢
          exact .at_ hnext (.at_ rfl (.at_ rfl (.at_ rfl hrest)))

end Orbistoun.Mem.Watch.Threads
