import Orbistoun.Mem.Watch.Threads.Step

/-! # Every run of the threads

What holds of the record, the threads on their way to it and the ranges forbidden, after each
step of a clean run; and the runs in which a promise is broken.
-/

namespace Orbistoun.Mem.Watch.Threads

open Std (TreeMap TreeSet)
open Orbistoun.Lib
open Orbistoun.Lib.U64 (saturatingAdd bound)

/-- Where a thread starts once it has the record. -/
def Inside.First : Inside → Prop
  | .mark _ _ .guarding => True
  | .find _ => True
  | _ => False

namespace System

/-- Where the thread with the record stands. -/
def place (g : System) : Option Inside := g.inside.map Prod.snd

structure Inv (g : System) (w : List Event) : Prop where
  sound : Sound g.state g.place
  faults : ∀ c ∈ g.outside, ∀ address ∈ c.place.fault,
    Covered g.state g.place (address / pageBytes)
  waits : ∀ c ∈ g.outside, ∀ p, c.place = .wait p → p.First
  apart : ∀ a l b k : Nat, g.state.unguardable[a]? = some l → g.state.unguardable[b]? = some k →
    Apart (a, l) (b, k)
  standing : ∀ r ∈ (promises w).standing, g.state.unguardable[r.1]? = some r.2
  sub : ∀ r ∈ (promises w).kept, r ∈ (promises w).standing
  off : ∀ r ∈ (promises w).kept, ∀ n, touches r.1 (r.1 + r.2) n = true → Off g.state g.place n

variable {g : System} {w : List Event}

theorem promises_snoc (w : List Event) (e : Event) :
    promises (w ++ [e]) = (promises w).note e :=
  List.foldl_append ..

/-- Nothing the invariants read is another after the step. -/
theorem Inv.same (h : Inv g w) {s : State} (hsame : Same g.state s)
    (htable : s.unguardable = g.state.unguardable) : Inv { g with state := s } w where
  sound := by
    apply h.sound.move hsame rfl rfl (fun x hx => hx)
    intro q hq
    have hfits := h.sound.fits q hq
    cases q with
    | mark base len at_ =>
        cases at_ with
        | count =>
            obtain ⟨l, hl⟩ := hfits
            exact ⟨l, hsame.guards.trans hl⟩
        | _ => trivial
    | find asker =>
        cases asker with
        | fault address guarded =>
            cases guarded
            · trivial
            · obtain ⟨x, hx, hn⟩ := hfits
              exact ⟨x, hsame.guards ▸ hx, hn⟩
        | range base len forbids => trivial
    | count asker x => exact hfits
    | unguard asker x => exact hfits
    | note asker x =>
        obtain ⟨hx, hseeks, hro⟩ := hfits
        exact ⟨hx, hseeks, fun n hn => by rw [hsame.readOnly]; exact hro n hn⟩
  faults := fun c hc address ha => (h.faults c hc address ha).move hsame.guards (fun x hx => hx)
  waits := h.waits
  apart := by
    show ∀ a l b k : Nat, s.unguardable[a]? = some l → s.unguardable[b]? = some k → _
    rw [htable]
    exact h.apart
  standing := by
    show ∀ r ∈ (promises w).standing, s.unguardable[r.1]? = some r.2
    rw [htable]
    exact h.standing
  sub := h.sub
  off := fun r hr n hn => (h.off r hr n hn).move hsame.guards (fun x hx => hx)

theorem Inv.leave (h : Inv g w) (thread : Nat) : Inv (g.leave thread) w where
  sound := h.sound
  faults := fun c hc => h.faults c (Roster.mem_strike.mp hc).1
  waits := fun c hc => h.waits c (Roster.mem_strike.mp hc).1
  apart := h.apart
  standing := h.standing
  sub := h.sub
  off := h.off

theorem Inv.enter (h : Inv g w) (thread : Nat) {p : Outside}
    (hfault : ∀ address ∈ p.fault, Covered g.state g.place (address / pageBytes))
    (hwait : ∀ q, p = .wait q → q.First) : Inv (g.enter thread p) w where
  sound := h.sound
  faults := by
    intro c hc
    rcases List.mem_append.mp hc with hc | hc
    · exact h.faults c hc
    · rw [List.mem_singleton.mp hc]
      exact hfault
  waits := by
    intro c hc
    rcases List.mem_append.mp hc with hc | hc
    · exact h.waits c hc
    · rw [List.mem_singleton.mp hc]
      exact hwait
  apart := h.apart
  standing := h.standing
  sub := h.sub
  off := h.off

theorem Inv.silent (h : Inv g w) {e : Event} (he : (promises w).note e = promises w) :
    Inv g (w ++ [e]) := by
  obtain ⟨hsound, hfaults, hwaits, hapart, hstanding, hsub, hoff⟩ := h
  rw [← he, ← promises_snoc] at hstanding hsub hoff
  exact ⟨hsound, hfaults, hwaits, hapart, hstanding, hsub, hoff⟩

/-- An answer promises nothing but that of a `forbid_guards`, which promises its range. -/
theorem Inv.answer (h : Inv g w) (asker : Asker) (b : Bool)
    (hoff : ∀ base len, asker = .range base len true →
      ∀ n, touches base (base + len) n = true → Off g.state g.place n) :
    Inv g (w ++ asker.answer b) := by
  cases asker with
  | fault address guarded => exact h.silent rfl
  | range base len forbids =>
      cases forbids with
      | false => exact h.silent rfl
      | true =>
          have hnote : promises (w ++ [Event.forbade base len]) =
              if (base, len) ∈ (promises w).standing then
                { promises w with kept := (base, len) :: (promises w).kept }
              else promises w := promises_snoc w _
          show Inv g (w ++ [Event.forbade base len])
          by_cases hmem : (base, len) ∈ (promises w).standing
          · rw [if_pos hmem] at hnote
            refine ⟨h.sound, h.faults, h.waits, h.apart, ?_, ?_, ?_⟩
            · rw [hnote]
              exact h.standing
            · rw [hnote]
              intro r hr
              rcases List.mem_cons.mp hr with rfl | hr
              · exact hmem
              · exact h.sub r hr
            · rw [hnote]
              intro r hr
              rcases List.mem_cons.mp hr with rfl | hr
              · exact hoff base len rfl
              · exact h.off r hr
          · rw [if_neg hmem] at hnote
            exact h.silent ((promises_snoc w _).symm.trans hnote)

/-! ## Calls -/

theorem Inv.forbid (h : Inv g w) {base len : Nat}
    (happart : ∀ r ∈ g.state.unguardable.toList, Apart r (base, len)) :
    Inv { g with state := { g.state with unguardable := g.state.unguardable.insert base len } }
      (w ++ [Event.forbidding base len]) := by
  have hins : ∀ b : Nat, (g.state.unguardable.insert base len)[b]? =
      if base = b then some len else g.state.unguardable[b]? := by
    intro b
    rw [TreeMap.getElem?_insert]
    simp only [Nat.compare_eq_eq]
  have hnew : ∀ b k : Nat, g.state.unguardable[b]? = some k → Apart (b, k) (base, len) :=
    fun b k hb => happart _ (Nearest.mem_toList.mpr hb)
  have hsymm : ∀ r r' : Nat × Nat, Apart r r' → Apart r' r := by
    rintro r r' (rfl | hlt | hlt)
    · exact .inl rfl
    · exact .inr (.inr hlt)
    · exact .inr (.inl hlt)
  have hnote := promises_snoc w (.forbidding base len)
  refine ⟨h.sound.move ⟨rfl, rfl, rfl⟩ rfl rfl (fun x hx => hx) h.sound.fits, h.faults,
    h.waits, ?_, ?_, ?_, ?_⟩
  · intro a l b k ha hb
    have ha := (hins a).symm.trans ha
    have hb := (hins b).symm.trans hb
    split at ha
    · next heqa =>
      cases ha
      split at hb
      · next heqb =>
        cases hb
        exact .inl (by rw [← heqa, ← heqb])
      · rw [← heqa]
        exact hsymm _ _ (hnew b k hb)
    · split at hb
      · next heqb =>
        cases hb
        rw [← heqb]
        exact hnew a l ha
      · exact h.apart a l b k ha hb
  · rw [hnote]
    intro r hr
    show (g.state.unguardable.insert base len)[r.1]? = some r.2
    rw [hins]
    rcases List.mem_cons.mp hr with rfl | hr
    · exact if_pos rfl
    · have hold := h.standing r hr
      split
      · next heq =>
        rcases hnew r.1 r.2 hold with hsame | ⟨hlt, -⟩ | ⟨hlt, -⟩
        · exact congrArg (some ∘ Prod.snd) hsame.symm
        · exact absurd heq.symm (Nat.ne_of_lt hlt)
        · exact absurd heq (Nat.ne_of_lt hlt)
      · exact hold
  · rw [hnote]
    intro r hr
    exact List.mem_cons_of_mem _ (h.sub r hr)
  · rw [hnote]
    exact h.off

theorem Inv.allow (h : Inv g w) (base len : Nat) :
    Inv { g with state := g.state.allowGuards base len } (w ++ [Event.allowed base len]) := by
  have hnote := promises_snoc w (.allowed base len)
  unfold State.allowGuards
  split
  · next hin =>
    have herase : ∀ b : Nat, (g.state.unguardable.erase base)[b]? =
        if base = b then none else g.state.unguardable[b]? := by
      intro b
      rw [TreeMap.getElem?_erase]
      simp only [Nat.compare_eq_eq]
    have hold : ∀ b k : Nat, (g.state.unguardable.erase base)[b]? = some k →
        g.state.unguardable[b]? = some k := by
      intro b k hb
      rw [herase] at hb
      split at hb
      · cases hb
      · exact hb
    refine ⟨h.sound.move ⟨rfl, rfl, rfl⟩ rfl rfl (fun x hx => hx) h.sound.fits, h.faults, h.waits,
      fun a l b k ha hb => h.apart a l b k (hold a l ha) (hold b k hb), ?_, ?_, ?_⟩
    · rw [hnote]
      intro r hr
      obtain ⟨hr, hne⟩ := List.mem_filter.mp hr
      have hstanding := h.standing r hr
      show (g.state.unguardable.erase base)[r.1]? = some r.2
      rw [herase, if_neg]
      · exact hstanding
      · intro heq
        rw [← heq, hin] at hstanding
        cases hstanding
        have hne : r ≠ (base, r.2) := of_decide_eq_true hne
        exact hne (Prod.ext heq.symm rfl)
    · rw [hnote]
      intro r hr
      obtain ⟨hr, hne⟩ := List.mem_filter.mp hr
      exact List.mem_filter.mpr ⟨h.sub r hr, hne⟩
    · rw [hnote]
      intro r hr
      exact h.off r (List.mem_filter.mp hr).1
  · refine ⟨h.sound, h.faults, h.waits, h.apart, ?_, ?_, ?_⟩
    · rw [hnote]
      intro r hr
      exact h.standing r (List.mem_filter.mp hr).1
    · rw [hnote]
      intro r hr
      obtain ⟨hr, hne⟩ := List.mem_filter.mp hr
      exact List.mem_filter.mpr ⟨h.sub r hr, hne⟩
    · rw [hnote]
      intro r hr
      exact h.off r (List.mem_filter.mp hr).1

theorem down_eq (g : System) : g.down = g.place.bind Inside.down := by
  unfold down place
  cases g.inside <;> rfl

theorem pages_eq (g : System) : g.pages = g.place.bind Inside.pages := by
  unfold pages place
  cases g.inside <;> rfl

/-- A write a guard stopped finds its page covered, when nothing takes the guard down. -/
theorem Inv.faulted (h : Inv g w) {n : Nat} (hro : g.state.host.readOnly n = true)
    (hdown : ∀ x ∈ g.down, ¬ x.Has n) : Covered g.state g.place n := by
  rcases h.sound.covered n hro with hguard | ⟨x, hx, hn⟩
  · exact .inl hguard
  · right
    rw [down_eq] at hdown
    cases hp : g.place with
    | none =>
        rw [hp] at hx
        cases hx
    | some q =>
        rw [hp] at hx hdown
        have hx : q.up.or q.down = some x := hx
        cases hup : q.up with
        | some y =>
            rw [hup] at hx
            cases hx
            exact ⟨x, hup, hn⟩
        | none =>
            rw [hup] at hx
            exact absurd hn (hdown x hx)

theorem Inv.call (h : Inv g w) (thread : Nat) {c : Call} (hclean : g.Clean (.call thread c)) :
    Inv (g.call thread c).1 (w ++ (g.call thread c).2) := by
  cases c with
  | mark base len =>
      rw [System.call, List.append_nil]
      apply h.enter
      · intro address ha
        cases ha
      · intro q hq
        cases hq
        trivial
  | releaseGuards base len =>
      rw [System.call, List.append_nil]
      apply h.enter
      · intro address ha
        cases ha
      · intro q hq
        cases hq
  | forbidGuards base len =>
      rw [System.call]
      apply (h.forbid hclean).enter
      · intro address ha
        cases ha
      · intro q hq
        cases hq
  | allowGuards base len => exact h.allow base len
  | guardMarkedRanges =>
      rw [System.call, List.append_nil]
      exact h.same ⟨rfl, rfl, rfl⟩ rfl
  | write address stopped =>
      cases stopped with
      | true =>
          rw [System.call, if_pos rfl, List.append_nil]
          apply h.enter
          · intro address ha
            cases ha
          · intro q hq
            cases hq
      | false =>
          rw [System.call, if_neg (by decide)]
          split
          · next hro =>
            rw [List.append_nil]
            apply h.enter
            · intro a ha
              cases ha
              exact h.faulted hro (hclean hro)
            · intro q hq
              cases hq
          · rw [List.append_nil]
            exact h.same ⟨rfl, rfl, rfl⟩ rfl

/-! ## Steps -/

theorem Inv.none_counted (h : Inv g w) (hzero : g.state.guardCount = 0) {x : Guard}
    (hx : x ∈ g.state.record.guards) : x ∈ g.pages := by
  have hcounted := h.sound.counted
  have hpos := List.length_pos_of_mem hx
  rw [pages_eq]
  cases hp : g.place with
  | none =>
      rw [hp, hzero] at hcounted
      have hcounted : 0 + 0 = g.state.record.guards.length + 0 := hcounted
      omega
  | some q =>
      rw [hp, hzero] at hcounted
      have hcounted : 0 + q.uncounted = g.state.record.guards.length + q.overcounted := hcounted
      have hfits := h.sound.fits q hp
      cases q with
      | mark base len at_ =>
          cases at_ with
          | count =>
              obtain ⟨l, hl⟩ := hfits
              have hone : 0 + 1 = g.state.record.guards.length + 0 := hcounted
              rw [hl, List.length_append, List.length_singleton] at hone
              have hnil : l = [] := List.length_eq_zero_iff.mp (by omega)
              rw [hl, hnil] at hx
              rw [List.mem_singleton.mp hx]
              rfl
          | _ =>
              have hcounted : 0 + 0 = g.state.record.guards.length + 0 := hcounted
              omega
      | _ =>
          have hcounted : 0 + 0 = g.state.record.guards.length + _ := hcounted
          omega

theorem Inv.look (h : Inv g w) {r : Nat × Nat} (hr : r ∈ (promises w).kept) {n : Nat}
    (ht : touches r.1 (r.1 + r.2) n = true) (x : Guard) (hx : x.Aligned) (hn : x.Has n) :
    g.state.guardsForbidden x.first x.stop = true := by
  have hin := h.standing r (h.sub r hr)
  exact guardsForbidden_of_apart (fun b l hb => h.apart r.1 r.2 b l hin hb) hin hx hn ht

/-- The record is taken. -/
theorem Inv.take (h : Inv g w) (hfree : g.inside = none) {c : Caller} (hc : c ∈ g.outside)
    {p : Inside} (hp : c.place = .wait p) (thread : Nat) :
    Inv { g with inside := some (thread, p) } w := by
  have hplace : g.place = none := by
    unfold place
    rw [hfree]
    rfl
  have hfirst := h.waits c hc p hp
  have hsound := h.sound
  have hfaults := h.faults
  have hoff := h.off
  rw [hplace] at hsound hfaults hoff
  refine ⟨?_, fun d hd a ha => (hfaults d hd a ha).move rfl (fun x hx => by cases hx), h.waits,
    h.apart, h.standing, h.sub, fun r hr n ht => (hoff r hr n ht).move rfl (fun x hx => ?_)⟩
  · show Sound g.state (some p)
    cases p with
    | mark base len at_ =>
        cases at_ with
        | guarding => exact hsound.move (.refl _) rfl rfl (fun x hx => by cases hx) (fits_some trivial)
        | _ => exact absurd hfirst not_false
    | find asker =>
        have hfits : (Inside.find asker).Fits g.state := by
          cases asker with
          | fault address guarded =>
              cases guarded
              · trivial
              · have hcov := hfaults c hc address (by rw [hp]; rfl)
                rcases hcov with hguard | ⟨x, hx, -⟩
                · exact hguard
                · cases hx
          | range base len forbids => trivial
        exact hsound.move (.refl _) rfl rfl (fun x hx => by cases hx) (fits_some hfits)
    | _ => exact absurd hfirst not_false
  · have hx : p.pages = some x := hx
    cases p with
    | mark base len at_ =>
        cases at_ with
        | guarding => cases hx
        | _ => exact absurd hfirst not_false
    | find asker => cases hx
    | _ => exact absurd hfirst not_false

theorem entry_mem {thread : Nat} {c : Caller} (hc : g.entry thread = some c) : c ∈ g.outside :=
  (Roster.entry_mem hc).1

theorem Inv.outer (h : Inv g w) (thread : Nat)
    (hclean : ∀ c ∈ g.entry thread, g.CleanOutside c.place) :
    Inv (g.outer thread).1 (w ++ (g.outer thread).2) := by
  unfold System.outer
  cases hentry : g.entry thread with
  | none =>
      rw [List.append_nil]
      exact h
  | some c =>
      have hmem := entry_mem hentry
      have hclean := hclean c hentry
      dsimp only
      cases hplace : c.place with
      | load asker =>
          dsimp only
          rw [hplace] at hclean
          split
          · next hzero =>
            apply (h.leave thread).answer
            intro base len hasker n ht
            have hpages : ∀ x ∈ g.pages, (Asker.range base len true).seeks x = false := by
              intro x hx
              rw [← hasker]
              exact hclean (by rw [hasker]; rfl) hzero x hx
            apply off_of_not_meets h.sound.aligned
            · intro x hx
              exact hpages x (h.none_counted hzero hx)
            · intro x hx
              have hx : g.place.bind Inside.pages = some x := hx
              exact ⟨h.sound.pages_aligned hx, hpages x ((pages_eq g).trans hx)⟩
            · exact ht
          · rw [List.append_nil]
            apply (h.leave thread).enter
            · intro address ha
              apply h.faults c hmem address
              rw [hplace]
              cases asker with
              | fault a guarded =>
                  cases guarded
                  · cases ha
                  · exact ha
              | range base len forbids => cases ha
            · intro q hq
              cases hq
              trivial
      | wait p =>
          dsimp only
          split
          · next hfree =>
            rw [List.append_nil]
            exact (h.take hfree hmem hplace thread).leave thread
          · rw [List.append_nil]
            exact h

theorem Inv.inner (h : Inv g w) {thread : Nat} {p : Inside} (hinside : g.inside = some (thread, p))
    (hclean : g.CleanInside p) : Inv (g.inner thread p).1 (w ++ (g.inner thread p).2) := by
  have hplace : g.place = some p := by
    unfold place
    rw [hinside]
    rfl
  have hsound := h.sound
  have hfaults := h.faults
  have hoff := h.off
  rw [hplace] at hsound hfaults hoff
  have hstep : ∀ inside : Option (Nat × Inside),
      inside.map Prod.snd = (next g.state p).2.place →
        Inv { g with state := (next g.state p).1, inside := inside } w := by
    intro inside hnext
    have hsound' := next_sound hsound
    rw [← hnext] at hsound'
    refine ⟨hsound', fun c hc a ha => ?_, h.waits, ?_, ?_, h.sub, fun r hr n ht => ?_⟩
    · have hcov := next_covered (hfaults c hc a ha) hclean (fun x hx => hx c hc a ha)
      rw [← hnext] at hcov
      exact hcov
    · show ∀ a l b k : Nat, (next g.state p).1.unguardable[a]? = some l →
        (next g.state p).1.unguardable[b]? = some k → Apart (a, l) (b, k)
      rw [next_unguardable]
      exact h.apart
    · show ∀ r ∈ (promises w).standing, (next g.state p).1.unguardable[r.1]? = some r.2
      rw [next_unguardable]
      exact h.standing
    · have hout := next_off (hoff r hr n ht) (h.look hr ht)
      rw [← hnext] at hout
      exact hout
  unfold System.inner
  cases hnext : (next g.state p).2 with
  | at_ q =>
      dsimp only
      rw [List.append_nil]
      apply hstep
      rw [hnext]
      rfl
  | done e =>
      dsimp only
      have hinv := hstep none (by rw [hnext]; rfl)
      cases p with
      | mark base len at_ =>
          have hquiet : ∃ stamp, e = [.marked base len stamp] := by
            have hnext : (markNext g.state base len at_).2 = .done e := hnext
            cases at_ with
            | harvest guarded =>
                rcases (harvest_cases g.state base len guarded).2 with ⟨-, hdone⟩ | hdone
                · rw [hdone] at hnext
                  cases guarded
                  · cases hnext
                    exact ⟨none, rfl⟩
                  · cases hnext
                · rw [hdone] at hnext
                  cases hnext
            | guard =>
                dsimp only [markNext] at hnext
                split at hnext <;> cases hnext
            | unguard =>
                cases hnext
                exact ⟨none, rfl⟩
            | finish =>
                cases hnext
                exact ⟨_, rfl⟩
            | _ => cases hnext
          obtain ⟨stamp, rfl⟩ := hquiet
          exact hinv.silent rfl
      | find asker =>
          rcases find_cases g.state asker with ⟨hdone, hnot⟩ | ⟨i, x, -, -, -, hgo⟩
          · have he : asker.answer false = e := by
              rw [hdone] at hnext
              cases hnext
              rfl
            subst he
            apply hinv.answer
            intro base len hasker n ht
            subst hasker
            have hguards : (next g.state (.find (.range base len true))).1.record.guards =
                g.state.record.guards := by rw [hdone]
            apply off_of_not_meets (by rw [hguards]; exact hsound.aligned)
            · rw [hguards]
              exact hnot
            · intro x hx
              cases hx
            · exact ht
          · rw [hgo] at hnext
            cases hnext
      | count asker x => cases hnext
      | unguard asker x => cases hnext
      | note asker x =>
          cases asker with
          | fault address guarded =>
              cases hnext
              exact hinv.silent rfl
          | range base len forbids => cases hnext

theorem Inv.step (h : Inv g w) {a : Action} (hclean : g.Clean a) :
    Inv (g.step a).1 (w ++ (g.step a).2) := by
  cases a with
  | call thread c =>
      rw [System.step]
      split
      · rw [List.append_nil]
        exact h
      · exact h.call thread hclean
  | advance thread =>
      rw [System.step]
      cases hinside : g.inside with
      | none => exact h.outer thread hclean.2
      | some e =>
          obtain ⟨t, p⟩ := e
          dsimp only
          split
          · next heq =>
            subst heq
            exact h.inner hinside (hclean.1 _ hinside rfl)
          · exact h.outer thread hclean.2
  | world host registry =>
      rw [System.step, List.append_nil]
      exact h.same ⟨rfl, rfl, rfl⟩ rfl

/-! ## Answers -/

theorem Inside.up_pages {q : Inside} {x : Guard} (h : q.up = some x) : q.pages = some x := by
  apply Inside.raised_pages
  rw [Inside.raised, h]
  rfl

/-- A write a guard stopped never finds `GUARDS` at 0. -/
theorem Inv.counted_of_fault (h : Inv g w) {c : Caller} (hc : c ∈ g.outside) {address : Nat}
    (hplace : c.place = .load (.fault address true)) (hclean : g.CleanOutside c.place) :
    g.state.guardCount ≠ 0 := by
  intro hzero
  rw [hplace] at hclean
  have hnone := hclean rfl hzero
  have hin : ∃ x ∈ g.pages, x.Has (address / pageBytes) := by
    rcases h.faults c hc address (by rw [hplace]; rfl) with ⟨x, hx, hn⟩ | ⟨x, hx, hn⟩
    · exact ⟨x, h.none_counted hzero hx, hn⟩
    · refine ⟨x, ?_, hn⟩
      rw [pages_eq]
      cases hp : g.place with
      | none =>
          rw [hp] at hx
          cases hx
      | some q =>
          rw [hp] at hx
          exact Inside.up_pages hx
  obtain ⟨x, hx, hn⟩ := hin
  have haligned := h.sound.pages_aligned ((pages_eq g).symm.trans hx)
  have hseeks := hnone x hx
  rw [(seeks_fault haligned).mpr hn] at hseeks
  cases hseeks

/-- What a guard's fault is answered, from what the thread that answers it knows. -/
theorem answered_of_done {s : State} {q : Inside} (hfits : q.Fits s) {e : List Event}
    (haligned : ∀ x ∈ s.record.guards, x.Aligned)
    (hdone : (next s q).2 = .done e) {address : Nat} {b : Bool}
    (he : .answered address true b ∈ e) : b = true ∧ Released (next s q).1 address := by
  cases q with
  | mark base len at_ =>
      have hdone : (markNext s base len at_).2 = .done e := hdone
      cases at_ with
      | harvest guarded =>
          rcases (harvest_cases s base len guarded).2 with ⟨-, hout⟩ | hout
          · rw [hout] at hdone
            cases guarded
            · cases hdone
              rw [List.mem_singleton] at he
              cases he
            · cases hdone
          · rw [hout] at hdone
            cases hdone
      | guard =>
          dsimp only [markNext] at hdone
          split at hdone <;> cases hdone
      | unguard =>
          cases hdone
          rw [List.mem_singleton] at he
          cases he
      | finish =>
          cases hdone
          rw [List.mem_singleton] at he
          cases he
      | _ => cases hdone
  | find asker =>
      rcases find_cases s asker with ⟨hout, hnot⟩ | ⟨i, x, -, -, -, hgo⟩
      · rw [hout] at hdone
        cases hdone
        cases asker with
        | fault a guarded =>
            have he := List.mem_singleton.mp he
            cases he
            obtain ⟨x, hx, hn⟩ := hfits
            have hseeks := hnot x hx
            rw [(seeks_fault (haligned x hx)).mpr hn] at hseeks
            cases hseeks
        | range base len forbids =>
            cases forbids
            · have he := List.mem_singleton.mp he
              cases he
            · have he := List.mem_singleton.mp he
              cases he
      · rw [hgo] at hdone
        cases hdone
  | count asker x => cases hdone
  | unguard asker x => cases hdone
  | note asker x =>
      obtain ⟨hx, hseeks, hro⟩ := hfits
      cases asker with
      | fault a guarded =>
          cases hdone
          have he := List.mem_singleton.mp he
          cases he
          have hn := (seeks_fault hx).mp hseeks
          refine ⟨rfl, hro _ hn, ?_⟩
          show (s.record.noteAll _).written[_]? = some (s.record.noteAll _).epoch
          rw [Record.noteAll_written, Record.noteAll_epoch, if_pos (mem_steps hx.1 hn.1 hn.2)]
      | range base len forbids => cases hdone

theorem call_silent (g : System) (thread : Nat) (c : Call) {address : Nat} {b : Bool} :
    .answered address true b ∉ (g.call thread c).2 := by
  cases c with
  | write a stopped =>
      rw [System.call]
      split
      · exact List.not_mem_nil
      · split
        · exact List.not_mem_nil
        · exact List.not_mem_nil
  | forbidGuards base len =>
      intro h
      cases List.mem_singleton.mp h
  | allowGuards base len =>
      intro h
      cases List.mem_singleton.mp h
  | _ => exact List.not_mem_nil

theorem Inv.outer_silent (h : Inv g w) (thread : Nat)
    (hclean : ∀ c ∈ g.entry thread, g.CleanOutside c.place) {address : Nat} {b : Bool} :
    .answered address true b ∉ (g.outer thread).2 := by
  intro he
  unfold System.outer at he
  cases hentry : g.entry thread with
  | none =>
      rw [hentry] at he
      cases he
  | some c =>
      rw [hentry] at he
      dsimp only at he
      cases hplace : c.place with
      | load asker =>
          rw [hplace] at he
          dsimp only at he
          split at he
          · next hzero =>
            cases asker with
            | fault a guarded =>
                have he := List.mem_singleton.mp he
                cases he
                exact h.counted_of_fault (entry_mem hentry) hplace (hclean c hentry) hzero
            | range base len forbids =>
                cases forbids <;> cases List.mem_singleton.mp he
          · cases he
      | wait p =>
          rw [hplace] at he
          dsimp only at he
          split at he <;> cases he

theorem Inv.answered (h : Inv g w) {a : Action} (hclean : g.Clean a) {address : Nat} {b : Bool}
    (he : .answered address true b ∈ (g.step a).2) :
    b = true ∧ Released (g.step a).1.state address := by
  cases a with
  | call thread c =>
      rw [System.step] at he
      split at he
      · cases he
      · exact absurd he (call_silent g thread c)
  | advance thread =>
      rw [System.step] at he ⊢
      cases hinside : g.inside with
      | none =>
          rw [hinside] at he
          exact absurd he (h.outer_silent thread hclean.2)
      | some e =>
          obtain ⟨t, p⟩ := e
          rw [hinside] at he
          dsimp only at he ⊢
          split at he
          · next heq =>
            rw [if_pos heq]
            have hplace : g.place = some p := by
              unfold place
              rw [hinside]
              rfl
            unfold System.inner at he ⊢
            cases hnext : (next g.state p).2 with
            | at_ q =>
                rw [hnext] at he
                cases he
            | done e =>
                rw [hnext] at he
                exact answered_of_done (h.sound.fits p hplace) h.sound.aligned hnext he
          · exact absurd he (h.outer_silent thread hclean.2)
  | world host registry => cases he

theorem inv_start : Inv start [] where
  sound := {
    aligned := by
      intro x hx
      cases hx
    counted := rfl
    covered := by
      intro n hn
      cases hn
    fits := fits_none }
  faults := by
    intro c hc
    cases hc
  waits := by
    intro c hc
    cases hc
  apart := by
    intro a l b k ha
    have ha : (∅ : TreeMap Nat Nat)[a]? = some l := ha
    rw [TreeMap.getElem?_emptyc] at ha
    cases ha
  standing := by
    intro r hr
    cases hr
  sub := by
    intro r hr
    cases hr
  off := by
    intro r hr
    cases hr

theorem run_inv {as : List Action} (h : threads.Meets Clean start as) :
    Inv (threads.after start as) (threads.log start as) := by
  have hrun := Machine.run_rule (m := threads) (R := Inv) (w := [])
    (fun g w a hinv hclean => hinv.step hclean) inv_start h
  rw [List.nil_append] at hrun
  exact hrun

/-- In a run of clean steps a write only a guard stops is answered true, its page writable and
noted written; and from the return of a `forbid_guards` to its `allow_guards` no page of the
range is guarded. -/
theorem guard_faults_answered {as : List Action} (h : threads.Meets Clean start as) :
    (∀ pre a, pre ++ [a] <+: as → ∀ address b,
      .answered address true b ∈ threads.log (threads.after start pre) [a] →
        b = true ∧ Released (threads.after start (pre ++ [a])).state address) ∧
      ∀ pre, pre <+: as → ∀ r ∈ (promises (threads.log start pre)).kept,
        KeptOff (threads.after start pre).state r := by
  constructor
  · intro pre a hpre address b he
    obtain ⟨hbefore, hclean, -⟩ := Machine.meets_append.mp (h.of_prefix hpre)
    rw [Machine.log_cons, Machine.log_nil, List.append_nil] at he
    rw [Machine.after_append, Machine.after_cons, Machine.after_nil]
    exact (run_inv hbefore).answered hclean he
  · intro pre hpre r hr n ht
    have hinv := run_inv (h.of_prefix hpre)
    have hoff := hinv.off r hr n ht
    exact ⟨hoff.writable hinv.sound, hoff.1⟩

/-- Memory of one reservation, all of it committed and plain. -/
def plainHost : Host where
  held := [(0x10000, 0x100000)]
  dirty := ∅
  readOnly _ := false
  regionEnd _ := some 0x110000
  plain _ _ := true

/-- Thread 1 in a mark of sixteen pages, so many steps far. -/
def marking (steps : Nat) : List Action :=
  [.world plainHost .empty, .call 0 .guardMarkedRanges, .call 1 (.mark 0x10000 0x10000)] ++
    List.replicate steps (.advance 1)

def faultThenForbid : List Action :=
  marking 8 ++ .call 2 (.write 0x10fff false) :: List.replicate 6 (.advance 2) ++
    .call 1 (.mark 0x10000 0x10000) :: List.replicate 8 (.advance 1) ++
    .call 3 (.forbidGuards 0x11000 0x1000) :: List.replicate 7 (.advance 3)

/-- In a run with a write answered and a range forbidden, both under a guard. -/
theorem guard_faults_answered_both :
    (.answered 0x10fff true true ∈ threads.log start faultThenForbid ∧
        (promises (threads.log start faultThenForbid)).kept = [(0x11000, 0x1000)]) ∧
      (∀ pre a, pre ++ [a] <+: faultThenForbid → ∀ address b,
        .answered address true b ∈ threads.log (threads.after start pre) [a] →
          b = true ∧ Released (threads.after start (pre ++ [a])).state address) ∧
        ∀ pre, pre <+: faultThenForbid → ∀ r ∈ (promises (threads.log start pre)).kept,
          KeptOff (threads.after start pre).state r :=
  ⟨by decide +kernel, guard_faults_answered (by decide +kernel)⟩

/-- A write into pages a mark has made read-only and not counted yet. -/
def faultUncounted : List Action := marking 4 ++ [.call 2 (.write 0x10000 false), .advance 2]

def forbiddenPastLook : List Action :=
  marking 3 ++ [.call 2 (.forbidGuards 0x10000 0x1000), .advance 2, .advance 1]

/-- A guard's fault is answered false, and pages are guarded after the range was forbidden. -/
theorem guards_race :
    .answered 0x10000 true false ∈ threads.log start faultUncounted ∧
      (promises (threads.log start forbiddenPastLook)).kept = [(0x10000, 0x1000)] ∧
        ¬ KeptOff (threads.after start forbiddenPastLook).state (0x10000, 0x1000) := by
  refine ⟨by decide +kernel, by decide +kernel, fun h => ?_⟩
  have hwritable := (h 0x10 (by decide)).1
  have hguarded : (threads.after start forbiddenPastLook).state.host.readOnly 0x10 = true := by
    decide +kernel
  rw [hguarded] at hwritable
  cases hwritable

end System

end Orbistoun.Mem.Watch.Threads
