import Orbistoun.Kernel.Equeue.Basic

/-! # The ready list, the queued flags and the fired knotes stay in step

Readiness is kept three times: a knote's `queued` flag, its place on the ready
list, and its `fired` and `disabled` flags. The invariant below ties them
together; each operation keeps it, and so does every run.
-/

namespace Orbistoun.Kernel.Equeue

open Std (TreeMap)
open Orbistoun.Lib (Machine)

theorem getElem?_insert_key (t : TreeMap Key Knote) (k a : Key) (v : Knote) :
    (t.insert k v)[a]? = if k = a then some v else t[a]? := by
  rw [TreeMap.getElem?_insert]
  simp

theorem getElem?_erase_key (t : TreeMap Key Knote) (k a : Key) :
    (t.erase k)[a]? = if k = a then none else t[a]? := by
  rw [TreeMap.getElem?_erase]
  simp

/-- How often a knote with this record stands on the ready list. -/
def Knote.listings (knote : Knote) : Nat := if knote.queued then 1 else 0

def Knote.reports (knote : Knote) : Prop := knote.fired = true ∧ knote.disabled = false

/-- The invariant with the knotes of `off` excused from being queued when they report. -/
structure InvBut (off : Key → Prop) (s : State) : Prop where
  listed : ∀ key knote, s.knotes[key]? = some knote →
    s.ready.count (.knote key) = knote.listings
  named : ∀ key, .knote key ∈ s.ready → ∃ knote, s.knotes[key]? = some knote
  queued : ∀ key knote, ¬ off key → s.knotes[key]? = some knote → knote.reports →
    knote.queued = true

abbrev Inv (s : State) : Prop := InvBut (fun _ => False) s

theorem inv_empty : Inv State.empty := by
  constructor <;> simp [State.empty]

/-! ## Changes that touch no knote -/

theorem Inv.of_ready {s : State} (h : Inv s) (routes : List RouteEntry) {ready : List Ready}
    (hc : ∀ key, ready.count (.knote key) = s.ready.count (.knote key)) :
    Inv { s with ready, routes } where
  listed key knote hk := by rw [hc key]; exact h.listed key knote hk
  named key hm := h.named key (by
    rw [← List.count_pos_iff, hc key, List.count_pos_iff] at hm
    exact hm)
  queued := h.queued

theorem count_knote_append_posted (ready : List Ready) (route : Route) (event : PendingEvent)
    (key : Key) :
    (ready ++ [Ready.posted route event]).count (.knote key) = ready.count (.knote key) := by
  simp [List.count_append]

theorem replacePosted_count {route : Route} {event : PendingEvent} {ready ready' : List Ready}
    (h : replacePosted route event ready = some ready') (key : Key) :
    ready'.count (.knote key) = ready.count (.knote key) := by
  induction ready generalizing ready' with
  | nil => simp [replacePosted] at h
  | cons r rest ih =>
      cases r with
      | posted r held =>
          simp only [replacePosted] at h
          split at h
          · cases h
            simp
          · obtain ⟨tail, ht, rfl⟩ := Option.map_eq_some_iff.mp h
            simp [ih ht]
      | knote k =>
          obtain ⟨tail, ht, rfl⟩ := Option.map_eq_some_iff.mp h
          simp [List.count_cons, ih ht]

theorem push_posted_inv {s : State} (h : Inv s) (route : Route) (event : PendingEvent) :
    Inv (push s (.posted route event)) :=
  h.of_ready s.routes (fun key => count_knote_append_posted s.ready route event key)

theorem post_inv {s : State} (h : Inv s) (entry : RouteEntry) (event : PendingEvent) :
    Inv (post s entry event) := by
  unfold post
  dsimp only
  split
  · cases hr : replacePosted entry.route { event with udata := entry.udata } s.ready with
    | none => exact push_posted_inv h _ _
    | some ready => exact h.of_ready s.routes (replacePosted_count hr)
  · exact push_posted_inv h _ _

theorem postFilteredEvent_inv {s : State} (h : Inv s) (filter : Int16)
    (event : UInt64 → PendingEvent) : Inv (postFilteredEvent s filter event) := by
  unfold postFilteredEvent
  generalize filterRoutes s filter = entries
  induction entries generalizing s with
  | nil => exact h
  | cons entry rest ih => exact ih (post_inv h entry _)

theorem removeRoute_inv {s : State} (h : Inv s) (route : Route) : Inv (removeRoute s route) := by
  refine h.of_ready _ (fun key => ?_)
  rw [List.count_filter]
  simp [Ready.isPostedTo]

theorem addRoute_inv {s : State} (h : Inv s) (entry : RouteEntry) : Inv (addRoute s entry) := by
  unfold addRoute
  split
  · exact h.of_ready _ (fun _ => rfl)
  · exact h.of_ready _ (fun _ => rfl)

/-! ## Changes to one knote -/

theorem InvBut.weaken {s : State} (h : Inv s) (off : Key → Prop) : InvBut off s :=
  ⟨h.listed, h.named, fun key knote _ => h.queued key knote (by simp)⟩

/-- A knote stored over one with as many listings, or added where none was listed. -/
theorem InvBut.insert {s : State} {key : Key} (h : InvBut (· = key) s) {knote : Knote}
    (hk : s.ready.count (.knote key) = knote.listings) :
    InvBut (· = key) { s with knotes := s.knotes.insert key knote } where
  listed k kn hkn := by
    rw [getElem?_insert_key] at hkn
    split at hkn
    · next heq => subst heq; cases hkn; exact hk
    · exact h.listed k kn hkn
  named k hm := by
    rw [getElem?_insert_key]
    split
    · exact ⟨knote, rfl⟩
    · exact h.named k hm
  queued k kn hoff hkn := by
    rw [getElem?_insert_key, if_neg (fun heq => hoff heq.symm)] at hkn
    exact h.queued k kn hoff hkn

/-- A knote stored together with the list it is on, queued if it reports: the one
knote that may have been out of step is in step again. -/
theorem InvBut.store {s : State} {key : Key} (h : InvBut (· = key) s) (knote : Knote)
    {ready : List Ready} (hkey : ready.count (.knote key) = knote.listings)
    (hrest : ∀ k, k ≠ key → ready.count (.knote k) = s.ready.count (.knote k))
    (hq : knote.reports → knote.queued = true) :
    Inv { s with knotes := s.knotes.insert key knote, ready } where
  listed k kn hkn := by
    rw [getElem?_insert_key] at hkn
    split at hkn
    · next heq => subst heq; cases hkn; exact hkey
    · next hne =>
      rw [hrest k (fun heq => hne heq.symm)]
      exact h.listed k kn hkn
  named k hm := by
    rw [getElem?_insert_key]
    split
    · exact ⟨knote, rfl⟩
    · next hne =>
      rw [← List.count_pos_iff, hrest k (fun heq => hne heq.symm), List.count_pos_iff] at hm
      exact h.named k hm
  queued k kn _ hkn hr := by
    rw [getElem?_insert_key] at hkn
    split at hkn
    · cases hkn
      exact hq hr
    · next hne => exact h.queued k kn (fun heq => hne heq.symm) hkn hr

theorem count_knote_append_of_ne {key k : Key} (hne : k ≠ key) (ready : List Ready) :
    (ready ++ [Ready.knote key]).count (.knote k) = ready.count (.knote k) := by
  have hne' : ¬ (key = k) := fun heq => hne heq.symm
  simp [List.count_append, hne']

theorem enqueueIfReady_inv {s : State} {key : Key} (h : InvBut (· = key) s) :
    Inv (enqueueIfReady s key) := by
  unfold enqueueIfReady
  cases hk : s.knotes[key]? with
  | none =>
      refine ⟨h.listed, h.named, fun k kn _ hkn hr => ?_⟩
      refine h.queued k kn ?_ hkn hr
      rintro rfl
      rw [hk] at hkn
      cases hkn
  | some knote =>
      dsimp only
      split
      · next hready =>
        simp only [Bool.and_eq_true, Bool.not_eq_true'] at hready
        have hcount := h.listed key knote hk
        rw [Knote.listings, hready.2] at hcount
        refine h.store _ ?_ (fun k hne => count_knote_append_of_ne hne s.ready) (fun _ => rfl)
        simp [List.count_append, hcount, Knote.listings]
      · next hready =>
        refine ⟨h.listed, h.named, fun k kn _ hkn hr => ?_⟩
        by_cases heq : k = key
        · subst heq
          rw [hk] at hkn
          cases hkn
          simpa [hr.1, hr.2] using hready
        · exact h.queued k kn heq hkn hr

theorem erase_inv {s : State} (h : Inv s) (key : Key) {ready : List Ready}
    (hgone : ready.count (.knote key) = 0)
    (hrest : ∀ k, k ≠ key → ready.count (.knote k) = s.ready.count (.knote k)) :
    Inv { s with knotes := s.knotes.erase key, ready } where
  listed k kn hkn := by
    rw [getElem?_erase_key] at hkn
    split at hkn
    · cases hkn
    · next hne =>
      rw [hrest k (fun heq => hne heq.symm)]
      exact h.listed k kn hkn
  named k hm := by
    have hne : k ≠ key := by
      rintro rfl
      exact absurd hm (List.count_eq_zero.mp hgone)
    rw [getElem?_erase_key, if_neg (fun heq => hne heq.symm)]
    rw [← List.count_pos_iff, hrest k hne, List.count_pos_iff] at hm
    exact h.named k hm
  queued k kn hoff hkn := by
    rw [getElem?_erase_key] at hkn
    split at hkn
    · cases hkn
    · exact h.queued k kn hoff hkn

@[simp] theorem touchUser_queued (knote : Knote) (change : Change) :
    (touchUser knote change).queued = knote.queued := by
  unfold touchUser
  dsimp only
  split <;> split <;> (try split) <;> (try split) <;> (try split) <;> rfl

@[simp] theorem changeKnote_queued (knote : Knote) (change : Change) :
    (changeKnote knote change).queued = knote.queued := by
  unfold changeKnote
  simp only [touchUser_queued]
  split <;> split <;> (try split) <;> (try split) <;> rfl

/-- What a change that is taken does: a knote is added, dropped with its listing, or
changed in place. -/
theorem register_cases {s s' : State} {change : Change} (hr : register s change = .ok s') :
    (s.knotes[((change.filter, change.ident) : Key)]? = none ∧
      s' = enqueueIfReady
        { s with knotes := s.knotes.insert (change.filter, change.ident) (newKnote change) }
        (change.filter, change.ident)) ∨
    (s' = { s with
      knotes := s.knotes.erase (change.filter, change.ident)
      ready := s.ready.filter (fun r => r ≠ .knote (change.filter, change.ident)) }) ∨
    (∃ knote, s.knotes[((change.filter, change.ident) : Key)]? = some knote ∧
      s' = enqueueIfReady
        { s with knotes :=
          s.knotes.insert (change.filter, change.ident) (changeKnote knote change) }
        (change.filter, change.ident)) := by
  unfold register at hr
  dsimp only at hr
  split at hr; · cases hr
  split at hr; · cases hr
  split at hr; · cases hr
  split at hr
  · next hk =>
    split at hr
    · cases hr
    · cases hr
      exact .inl ⟨hk, rfl⟩
  · next knote hk =>
    split at hr
    · cases hr
      exact .inr (.inl rfl)
    · cases hr
      exact .inr (.inr ⟨knote, hk, rfl⟩)

theorem register_inv {s s' : State} {change : Change} (h : Inv s)
    (hr : register s change = .ok s') : Inv s' := by
  obtain ⟨hk, rfl⟩ | rfl | ⟨knote, hk, rfl⟩ := register_cases hr
  · have habsent : Ready.knote (change.filter, change.ident) ∉ s.ready := by
      intro hm
      obtain ⟨kn, hkn⟩ := h.named _ hm
      rw [hk] at hkn
      cases hkn
    have hcount := List.count_eq_zero.mpr habsent
    exact enqueueIfReady_inv ((h.weaken _).insert (by simpa [Knote.listings, newKnote] using hcount))
  · have hgone : (s.ready.filter (fun r => r ≠ .knote (change.filter, change.ident))).count
        (.knote (change.filter, change.ident)) = 0 := by
      simp [List.count_eq_zero]
    refine erase_inv h _ hgone (fun k hne => ?_)
    rw [List.count_filter]
    simpa using hne
  · have hcount := h.listed _ knote hk
    exact enqueueIfReady_inv ((h.weaken _).insert (by simpa [Knote.listings] using hcount))

/-! ## Scans -/

/-- A knote that reports still after its delivery carries neither `EV_CLEAR` nor
`EV_DISPATCH`. -/
theorem clear_or_dispatch {flags : UInt16} (h : flags &&& (evClear ||| evDispatch) ≠ 0) :
    flags &&& evClear ≠ 0 ∨ flags &&& evDispatch ≠ 0 := by
  by_contra hn
  simp only [ne_eq, not_or, not_not] at hn
  apply h
  apply UInt16.toBitVec_inj.mp
  have hc := congrArg UInt16.toBitVec hn.1
  have hd := congrArg UInt16.toBitVec hn.2
  simp only [UInt16.toBitVec_and, UInt16.toBitVec_or, BitVec.and_or_distrib_left] at hc hd ⊢
  rw [hc, hd]
  rfl

/-- Popping an entry of the ready list and visiting it keeps the invariant: what
the pop takes off the list, the visit takes off the flag. -/
theorem visitReady_inv {s : State} {ready : Ready} {rest : List Ready} (h : Inv s)
    (hs : s.ready = ready :: rest) : Inv (visitReady { s with ready := rest } ready).1 := by
  cases ready with
  | posted route event =>
      refine h.of_ready s.routes (fun key => ?_)
      simp [hs]
  | knote key =>
      obtain ⟨knote, hk⟩ := h.named key (by simp [hs])
      have hcount := h.listed key knote hk
      rw [hs, List.count_cons_self] at hcount
      -- A listed knote is queued, so it stood on the list exactly here.
      have hgone : rest.count (.knote key) = 0 := by
        unfold Knote.listings at hcount
        split at hcount <;> omega
      have hrest : ∀ k, k ≠ key → rest.count (.knote k) = s.ready.count (.knote k) := by
        intro k hne
        have hne' : ¬ (key = k) := fun heq => hne heq.symm
        simp [hs, hne']
      have hkeep : ∀ kn : Knote, kn.queued = false → ¬ kn.reports →
          Inv { s with ready := rest, knotes := s.knotes.insert key kn } := fun kn hkq hkr =>
        (h.weaken _).store kn (by simp [hgone, Knote.listings, hkq]) hrest
          (fun hr => absurd hr hkr)
      simp only [visitReady, hk]
      split
      · next hd => exact hkeep _ rfl (by simp [Knote.reports, hd])
      · split
        · exact erase_inv h key hgone hrest
        · split
          · next hf => exact hkeep _ rfl (fun hr => by simp [show knote.fired = true from hr.1] at hf)
          · split
            · next hboth =>
              refine hkeep _ ?_ ?_
              · split <;> split <;> rfl
              · rcases clear_or_dispatch hboth with hc | hd
                · simp only [if_pos hc]
                  split <;> simp [Knote.reports]
                · simp [Knote.reports, if_pos hd]
            · -- Level-triggered: back on the list, queued again.
              refine (h.weaken _).store _ ?_ (fun k hne => ?_) (fun _ => rfl)
              · simp [List.count_append, hgone, Knote.listings]
              · rw [count_knote_append_of_ne hne, hrest k hne]

theorem scanLoop_inv (wanted visit : Nat) {s : State} (h : Inv s) (out : List Delivery) :
    Inv (scanLoop wanted visit s out).1 := by
  induction visit generalizing s out with
  | zero => exact h
  | succ visit ih =>
      simp only [scanLoop]
      split
      · split
        · exact h
        · next ready rest hs =>
          have hv := visitReady_inv h hs
          split
          · next heq => rw [heq] at hv; exact ih hv _
          · next heq => rw [heq] at hv; exact ih hv _
      · exact h

/-! ## Runs -/

theorem step_inv {s : State} (h : Inv s) (op : Op) : Inv (step s op).1 := by
  cases op with
  | apply change =>
      simp only [step]
      split
      · next hr => exact register_inv h hr
      · exact h
  | postEvent ident event =>
      simp only [step, postEvent]
      split
      · exact post_inv h _ event
      · exact h
  | postFilteredEvent filter event => exact postFilteredEvent_inv h filter event
  | postEventEverywhere event => exact push_posted_inv h _ _
  | postAnswer entry event =>
      simp only [step, postAnswer]
      split
      · exact post_inv h entry event
      · exact h
  | addRoute entry => exact addRoute_inv h entry
  | removeRoute route => exact removeRoute_inv h route
  | scan wanted => exact scanLoop_inv wanted _ h []
  | deleteEqueue => exact inv_empty

theorem run_inv (ops : List Op) : Inv (equeue.after State.empty ops) :=
  Machine.after_inv (m := equeue) (I := Inv) (fun _ op h => step_inv h op) inv_empty ops

/-- After any run of a queue: a knote stands on the ready list once when its
`queued` flag is set and not at all otherwise, the list names registered knotes
only, and a knote that fired and is not disabled is queued. -/
theorem ready_list_agrees (ops : List Op) :
    let s := equeue.after State.empty ops
    (∀ (key : Key) (knote : Knote), s.knotes[key]? = some knote →
      s.ready.count (.knote key) = if knote.queued then 1 else 0) ∧
    (∀ key : Key, .knote key ∈ s.ready → ∃ knote, s.knotes[key]? = some knote) ∧
    (∀ (key : Key) (knote : Knote), s.knotes[key]? = some knote →
      knote.fired = true → knote.disabled = false → knote.queued = true) := by
  have h := run_inv ops
  exact ⟨h.listed, h.named, fun key knote hk hf hd => h.queued key knote (by simp) hk ⟨hf, hd⟩⟩

end Orbistoun.Kernel.Equeue
