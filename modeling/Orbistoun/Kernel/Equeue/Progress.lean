import Orbistoun.Kernel.Equeue.Delivery

/-! # Every waiting entry is reached

A watched entry has a front part of the ready list up to it. No operation puts
anything into that part, and every scan that asks for an event takes its first
entry off, so as many such scans as it has entries deliver what was watched.
-/

namespace Orbistoun.Kernel.Equeue

open Orbistoun.Lib
open Orbistoun.Lib.Fifo (within)

variable {β : Type}

/-! ## Operations that scan nothing -/

/-- Any front part of the list stays a front part no longer than it was, with the
same watched entries in it. -/
def KeepsFront (pick : Ready → Option β) (ready ready' : List Ready) : Prop :=
  ∀ front back, ready = front ++ back → ∃ front' back', ready' = front' ++ back' ∧
    front'.length ≤ front.length ∧ front'.filterMap pick = front.filterMap pick

theorem keepsFront_refl (pick : Ready → Option β) (ready : List Ready) :
    KeepsFront pick ready ready := by
  intro front back h
  exact ⟨front, back, h, Nat.le_refl _, rfl⟩

theorem KeepsFront.trans {pick : Ready → Option β} {a b c : List Ready}
    (hab : KeepsFront pick a b) (hbc : KeepsFront pick b c) : KeepsFront pick a c := by
  intro front back h
  obtain ⟨f, k, hb, hlen, hpick⟩ := hab front back h
  obtain ⟨f', k', hc, hlen', hpick'⟩ := hbc f k hb
  exact ⟨f', k', hc, hlen'.trans hlen, hpick'.trans hpick⟩

theorem keepsFront_append (pick : Ready → Option β) (ready new : List Ready) :
    KeepsFront pick ready (ready ++ new) := by
  intro front back h
  exact ⟨front, back ++ new, by rw [h, List.append_assoc], Nat.le_refl _, rfl⟩

theorem keepsFront_filter {pick : Ready → Option β} {ready : List Ready} {p : Ready → Bool}
    (hp : ∀ r, p r = false → pick r = none) : KeepsFront pick ready (ready.filter p) := by
  intro front back h
  refine ⟨front.filter p, back.filter p, by rw [h, List.filter_append],
    List.length_filter_le p front, ?_⟩
  rw [List.filterMap_filter]
  refine List.filterMap_congr (fun r _ => ?_)
  cases hr : p r with
  | true => simp
  | false => simp [hp r hr]

theorem keepsFront_replacePosted {pick : Ready → Option β} {route : Route}
    (hpick : ∀ event, pick (.posted route event) = none) {event : PendingEvent}
    {ready ready' : List Ready} (h : replacePosted route event ready = some ready') :
    KeepsFront pick ready ready' := by
  intro front back hs
  induction front generalizing ready ready' with
  | nil => exact ⟨[], ready', rfl, Nat.le_refl _, rfl⟩
  | cons r front ih =>
      subst hs
      cases r with
      | posted r held =>
          simp only [List.cons_append, replacePosted] at h
          split at h
          · next hr =>
            cases h
            refine ⟨.posted r event :: front, back, rfl, Nat.le_refl _, ?_⟩
            subst hr
            simp [hpick]
          · obtain ⟨tail, ht, rfl⟩ := Option.map_eq_some_iff.mp h
            obtain ⟨f, k, hk, hlen, hf⟩ := ih ht rfl
            refine ⟨.posted r held :: f, k, by rw [hk, List.cons_append], by simpa using hlen, ?_⟩
            rw [List.filterMap_cons, List.filterMap_cons, hf]
      | knote key =>
          obtain ⟨tail, ht, rfl⟩ := Option.map_eq_some_iff.mp h
          obtain ⟨f, k, hk, hlen, hf⟩ := ih ht rfl
          refine ⟨.knote key :: f, k, by rw [hk, List.cons_append], by simpa using hlen, ?_⟩
          rw [List.filterMap_cons, List.filterMap_cons, hf]

/-- A reading of the ready list that sees posts to routes of `K` and knotes only. -/
def Sees (K : Route → Bool) (pick : Ready → Option β) : Prop :=
  ∀ route event, K route = false → pick (.posted route event) = none

theorem post_keepsFront {K : Route → Bool} {pick : Ready → Option β} (hsees : Sees K pick)
    (s : State) {entry : RouteEntry} (event : PendingEvent)
    (hK : K entry.route = true → entry.coalesce = false) :
    KeepsFront pick s.ready (post s entry event).ready := by
  unfold post
  dsimp only
  split
  · next hc =>
    have hroute : K entry.route = false := by
      by_contra hn
      simp [hK (by simpa using hn)] at hc
    split
    · next hr => exact keepsFront_replacePosted (fun e => hsees _ e hroute) hr
    · exact keepsFront_append pick _ _
  · exact keepsFront_append pick _ _

theorem foldl_post_keepsFront {K : Route → Bool} {pick : Ready → Option β} (hsees : Sees K pick)
    (event : UInt64 → PendingEvent) (entries : List RouteEntry) (s : State)
    (hK : ∀ entry ∈ entries, K entry.route = true → entry.coalesce = false) :
    KeepsFront pick s.ready
      (entries.foldl (fun s entry => post s entry (event entry.route.id)) s).ready := by
  induction entries generalizing s with
  | nil => exact keepsFront_refl pick _
  | cons entry rest ih =>
      have hpost := post_keepsFront hsees s (event entry.route.id) (hK entry (by simp))
      exact hpost.trans (ih _ (fun e he => hK e (List.mem_cons_of_mem _ he)))

theorem enqueueIfReady_keepsFront (pick : Ready → Option β) (s : State)
    (knotes : Std.TreeMap Key Knote) (key : Key) :
    KeepsFront pick s.ready (enqueueIfReady { s with knotes } key).ready := by
  unfold enqueueIfReady
  split
  · exact keepsFront_refl pick _
  · split
    · exact keepsFront_append pick _ _
    · exact keepsFront_refl pick _

/-- A change takes a watched knote off the list only by dropping it. -/
theorem register_keepsFront {pick : Ready → Option β} {s s' : State} {change : Change}
    (hr : register s change = .ok s')
    (hknote : ∀ key : Key, s'.knotes[key]? = none → pick (.knote key) = none) :
    KeepsFront pick s.ready s'.ready := by
  obtain ⟨-, rfl⟩ | rfl | ⟨knote, -, rfl⟩ := register_cases hr
  · exact enqueueIfReady_keepsFront pick s _ _
  · have hgone := hknote (change.filter, change.ident) (by simp)
    refine keepsFront_filter (fun r hrp => ?_)
    have hreq : r = .knote (change.filter, change.ident) := by simpa using hrp
    rw [hreq, hgone]
  · exact enqueueIfReady_keepsFront pick s _ _

theorem step_keepsFront {K : Route → Bool} {pick : Ready → Option β} (hsees : Sees K pick)
    {s : State} {op : Op} (hplain : ∀ o ∈ lineOps s op, Fifo.Plain K o)
    (hknote : ∀ key : Key, (step s op).1.knotes[key]? = none → pick (.knote key) = none)
    (hscan : ∀ wanted, op ≠ .scan wanted) :
    KeepsFront pick s.ready (step s op).1.ready := by
  cases op with
  | apply change =>
      cases hr : register s change with
      | ok s' =>
          simp only [step, hr] at hknote ⊢
          exact register_keepsFront hr hknote
      | error e =>
          simp only [step, hr]
          exact keepsFront_refl pick _
  | postEvent ident event =>
      simp only [step, postEvent]
      simp only [lineOps] at hplain
      split
      · next entry he =>
        rw [he] at hplain
        exact post_keepsFront hsees s event (hplain (joins entry event) (by simp))
      · exact keepsFront_refl pick _
  | postFilteredEvent filter event =>
      refine foldl_post_keepsFront hsees event _ s (fun entry he => ?_)
      exact hplain (joins entry (event entry.route.id)) (List.mem_map_of_mem he)
  | postEventEverywhere event => exact keepsFront_append pick _ _
  | postAnswer entry event =>
      simp only [step, postAnswer]
      simp only [lineOps] at hplain
      split
      · next ha =>
        rw [if_pos ha] at hplain
        exact post_keepsFront hsees s event (hplain (joins entry event) (by simp))
      · exact keepsFront_refl pick _
  | addRoute entry =>
      simp only [step, addRoute]
      split <;> exact keepsFront_refl pick _
  | removeRoute route =>
      have hroute : K route = false := hplain (.drop route) (by simp [lineOps])
      refine keepsFront_filter (fun r hr => ?_)
      cases r with
      | posted r event =>
          have hreq : r = route := by simpa [Ready.isPostedTo] using hr
          rw [hreq, hsees route event hroute]
      | knote key => simp [Ready.isPostedTo] at hr
  | scan wanted => exact absurd rfl (hscan wanted)
  | deleteEqueue => exact (hplain .clear (by simp [lineOps])).elim

/-! ## Scans -/

def asks : Op → Bool
  | .scan wanted => 0 < wanted
  | _ => false

/-- What is left of `goal` after the deliveries `w` stands among the first `n`
entries of the list. -/
def Ahead (pick : Ready → Option β) (got : Delivery → Option β) (goal : List β) (n : Nat)
    (s : State) (w : List Delivery) : Prop :=
  ∃ front back, s.ready = front ++ back ∧ front.length ≤ n ∧
    goal <+: w.filterMap got ++ front.filterMap pick

section Watched

variable {pick : Ready → Option β} {got : Delivery → Option β} {goal : List β}

/-- A scan that puts out the watched entries it pops brings the rest nearer. -/
theorem ahead_scan {n : Nat} {s : State} {w : List Delivery} {wanted : Nat}
    (h : Ahead pick got goal n s w)
    (hgot : ∀ popped out t, Visits s popped out t → out.filterMap got = popped.filterMap pick) :
    Ahead pick got goal (if asks (.scan wanted) then n - 1 else n) (scanLog s wanted).1
      (w ++ (scanLog s wanted).2) := by
  obtain ⟨front, back, hs, hlen, hgoal⟩ := h
  obtain ⟨popped, rest, requeued, hv, hpop, ht, -, -, hprog⟩ := scanLog_spec s wanted
  have hout := hgot _ _ _ hv
  have heq : front ++ back = popped ++ rest := by rw [← hs, hpop]
  rcases List.append_eq_append_iff.mp heq with ⟨more, hmore, -⟩ | ⟨left, hleft, hrest⟩
  · -- The scan went past the whole front.
    refine ⟨[], (scanLog s wanted).1.ready, rfl, Nat.zero_le _, ?_⟩
    rw [List.filterMap_append, hout, hmore, List.filterMap_append, ← List.append_assoc]
    simpa using hgoal.trans (List.prefix_append _ _)
  · refine ⟨left, back ++ requeued, by rw [ht, hrest, List.append_assoc], ?_, ?_⟩
    · have hlens : front.length = popped.length + left.length := by
        rw [hleft, List.length_append]
      split
      · next ha =>
        have hw : 0 < wanted := by simpa [asks] using ha
        by_cases hne : s.ready = []
        · have hfront : front = [] := (List.append_eq_nil_iff.mp (hs ▸ hne)).1
          simp only [hfront, List.length_nil] at hlens
          omega
        · have hpos := List.length_pos_iff.mpr (hprog hw hne)
          omega
      · omega
    · rw [List.filterMap_append, hout, List.append_assoc, ← List.filterMap_append, ← hleft]
      exact hgoal

theorem ahead_keepsFront {n : Nat} {s s' : State} {w : List Delivery}
    (h : Ahead pick got goal n s w) (hk : KeepsFront pick s.ready s'.ready) :
    Ahead pick got goal n s' w := by
  obtain ⟨front, back, hs, hlen, hgoal⟩ := h
  obtain ⟨front', back', hs', hlen', hpick⟩ := hk front back hs
  exact ⟨front', back', hs', hlen'.trans hlen, by rwa [hpick]⟩

/-- One step of any kind: nothing is put before what is watched, and a scan that
asks takes an entry off from before it. -/
theorem ahead_step {K : Route → Bool} (hsees : Sees K pick) {n : Nat} {s : State}
    {w : List Delivery} {op : Op} (h : Ahead pick got goal n s w)
    (hplain : ∀ o ∈ lineOps s op, Fifo.Plain K o)
    (hknote : ∀ key : Key, (step s op).1.knotes[key]? = none → pick (.knote key) = none)
    (hgot : ∀ popped out t, Visits s popped out t → out.filterMap got = popped.filterMap pick) :
    Ahead pick got goal (if asks op then n - 1 else n) (step s op).1 (w ++ (step s op).2) := by
  by_cases hscan : ∃ wanted, op = .scan wanted
  · obtain ⟨wanted, rfl⟩ := hscan
    exact ahead_scan h hgot
  · have hns : ∀ wanted, op ≠ .scan wanted := fun wanted heq => hscan ⟨wanted, heq⟩
    have hquiet : (step s op).2 = [] ∧ asks op = false := by
      cases op with
      | scan wanted => exact absurd rfl (hns wanted)
      | apply change =>
          cases hr : register s change <;> simp [step, hr, asks]
      | _ => exact ⟨rfl, rfl⟩
    rw [hquiet.1, hquiet.2, List.append_nil]
    exact ahead_keepsFront h (step_keepsFront hsees hplain hknote hns)

theorem ahead_zero {s : State} {w : List Delivery} (h : Ahead pick got goal 0 s w) :
    goal <+: w.filterMap got := by
  obtain ⟨front, back, -, hlen, hgoal⟩ := h
  have hnil : front = [] := List.length_eq_zero_iff.mp (by omega)
  simpa [hnil] using hgoal

end Watched

/-! ## Posted events -/

theorem plainRoutes_empty (K : Route → Bool) : PlainRoutes K State.empty := by
  simp [PlainRoutes, State.empty]

theorem run_plainRoutes {K : Route → Bool} {s : State} {ops : List Op} (h : PlainRoutes K s)
    (hK : ∀ op ∈ ops, Keeps K op) : PlainRoutes K (equeue.after s ops) := by
  induction ops generalizing s with
  | nil => exact h
  | cons op ops ih =>
      exact ih (step_plainRoutes h (hK op (List.mem_cons_self ..)))
        (fun o ho => hK o (List.mem_cons_of_mem _ ho))

theorem meets_keeps {K : Route → Bool} {ops : List Op} (hK : ∀ op ∈ ops, Keeps K op) (s : State) :
    equeue.Meets (fun _ op => Keeps K op) s ops := by
  induction ops generalizing s with
  | nil => trivial
  | cons op ops ih =>
      exact ⟨hK op (List.mem_cons_self ..), ih (fun o ho => hK o (List.mem_cons_of_mem _ ho)) _⟩

def pickPosted (K : Route → Bool) (r : Ready) : Option (Route × PendingEvent) :=
  (posting r).filter (fun x => K x.1)

def gotPosted (K : Route → Bool) (d : Delivery) : Option (Route × PendingEvent) :=
  (collected d).filter (fun x => K x.1)

theorem sees_pickPosted (K : Route → Bool) : Sees K (pickPosted K) := by
  intro route event hroute
  simp [pickPosted, posting, Option.filter, hroute]

theorem visits_gotPosted (K : Route → Bool) {s t : State} {popped : List Ready}
    {out : List Delivery} (hv : Visits s popped out t) :
    out.filterMap (gotPosted K) = popped.filterMap (pickPosted K) := by
  have hall := hv.filterMap_eq (G := fun _ => True) (fun _ _ _ => trivial)
    (fun s ready _ => delivery_collected s ready) (fun _ _ _ => trivial) trivial
  have hfilter := congrArg (List.filter (fun x => K x.1)) hall
  rwa [List.filter_filterMap, List.filter_filterMap] at hfilter

theorem waiting_delivered {K : Route → Bool} {s : State} {later : List Op} (h : PlainRoutes K s)
    (hK : ∀ op ∈ later, Keeps K op) (hn : s.ready.length ≤ later.countP asks) :
    within K (waiting s) <+: within K ((equeue.log s later).filterMap collected) := by
  have hstart : Ahead (pickPosted K) (gotPosted K) (within K (waiting s)) s.ready.length s [] := by
    refine ⟨s.ready, [], by simp, Nat.le_refl _, ?_⟩
    rw [within, waiting, List.filter_filterMap]
    exact List.prefix_refl _
  generalize within K (waiting s) = goal at hstart ⊢
  have hend := Machine.countdown_rule (m := equeue)
    (P := fun n s w => PlainRoutes K s ∧ Ahead (pickPosted K) (gotPosted K) goal n s w) asks
    (fun n s w op hp hop => ⟨step_plainRoutes hp.1 hop,
      ahead_step (sees_pickPosted K) hp.2 (lineOps_plain hp.1 hop) (fun _ _ => rfl)
        (fun _ _ _ hv => visits_gotPosted K hv)⟩)
    ⟨h, hstart⟩ (meets_keeps hK s)
  rw [Nat.sub_eq_zero_of_le hn, List.nil_append] at hend
  have hprefix := ahead_zero hend.2
  rwa [within, List.filter_filterMap]

/-! ## Level-triggered knotes -/

def pickKnote (key : Key) (r : Ready) : Option Unit := if r = .knote key then some () else none

def gotKnote (key : Key) (d : Delivery) : Option Unit := pickKnote key d.1

theorem delivery_gotKnote {s : State} {key : Key} (h : LevelReady s key) (ready : Ready) :
    (delivery ready (visitReady s ready).2).filterMap (gotKnote key) =
      [ready].filterMap (pickKnote key) := by
  by_cases hr : ready = .knote key
  · subst hr
    obtain ⟨event, hev⟩ := Option.isSome_iff_exists.mp (visitReady_level h).2
    simp [hev, delivery, gotKnote, pickKnote]
  · cases (visitReady s ready).2 <;> simp [delivery, gotKnote, pickKnote, hr]

/-- A step that leaves the knote level-triggered, fired and enabled is one for which
no route need be watched. -/
theorem ahead_step_knote {key : Key} {goal : List Unit} {n : Nat} {s : State} {w : List Delivery}
    {op : Op} (hs : LevelReady s key) (hop : LevelReady (step s op).1 key)
    (h : Ahead (pickKnote key) (gotKnote key) goal n s w) :
    Ahead (pickKnote key) (gotKnote key) goal (if asks op then n - 1 else n) (step s op).1
      (w ++ (step s op).2) := by
  have hkeeps : Keeps (fun _ => false) op := by
    cases op with
    | deleteEqueue =>
        obtain ⟨knote, hk, -⟩ := hop
        simp [step, State.empty] at hk
    | _ => simp [Keeps]
  refine ahead_step (K := fun _ => false) (fun _ _ _ => rfl) h
    (lineOps_plain (by simp [PlainRoutes]) hkeeps) ?_ ?_
  · intro k hk
    have hne : k ≠ key := by
      rintro rfl
      obtain ⟨knote, hkn, -⟩ := hop
      rw [hk] at hkn
      cases hkn
    simp only [pickKnote, Ready.knote.injEq, hne, if_false]
  · intro popped out t hv
    exact hv.filterMap_eq (G := fun s => LevelReady s key)
      (fun s ready h => visitReady_levelReady h ready)
      (fun s ready h => delivery_gotKnote h ready) (fun s rest h => h) hs

/-- A level-triggered knote that stays fired and enabled is delivered once as many
scans asked for an event as the ready list had entries. -/
theorem level_delivered {s : State} {key : Key} {later : List Op} (hinv : Inv s)
    (hlevel : equeue.Throughout (fun s => LevelReady s key) s later)
    (hn : s.ready.length ≤ later.countP asks) :
    ∃ event, (.knote key, event) ∈ equeue.log s later := by
  obtain ⟨knote, hk, -, hreports⟩ := hlevel.1
  have hcount := hinv.listed key knote hk
  rw [Knote.listings, hinv.queued key knote (by simp) hk hreports] at hcount
  have hmem : Ready.knote key ∈ s.ready := List.count_pos_iff.mp (by rw [hcount]; simp)
  have hstart : Ahead (pickKnote key) (gotKnote key) [()] s.ready.length s [] := by
    refine ⟨s.ready, [], by simp, Nat.le_refl _, ?_⟩
    have hpick : () ∈ s.ready.filterMap (pickKnote key) :=
      List.mem_filterMap.mpr ⟨_, hmem, by simp [pickKnote]⟩
    obtain ⟨_, rest, hl⟩ := List.exists_cons_of_ne_nil (List.ne_nil_of_mem hpick)
    simp [hl]
  have hend := Machine.countdown_rule (m := equeue)
    (g := fun s op => LevelReady (equeue.step s op).1 key)
    (P := fun n s w => LevelReady s key ∧ Ahead (pickKnote key) (gotKnote key) [()] n s w) asks
    (fun n s w op hp hop => ⟨hop, ahead_step_knote hp.1 hop hp.2⟩)
    ⟨hlevel.1, hstart⟩ hlevel.2
  rw [Nat.sub_eq_zero_of_le hn, List.nil_append] at hend
  obtain ⟨rest, hrest⟩ := ahead_zero hend.2
  have hgot : () ∈ (equeue.log s later).filterMap (gotKnote key) := by
    rw [← hrest]
    simp
  obtain ⟨⟨r, event⟩, hd, hr⟩ := List.mem_filterMap.mp hgot
  have hreq : r = .knote key := by
    by_contra hne
    simp [gotKnote, pickKnote, hne] at hr
  exact ⟨event, hreq ▸ hd⟩

/-! ## Whole runs -/

/-- The posted events a run of a new queue delivered, in order. -/
def completions (ops : List Op) : List (Route × PendingEvent) :=
  (equeue.log State.empty ops).filterMap collected

def posts (ops : List Op) : List (Route × PendingEvent) :=
  Fifo.posted (equeue.translate lineOps State.empty ops)

/-- A scan delivers at most one event for a knote: the list holds it at most once. -/
theorem scanLog_count_knote {s : State} (h : Inv s) (wanted : Nat) (key : Key) :
    ((scanLog s wanted).2.map Prod.fst).count (.knote key) ≤ 1 := by
  obtain ⟨popped, rest, back, hv, hs, -⟩ := scanLog_spec s wanted
  have hsub : ((scanLog s wanted).2.map Prod.fst).Sublist s.ready := by
    rw [hs]
    exact hv.entries_sublist.trans (List.sublist_append_left popped rest)
  have hle := hsub.count_le (Ready.knote key)
  cases hk : s.knotes[key]? with
  | none =>
      have habsent : Ready.knote key ∉ s.ready := by
        intro hm
        obtain ⟨knote, hkn⟩ := h.named key hm
        rw [hk] at hkn
        cases hkn
      have hzero := List.count_eq_zero.mpr habsent
      omega
  | some knote =>
      have hlisted := h.listed key knote hk
      unfold Knote.listings at hlisted
      split at hlisted <;> omega

theorem completions_then_waiting {K : Route → Bool} {ops : List Op}
    (hK : ∀ op ∈ ops, Keeps K op) :
    within K (completions ops) ++ within K (waiting (equeue.after State.empty ops)) =
      within K (posts ops) := by
  obtain ⟨hafter, hlog⟩ := run_line State.empty ops
  have h := Fifo.collected_then_waiting (K := K) (equeue.translate lineOps State.empty ops)
    (waiting State.empty) (translate_plain (plainRoutes_empty K) hK)
  rw [hafter, hlog] at h
  exact h

/-- Delivery over any run `ops` of a queue, and any run `later` after it, for any
set `K` of routes that are never removed and never coalesce.

Posted events leave in the order of the line, whose places are posting order except
that a coalescing post takes the place of its route's uncollected event. The events
posted to `K` are delivered exactly once and in posting order: those delivered, then
those waiting, are those posted; and those posted are all delivered once enough
scans asked. No scan returns more than it was asked for or two events of one knote,
and a level-triggered knote that stays fired and enabled is delivered again. -/
theorem completions_delivered_in_line (K : Route → Bool) (ops later : List Op)
    (hK : ∀ op ∈ ops ++ later, Keeps K op) :
    completions ops = Fifo.line.log [] (equeue.translate lineOps State.empty ops) ∧
    within K (completions ops) ++ within K (waiting (equeue.after State.empty ops)) =
      within K (posts ops) ∧
    ((equeue.after State.empty ops).ready.length ≤ later.countP asks →
      within K (posts ops) <+: within K (completions (ops ++ later))) ∧
    (∀ wanted, (scan (equeue.after State.empty ops) wanted).2.length ≤ wanted) ∧
    (∀ wanted key,
      ((scanLog (equeue.after State.empty ops) wanted).2.map Prod.fst).count (.knote key) ≤ 1) ∧
    (∀ key, equeue.Throughout (fun s => LevelReady s key) (equeue.after State.empty ops) later →
      (equeue.after State.empty ops).ready.length ≤ later.countP asks →
      ∃ event, (.knote key, event) ∈ equeue.log (equeue.after State.empty ops) later) := by
  have hops : ∀ op ∈ ops, Keeps K op := fun op ho => hK op (List.mem_append_left later ho)
  have hlater : ∀ op ∈ later, Keeps K op := fun op ho => hK op (List.mem_append_right ops ho)
  have hinv := run_inv ops
  refine ⟨(run_line State.empty ops).2.symm, completions_then_waiting hops, ?_, ?_,
    scanLog_count_knote hinv, fun key => level_delivered hinv⟩
  · intro hn
    have hroutes := run_plainRoutes (plainRoutes_empty K) hops
    have hdone := waiting_delivered hroutes hlater hn
    have hsplit : within K (completions (ops ++ later)) = within K (completions ops) ++
        within K ((equeue.log (equeue.after State.empty ops) later).filterMap collected) := by
      rw [completions, Machine.log_append, List.filterMap_append, Fifo.within_append]
      rfl
    rw [← completions_then_waiting hops, hsplit, List.prefix_append_right_inj]
    exact hdone
  · intro wanted
    obtain ⟨popped, rest, back, -, -, -, -, hlen, -⟩ :=
      scanLog_spec (equeue.after State.empty ops) wanted
    simpa [scan] using hlen

/-- `plain`: a route that queues each post and has no source. -/
def plain (route : Route) (udata : UInt64) : RouteEntry := ⟨route, udata, false, none⟩

/-- An event told apart by its data, for runs on fixed inputs. -/
def eventOf (data : Int64) : PendingEvent := ⟨0, 0, 0, 0, data, 0, 0⟩

/-- A level-triggered user event beside two posts to a plain route. -/
theorem completions_delivered_two_posts :
    within (fun _ => true) (posts [.addRoute (plain (.ident 1) 0), .postEvent 1 (eventOf 1),
        .apply ⟨7, evfiltUser, evAdd, noteTrigger, 0, 0⟩, .postEvent 1 (eventOf 2)]) <+:
      within (fun _ => true) (completions ([.addRoute (plain (.ident 1) 0), .postEvent 1 (eventOf 1),
        .apply ⟨7, evfiltUser, evAdd, noteTrigger, 0, 0⟩, .postEvent 1 (eventOf 2)] ++
          [.scan 1, .scan 1, .scan 1])) :=
  (completions_delivered_in_line (fun _ => true) _ [.scan 1, .scan 1, .scan 1]
    (by simp [Keeps, plain])).2.2.1 (by decide)

/-- Posting order is not delivery order when a coalescing route is posted to twice:
the second event goes out in the first one's place, before what was posted between. -/
theorem completions_not_in_posting_order :
    ¬ (∀ ops : List Op, (completions ops).Sublist (posts ops)) := by
  intro h
  have hrun := h [.addRoute ⟨.filter (-13) 1, 0, true, none⟩, .addRoute (plain (.ident 2) 0),
    .postFilteredEvent (-13) (fun _ => eventOf 1), .postEvent 2 (eventOf 2),
    .postFilteredEvent (-13) (fun _ => eventOf 3), .scan 3]
  revert hrun
  decide

end Orbistoun.Kernel.Equeue
