import Orbistoun.Kernel.Equeue.Progress

/-! # A coalescing route and its one event

Whether a post coalesces is decided by the registration it is made under, when it
is made. A backlog posted while the route was plain therefore outlives the
registration that makes it coalesce, and a post that ignores the registrations
joins behind the event already waiting. Away from these a coalescing route holds at
most one event, the last one posted to it.
-/

namespace Orbistoun.Kernel.Equeue

open Orbistoun.Lib
open Orbistoun.Lib.Fifo (addressed Fresh Single Tidy Agrees)

/-- Whether `route` is registered as coalescing. -/
def Coalesces (s : State) (route : Route) : Prop :=
  ∃ entry ∈ s.routes, entry.route = route ∧ entry.coalesce = true

instance (s : State) (route : Route) : Decidable (Coalesces s route) :=
  inferInstanceAs (Decidable (∃ entry ∈ s.routes, entry.route = route ∧ entry.coalesce = true))

def waitingOn (s : State) (route : Route) : List (Route × PendingEvent) :=
  addressed route (waiting s)

/-- A route registered as coalescing has at most one event waiting, and that is the
last of the events `log` posted to it. -/
def HoldsLatest (s : State) (log : List (Route × PendingEvent)) : Prop :=
  ∀ route, Coalesces s route → ∀ x ∈ waitingOn s route,
    waitingOn s route = [x] ∧ (addressed route log).getLast? = some x

/-- A route becomes coalescing with at most one event waiting on it, a post that
ignores the registrations goes to no coalescing route that holds one, and a source
answers as its route is registered now: what it replaces is all that waits. -/
def Clean (s : State) : Op → Prop
  | .addRoute entry => entry.coalesce = true → (waitingOn s entry.route).length ≤ 1
  | .postEventEverywhere event =>
      Coalesces s (everywhereEntry s event).1 → waitingOn s (everywhereEntry s event).1 = []
  | .postAnswer entry _ =>
      if entry.coalesce then (waitingOn s entry.route).length ≤ 1
      else Coalesces s entry.route → waitingOn s entry.route = []
  | _ => True

instance (s : State) : ∀ op : Op, Decidable (Clean s op)
  | .addRoute entry =>
      inferInstanceAs (Decidable (entry.coalesce = true → (waitingOn s entry.route).length ≤ 1))
  | .postEventEverywhere event =>
      inferInstanceAs (Decidable (Coalesces s (everywhereEntry s event).1 →
        waitingOn s (everywhereEntry s event).1 = []))
  | .postAnswer entry _ =>
      inferInstanceAs (Decidable (if entry.coalesce then (waitingOn s entry.route).length ≤ 1
        else Coalesces s entry.route → waitingOn s entry.route = []))
  | .apply _ | .postEvent _ _ | .postFilteredEvent _ _ | .removeRoute _ | .scan _
  | .deleteEqueue => inferInstanceAs (Decidable True)

/-! ## A route is registered once -/

def RoutesDistinct (s : State) : Prop := (s.routes.map RouteEntry.route).Nodup

theorem replaceRoute_routes {entry : RouteEntry} {routes routes' : List RouteEntry}
    (h : replaceRoute entry routes = some routes') :
    routes'.map RouteEntry.route = routes.map RouteEntry.route := by
  induction routes generalizing routes' with
  | nil => simp [replaceRoute] at h
  | cons x rest ih =>
      simp only [replaceRoute] at h
      split at h
      · next hx =>
        cases h
        simp [hx]
      · obtain ⟨tail, ht, rfl⟩ := Option.map_eq_some_iff.mp h
        simp [ih ht]

theorem replaceRoute_eq_none {entry : RouteEntry} {routes : List RouteEntry}
    (h : replaceRoute entry routes = none) : entry.route ∉ routes.map RouteEntry.route := by
  induction routes with
  | nil => simp
  | cons x rest ih =>
      simp only [replaceRoute] at h
      split at h
      · cases h
      · next hx =>
        have hrest := ih (Option.map_eq_none_iff.mp h)
        rw [List.map_cons, List.mem_cons, not_or]
        exact ⟨Ne.symm hx, hrest⟩

theorem addRoute_distinct {s : State} (entry : RouteEntry) (h : RoutesDistinct s) :
    RoutesDistinct (addRoute s entry) := by
  unfold addRoute
  split
  · next routes hr =>
    show (routes.map RouteEntry.route).Nodup
    rw [replaceRoute_routes hr]
    exact h
  · next hr =>
    show ((s.routes ++ [entry]).map RouteEntry.route).Nodup
    rw [List.map_append, List.map_singleton, ← List.concat_eq_append]
    exact List.Nodup.concat (replaceRoute_eq_none hr) h

theorem step_distinct {s : State} (op : Op) (h : RoutesDistinct s) :
    RoutesDistinct (step s op).1 := by
  unfold RoutesDistinct
  rw [step_routes]
  cases op with
  | addRoute entry => exact addRoute_distinct entry h
  | removeRoute route => exact h.sublist (List.filter_sublist.map _)
  | deleteEqueue => exact List.nodup_nil
  | _ => exact h

theorem coalesces_iff {s : State} {entry : RouteEntry} (h : RoutesDistinct s)
    (he : entry ∈ s.routes) : Coalesces s entry.route ↔ entry.coalesce = true := by
  constructor
  · intro ⟨other, ho, hroute, hc⟩
    have hsame : other = entry := List.inj_on_of_nodup_map h ho he hroute
    rwa [← hsame]
  · intro hc
    exact ⟨entry, he, rfl, hc⟩

theorem step_coalesces {s : State} {op : Op} {route : Route}
    (h : Coalesces (step s op).1 route) :
    Coalesces s route ∨ ∃ entry, op = .addRoute entry ∧ entry.route = route ∧
      entry.coalesce = true := by
  obtain ⟨entry, he, hroute, hc⟩ := h
  rcases step_routes_mem he with he | hop
  · exact .inl ⟨entry, he, hroute, hc⟩
  · exact .inr ⟨entry, hop, hroute, hc⟩

/-! ## The invariant -/

/-- What a clean run keeps: a route registered once, the last event waiting on any
route the last one posted to it, and one event at most where posts coalesce. -/
structure Coalesced (s : State) (log : List (Route × PendingEvent)) : Prop where
  distinct : RoutesDistinct s
  fresh : Fresh (waiting s) log
  single : Single (Coalesces s) (waiting s)

/-- The posts of a clean step are tidy: a registered entry coalesces exactly where the
route does, and the other posts are what the step's guard is about. -/
theorem lineOps_tidy {s : State} {log : List (Route × PendingEvent)} {op : Op}
    (h : Coalesced s log) (hop : Clean s op) :
    Fifo.line.Meets (Tidy (Coalesces s)) (waiting s) (lineOps s op) := by
  have hagrees : ∀ entry ∈ s.routes, ∀ event, Agrees (Coalesces s) (joins entry event) :=
    fun entry he event => (coalesces_iff h.distinct he).symm
  cases op with
  | postEvent ident event =>
      apply Fifo.meets_tidy h.single
      intro o ho
      simp only [lineOps, Option.mem_toList, Option.map_eq_some_iff] at ho
      obtain ⟨entry, he, rfl⟩ := ho
      exact hagrees entry (List.mem_of_find?_eq_some he) event
  | postFilteredEvent filter event =>
      apply Fifo.meets_tidy h.single
      intro o ho
      obtain ⟨entry, he, rfl⟩ := List.mem_map.mp ho
      exact hagrees entry (List.mem_of_mem_filter he) _
  | postEventEverywhere event => exact ⟨hop, trivial⟩
  | postAnswer entry event =>
      simp only [lineOps]
      split
      · refine ⟨?_, trivial⟩
        simp only [Clean] at hop
        unfold joins
        cases hc : entry.coalesce with
        | true => simpa [hc, Tidy, waitingOn] using hop
        | false => simpa [hc, Tidy, waitingOn] using hop
      · trivial
  | scan wanted =>
      apply Fifo.meets_tidy h.single
      intro o ho
      obtain ⟨-, rfl⟩ := List.mem_replicate.mp ho
      trivial
  | apply change => trivial
  | addRoute entry => trivial
  | removeRoute route => exact ⟨trivial, trivial⟩
  | deleteEqueue => exact ⟨trivial, trivial⟩

theorem waiting_addRoute (s : State) (entry : RouteEntry) :
    waiting (addRoute s entry) = waiting s := by
  unfold addRoute
  split <;> rfl

theorem step_coalesced {s : State} {log : List (Route × PendingEvent)} {op : Op}
    (h : Coalesced s log) (hop : Clean s op) :
    Coalesced (step s op).1 (log ++ Fifo.posted (lineOps s op)) := by
  have htidy := lineOps_tidy h hop
  have hafter := (step_line s op).1
  have hfresh := Fifo.run_fresh h.fresh htidy
  have hsingle := Fifo.run_single h.single htidy
  rw [hafter] at hfresh hsingle
  refine ⟨step_distinct op h.distinct, hfresh, ?_⟩
  intro route hroute
  rcases step_coalesces hroute with hbefore | ⟨entry, rfl, rfl, hc⟩
  · exact hsingle route hbefore
  · -- The registration itself: its guard is about the backlog it finds.
    show (addressed entry.route (waiting (addRoute s entry))).length ≤ 1
    rw [waiting_addRoute]
    exact hop hc

theorem run_coalesced {s : State} {log : List (Route × PendingEvent)} {ops : List Op}
    (h : Coalesced s log) (hops : equeue.Meets Clean s ops) :
    Coalesced (equeue.after s ops) (log ++ Fifo.posted (equeue.translate lineOps s ops)) := by
  induction ops generalizing s log with
  | nil => simpa [Fifo.posted, Machine.translate] using h
  | cons op ops ih =>
      have hrest := ih (step_coalesced h hops.1) hops.2
      have hposted : Fifo.posted (equeue.translate lineOps s (op :: ops)) =
          Fifo.posted (lineOps s op) ++
            Fifo.posted (equeue.translate lineOps (step s op).1 ops) := List.filterMap_append
      rw [hposted, ← List.append_assoc]
      exact hrest

theorem coalesced_empty : Coalesced State.empty [] := by
  refine ⟨List.nodup_nil, ?_, ?_⟩
  · intro route x hx
    cases hx
  · intro route hroute
    exact Nat.zero_le 1

theorem Coalesced.holdsLatest {s : State} {log : List (Route × PendingEvent)}
    (h : Coalesced s log) : HoldsLatest s log := by
  intro route hroute x hx
  have hlen := h.single route hroute
  have hone : waitingOn s route = [x] := by
    obtain ⟨y, hy⟩ := List.length_eq_one_iff.mp (le_antisymm hlen (List.length_pos_of_mem hx))
    have hy' : waitingOn s route = [y] := hy
    rw [hy', List.mem_singleton] at hx
    rw [hx, hy']
  refine ⟨hone, h.fresh route x ?_⟩
  have hlast : (waitingOn s route).getLast? = some x := by simp [hone]
  exact hlast

/-- Over any clean run of a queue, in every state it reaches, a coalescing route holds
at most one event and that is the last one posted to it. -/
theorem coalescing_holds_latest (ops : List Op) (hops : equeue.Meets Clean State.empty ops) :
    ∀ pre, pre <+: ops → HoldsLatest (equeue.after State.empty pre) (posts pre) := by
  intro pre hpre
  have h := run_coalesced coalesced_empty (hops.of_prefix hpre)
  rw [List.nil_append] at h
  exact h.holdsLatest

def vblankRun : List Op :=
  [.addRoute ⟨.filter (-13) 1, 5, true, none⟩, .postFilteredEvent (-13) (fun _ => eventOf 1),
    .postFilteredEvent (-13) (fun _ => eventOf 2), .scan 1,
    .postFilteredEvent (-13) (fun _ => eventOf 3)]

theorem coalescing_holds_latest_vblank :
    HoldsLatest (equeue.after State.empty vblankRun) (posts vblankRun) :=
  coalescing_holds_latest vblankRun (by decide) vblankRun List.prefix_rfl

/-- Two events posted while the route was plain are both still there once it is
registered as coalescing. -/
theorem coalescing_keeps_backlog :
    ¬ ∀ ops : List Op, HoldsLatest (equeue.after State.empty ops) (posts ops) := by
  intro h
  have hrun := h [.addRoute (plain (.filter (-13) 1) 0),
    .postFilteredEvent (-13) (fun _ => eventOf 1), .postFilteredEvent (-13) (fun _ => eventOf 2),
    .addRoute ⟨.filter (-13) 1, 0, true, none⟩] (.filter (-13) 1) (by decide)
    (.filter (-13) 1, eventOf 1) (by decide)
  revert hrun
  decide

end Orbistoun.Kernel.Equeue
