import Orbistoun.Kernel.Equeue.Scan
import Orbistoun.Lib.Fifo

/-! # Completions are delivered once, in line, and nothing starves them

Seen from its routes a queue is one line of posted events: posts join it, scans
collect from its front, a removed route leaves it. The queue is simulated by that
line, so what the line guarantees the queue does too. That every waiting entry is
reached needs the knotes as well: each scan that asks for an event takes the front
entry off, and nothing is ever put before it.
-/

namespace Orbistoun.Kernel.Equeue

open Orbistoun.Lib
open Orbistoun.Lib.Fifo (within)

/-! ## The line of posted events -/

def posting : Ready → Option (Route × PendingEvent)
  | .posted route event => some (route, event)
  | .knote _ => none

def collected : Delivery → Option (Route × PendingEvent)
  | (.posted route _, event) => some (route, event)
  | (.knote _, _) => none

/-- The posted events not yet collected, front first. -/
def waiting (s : State) : List (Route × PendingEvent) := s.ready.filterMap posting

/-- The post `post` makes to the line. -/
def joins (entry : RouteEntry) (event : PendingEvent) : Fifo.Op Route PendingEvent :=
  .post entry.coalesce entry.route { event with udata := entry.udata }

def lineOps (s : State) : Op → List (Fifo.Op Route PendingEvent)
  | .apply _ => []
  | .postEvent ident event =>
      ((s.routes.find? (fun r => r.route = .ident ident)).map (joins · event)).toList
  | .postFilteredEvent filter event =>
      (filterRoutes s filter).map (fun entry => joins entry (event entry.route.id))
  | .postEventEverywhere event =>
      [.post false (everywhereEntry s event).1 { event with udata := (everywhereEntry s event).2 }]
  | .postAnswer entry event =>
      if s.routes.any (fun r => r.route = entry.route) then [joins entry event] else []
  | .addRoute _ => []
  | .removeRoute route => [.drop route]
  | .scan wanted => List.replicate ((scanLog s wanted).2.filterMap collected).length .collect
  | .deleteEqueue => [.clear]

theorem replacePosted_waiting (route : Route) (event : PendingEvent) (ready : List Ready) :
    (replacePosted route event ready).map (List.filterMap posting) =
      Fifo.replaceFirst route event (ready.filterMap posting) := by
  induction ready with
  | nil => rfl
  | cons r rest ih =>
      cases r with
      | posted r held =>
          simp only [replacePosted, posting, List.filterMap_cons, Fifo.replaceFirst, ← ih]
          split
          · rfl
          · cases replacePosted route event rest <;> rfl
      | knote key =>
          simp only [replacePosted, posting, List.filterMap_cons, ← ih]
          cases replacePosted route event rest <;> rfl

theorem waiting_push_posted (s : State) (route : Route) (event : PendingEvent) :
    waiting (push s (.posted route event)) = waiting s ++ [(route, event)] := by
  simp [waiting, push, posting]

theorem waiting_post (s : State) (entry : RouteEntry) (event : PendingEvent) :
    waiting (post s entry event) =
      Fifo.join (waiting s) entry.coalesce entry.route { event with udata := entry.udata } := by
  unfold post Fifo.join
  dsimp only
  split
  · have hr : _ = Fifo.replaceFirst entry.route _ (waiting s) :=
      replacePosted_waiting entry.route { event with udata := entry.udata } s.ready
    rw [← hr]
    cases replacePosted entry.route { event with udata := entry.udata } s.ready with
    | none => exact waiting_push_posted s _ _
    | some ready => rfl
  · exact waiting_push_posted s _ _

theorem waiting_foldl_post (entries : List RouteEntry) (event : UInt64 → PendingEvent)
    (s : State) :
    waiting (entries.foldl (fun s entry => post s entry (event entry.route.id)) s) =
      Fifo.line.after (waiting s)
        (entries.map (fun entry => joins entry (event entry.route.id))) := by
  induction entries generalizing s with
  | nil => rfl
  | cons entry rest ih =>
      rw [List.foldl_cons, ih, waiting_post]
      rfl

theorem line_log_joins (entries : List RouteEntry) (event : UInt64 → PendingEvent)
    (items : List (Route × PendingEvent)) :
    Fifo.line.log items (entries.map (fun entry => joins entry (event entry.route.id))) = [] := by
  induction entries generalizing items with
  | nil => rfl
  | cons entry rest ih => exact ih _

theorem enqueueIfReady_waiting (s : State) (key : Key) :
    waiting (enqueueIfReady s key) = waiting s := by
  unfold enqueueIfReady
  split
  · rfl
  · split
    · simp [waiting, posting]
    · rfl

theorem filterMap_posting_filter {ready : List Ready} {p : Ready → Bool}
    (h : ∀ r ∈ ready, (posting r).isSome → p r = true) :
    (ready.filter p).filterMap posting = ready.filterMap posting := by
  rw [List.filterMap_filter]
  refine List.filterMap_congr (fun r hr => ?_)
  cases r with
  | posted route event => simp [h _ hr rfl]
  | knote key => simp [posting]

/-- Registrations do not touch the line. -/
theorem register_waiting {s s' : State} {change : Change} (hr : register s change = .ok s') :
    waiting s' = waiting s := by
  obtain ⟨-, rfl⟩ | rfl | ⟨knote, -, rfl⟩ := register_cases hr
  · exact enqueueIfReady_waiting _ _
  · refine filterMap_posting_filter (fun r _ hp => ?_)
    cases r with
    | posted route event => simp
    | knote key => simp [posting] at hp
  · exact enqueueIfReady_waiting _ _

theorem removeRoute_waiting (s : State) (route : Route) :
    waiting (removeRoute s route) = (waiting s).filter (fun x => x.1 ≠ route) := by
  simp only [waiting, removeRoute, List.filterMap_filter, List.filter_filterMap]
  refine List.filterMap_congr (fun r _ => ?_)
  cases r with
  | posted r event =>
      by_cases hr : r = route <;> simp [Ready.isPostedTo, posting, hr, Option.filter]
  | knote key => simp [posting, Ready.isPostedTo]

/-! ## Scans collect from the front of the line -/

theorem delivery_collected (s : State) (ready : Ready) :
    (delivery ready (visitReady s ready).2).filterMap collected = [ready].filterMap posting := by
  cases ready with
  | posted route event => rfl
  | knote key => cases (visitReady s (.knote key)).2 <;> rfl

theorem scanLog_spec (s : State) (wanted : Nat) :
    ∃ popped rest back, Visits s popped (scanLog s wanted).2 (scanLog s wanted).1 ∧
      s.ready = popped ++ rest ∧ (scanLog s wanted).1.ready = rest ++ back ∧
      (∀ r ∈ back, ∃ key, r = .knote key) ∧ (scanLog s wanted).2.length ≤ wanted ∧
      (0 < wanted → s.ready ≠ [] → popped ≠ []) := by
  obtain ⟨popped, new, hv, hout, hlen, hmax, hpop⟩ :=
    scanLoop_visits wanted s.ready.length s []
  rw [List.nil_append] at hout
  obtain ⟨rest, back, hs, ht, hk⟩ := hv.ready_eq hlen
  refine ⟨popped, rest, back, ?_, hs, ht, hk, ?_, fun hw hne => ?_⟩
  · rw [scanLog, hout]
    exact hv
  · rw [scanLog, hout]
    exact hmax (Nat.zero_le _)
  · exact hpop hw (List.length_pos_iff.mpr hne) hne

theorem filterMap_posting_knotes {back : List Ready} (h : ∀ r ∈ back, ∃ key, r = .knote key) :
    back.filterMap posting = [] := by
  refine List.filterMap_eq_nil_iff.mpr (fun r hr => ?_)
  obtain ⟨key, rfl⟩ := h r hr
  rfl

/-- A scan collects a front part of the line and leaves the rest of it. -/
theorem scanLog_waiting (s : State) (wanted : Nat) :
    (scanLog s wanted).2.filterMap collected ++ waiting (scanLog s wanted).1 = waiting s := by
  obtain ⟨popped, rest, back, hv, hs, ht, hk, -, -⟩ := scanLog_spec s wanted
  have hout := hv.filterMap_eq (G := fun _ => True) (fun _ _ _ => trivial)
    (fun s ready _ => delivery_collected s ready) (fun _ _ _ => trivial) trivial
  rw [hout, waiting, waiting, hs, ht, List.filterMap_append, List.filterMap_append,
    filterMap_posting_knotes hk, List.append_nil]

theorem line_collect (front rest : List (Route × PendingEvent)) :
    Fifo.line.after (front ++ rest) (List.replicate front.length .collect) = rest ∧
      Fifo.line.log (front ++ rest) (List.replicate front.length .collect) = front := by
  induction front with
  | nil => exact ⟨rfl, rfl⟩
  | cons x front ih =>
      refine ⟨ih.1, ?_⟩
      show [x] ++ Fifo.line.log (front ++ rest) (List.replicate front.length .collect) = x :: front
      rw [ih.2, List.singleton_append]

/-! ## The simulation -/

theorem step_line (s : State) (op : Op) :
    Fifo.line.after (waiting s) (lineOps s op) = waiting (step s op).1 ∧
      Fifo.line.log (waiting s) (lineOps s op) = (step s op).2.filterMap collected := by
  cases op with
  | apply change =>
      cases hr : register s change with
      | ok s' => simp [lineOps, step, hr, register_waiting hr]
      | error e => simp [lineOps, step, hr]
  | postEvent ident event =>
      simp only [lineOps, step, postEvent]
      cases s.routes.find? (fun r => r.route = .ident ident) with
      | none => exact ⟨rfl, rfl⟩
      | some entry => exact ⟨(waiting_post s entry event).symm, rfl⟩
  | postFilteredEvent filter event =>
      exact ⟨(waiting_foldl_post _ event s).symm, line_log_joins _ event _⟩
  | postEventEverywhere event => exact ⟨(waiting_push_posted s _ _).symm, rfl⟩
  | postAnswer entry event =>
      simp only [lineOps, step, postAnswer]
      split
      · exact ⟨(waiting_post s entry event).symm, rfl⟩
      · exact ⟨rfl, rfl⟩
  | addRoute entry =>
      refine ⟨?_, rfl⟩
      simp only [lineOps, step, addRoute]
      split <;> rfl
  | removeRoute route => exact ⟨(removeRoute_waiting s route).symm, rfl⟩
  | scan wanted =>
      have h := line_collect ((scanLog s wanted).2.filterMap collected)
        (waiting (scanLog s wanted).1)
      rw [scanLog_waiting] at h
      exact h
  | deleteEqueue => exact ⟨rfl, rfl⟩

/-- A run of a queue is a run of its line: what is waiting is what the line holds,
and what was delivered for posts is what was collected from it. -/
theorem run_line (s : State) (ops : List Op) :
    Fifo.line.after (waiting s) (equeue.translate lineOps s ops) =
        waiting (equeue.after s ops) ∧
      Fifo.line.log (waiting s) (equeue.translate lineOps s ops) =
        (equeue.log s ops).filterMap collected :=
  Machine.simulates (m := equeue) (fun s op => (step_line s op).1)
    (fun s op => (step_line s op).2) s ops

/-! ## Routes that stay and do not coalesce -/

/-- An operation that leaves the routes of `K` alone and registers none of them as
coalescing. The entry a source answers under is a copy of a registration. -/
def Keeps (K : Route → Bool) : Op → Prop
  | .addRoute entry => K entry.route = true → entry.coalesce = false
  | .postAnswer entry _ => K entry.route = true → entry.coalesce = false
  | .removeRoute route => K route = false
  | .deleteEqueue => False
  | _ => True

/-- No registered route of `K` coalesces. -/
def PlainRoutes (K : Route → Bool) (s : State) : Prop :=
  ∀ entry ∈ s.routes, K entry.route = true → entry.coalesce = false

theorem post_routes (s : State) (entry : RouteEntry) (event : PendingEvent) :
    (post s entry event).routes = s.routes := by
  unfold post
  dsimp only
  split
  · split <;> rfl
  · rfl

theorem foldl_post_routes (entries : List RouteEntry) (event : UInt64 → PendingEvent)
    (s : State) :
    (entries.foldl (fun s entry => post s entry (event entry.route.id)) s).routes = s.routes := by
  induction entries generalizing s with
  | nil => rfl
  | cons entry rest ih => rw [List.foldl_cons, ih, post_routes]

theorem enqueueIfReady_routes (s : State) (key : Key) :
    (enqueueIfReady s key).routes = s.routes := by
  unfold enqueueIfReady
  split
  · rfl
  · split <;> rfl

theorem register_routes {s s' : State} {change : Change} (hr : register s change = .ok s') :
    s'.routes = s.routes := by
  obtain ⟨-, rfl⟩ | rfl | ⟨knote, -, rfl⟩ := register_cases hr
  · exact enqueueIfReady_routes _ _
  · rfl
  · exact enqueueIfReady_routes _ _

theorem replaceRoute_mem {entry r : RouteEntry} {routes routes' : List RouteEntry}
    (h : replaceRoute entry routes = some routes') (hr : r ∈ routes') : r = entry ∨ r ∈ routes := by
  induction routes generalizing routes' with
  | nil => simp [replaceRoute] at h
  | cons x rest ih =>
      simp only [replaceRoute] at h
      split at h
      · cases h
        rcases List.mem_cons.mp hr with rfl | hr
        · exact .inl rfl
        · exact .inr (List.mem_cons_of_mem _ hr)
      · obtain ⟨tail, ht, rfl⟩ := Option.map_eq_some_iff.mp h
        rcases List.mem_cons.mp hr with rfl | hr
        · exact .inr (List.mem_cons_self ..)
        · exact (ih ht hr).imp_right (List.mem_cons_of_mem _)

theorem addRoute_mem {s : State} {entry r : RouteEntry} (hr : r ∈ (addRoute s entry).routes) :
    r = entry ∨ r ∈ s.routes := by
  unfold addRoute at hr
  split at hr
  · next h => exact replaceRoute_mem h hr
  · simpa [or_comm] using hr

theorem step_routes (s : State) (op : Op) :
    (step s op).1.routes =
      match op with
      | .addRoute entry => (addRoute s entry).routes
      | .removeRoute route => (removeRoute s route).routes
      | .deleteEqueue => []
      | _ => s.routes := by
  cases op with
  | apply change =>
      simp only [step]
      cases hr : register s change with
      | ok s' => exact register_routes hr
      | error e => rfl
  | postEvent ident event =>
      simp only [step, postEvent]
      split
      · exact post_routes s _ _
      · rfl
  | postFilteredEvent filter event => exact foldl_post_routes _ event s
  | postEventEverywhere event => rfl
  | postAnswer entry event =>
      simp only [step, postAnswer]
      split
      · exact post_routes s _ _
      · rfl
  | addRoute entry => rfl
  | removeRoute route => rfl
  | scan wanted =>
      obtain ⟨popped, rest, back, hv, -⟩ := scanLog_spec s wanted
      exact hv.routes_eq
  | deleteEqueue => rfl

/-- A registration is there after a step only if it was before, or the step made it. -/
theorem step_routes_mem {s : State} {op : Op} {r : RouteEntry} (hr : r ∈ (step s op).1.routes) :
    r ∈ s.routes ∨ op = .addRoute r := by
  rw [step_routes] at hr
  cases op with
  | addRoute entry =>
      rcases addRoute_mem hr with rfl | hr
      · exact .inr rfl
      · exact .inl hr
  | removeRoute route => exact .inl (List.mem_of_mem_filter hr)
  | deleteEqueue => cases hr
  | _ => exact .inl hr

theorem step_plainRoutes {K : Route → Bool} {s : State} {op : Op} (h : PlainRoutes K s)
    (hop : Keeps K op) : PlainRoutes K (step s op).1 := by
  intro r hr hK
  rcases step_routes_mem hr with hr | rfl
  · exact h r hr hK
  · exact hop hK

theorem lineOps_plain {K : Route → Bool} {s : State} {op : Op} (h : PlainRoutes K s)
    (hop : Keeps K op) : ∀ o ∈ lineOps s op, Fifo.Plain K o := by
  intro o ho
  cases op with
  | apply change => simp [lineOps] at ho
  | postEvent ident event =>
      simp only [lineOps, Option.mem_toList, Option.map_eq_some_iff] at ho
      obtain ⟨entry, he, rfl⟩ := ho
      exact h entry (List.mem_of_find?_eq_some he)
  | postFilteredEvent filter event =>
      obtain ⟨entry, he, rfl⟩ := List.mem_map.mp ho
      exact h entry (List.mem_of_mem_filter he)
  | postEventEverywhere event =>
      simp only [lineOps, List.mem_singleton] at ho
      subst ho
      exact fun _ => rfl
  | postAnswer entry event =>
      simp only [lineOps] at ho
      split at ho
      · simp only [List.mem_singleton] at ho
        subst ho
        exact hop
      · simp at ho
  | addRoute entry => simp [lineOps] at ho
  | removeRoute route =>
      simp only [lineOps, List.mem_singleton] at ho
      subst ho
      exact hop
  | scan wanted =>
      obtain ⟨-, rfl⟩ := List.mem_replicate.mp ho
      trivial
  | deleteEqueue => exact hop.elim

theorem translate_plain {K : Route → Bool} {s : State} {ops : List Op} (h : PlainRoutes K s)
    (hK : ∀ op ∈ ops, Keeps K op) : ∀ o ∈ equeue.translate lineOps s ops, Fifo.Plain K o := by
  induction ops generalizing s with
  | nil => simp [Machine.translate]
  | cons op ops ih =>
      have hop := hK op (List.mem_cons_self ..)
      intro o ho
      rcases List.mem_append.mp ho with ho | ho
      · exact lineOps_plain h hop o ho
      · exact ih (step_plainRoutes h hop) (fun o ho => hK o (List.mem_cons_of_mem _ ho)) o ho

end Orbistoun.Kernel.Equeue
