import Mathlib.Data.List.Basic
import Mathlib.Data.List.Count
import Mathlib.Data.List.Infix
import Mathlib.Tactic
import Orbistoun.Lib.Machine

/-! # Event queues

The state one `sceKernelCreateEqueue` queue keeps under its lock, and the
operations `equeue.rs` performs on it: FreeBSD's knotes keyed by filter and
identifier, subsystem routes, and the ready list both are delivered from.
Waking a blocked waiter (`arrived.notify_all`) changes no state and is left out;
a wait is the scans it makes and the answers of its sources posted between them.
-/

namespace Orbistoun.Kernel.Equeue

open Std (TreeMap)
open Orbistoun.Lib (Machine)

/-- The user-event filter, the only one kept as knotes. -/
def evfiltUser : Int16 := -11

def evAdd : UInt16 := 0x0001
def evDelete : UInt16 := 0x0002
def evEnable : UInt16 := 0x0004
def evDisable : UInt16 := 0x0008
def evOneshot : UInt16 := 0x0010
def evClear : UInt16 := 0x0020
def evDispatch : UInt16 := 0x0080
def evForceOneshot : UInt16 := 0x0100
def evKeepUdata : UInt16 := 0x0200

/-- The flags that are actions on a registration and are never stored with it. -/
def actions : UInt16 := evAdd ||| evDelete ||| evEnable ||| evDisable ||| evForceOneshot

def noteTrigger : UInt32 := 0x01000000
def noteFfAnd : UInt32 := 0x40000000
def noteFfOr : UInt32 := 0x80000000
def noteFfCopy : UInt32 := 0xc0000000
def noteFfCtrlMask : UInt32 := 0xc0000000
def noteFflagsMask : UInt32 := 0x00ffffff

/-- One event, in the fields a guest reads back and the display time it stands for. -/
structure PendingEvent where
  ident : UInt64
  filter : Int16
  flags : UInt16
  fflags : UInt32
  data : Int64
  udata : UInt64
  displayNanos : UInt64
  deriving DecidableEq, Repr

/-- One change a guest asks of a queue. -/
structure Change where
  ident : UInt64
  filter : Int16
  flags : UInt16
  fflags : UInt32
  data : Int64
  udata : UInt64
  deriving DecidableEq, Repr

/-- Why a queue refused a change or a wait. -/
inductive Refusal where
  | noQueue
  | noEvent
  | invalid
  | timedOut
  deriving DecidableEq, Repr

/-- A registered event, keyed in the queue by filter and identifier. -/
structure Knote where
  flags : UInt16
  fflags : UInt32
  data : Int64
  udata : UInt64
  fired : Bool
  disabled : Bool
  queued : Bool
  deriving DecidableEq, Repr

abbrev Key := Int16 × UInt64

instance : Ord Key := lexOrd

/-- Where a subsystem's completions go. -/
inductive Route where
  | ident (id : UInt64)
  | filter (filter : Int16) (id : UInt64)
  deriving DecidableEq, Repr

def Route.id : Route → UInt64
  | .ident id => id
  | .filter _ id => id

/-- Asked by a wait about to block for a route's next event after a time. -/
abbrev EventSource := UInt64 → UInt64 → Option PendingEvent

/-- One subsystem registration on a queue. -/
structure RouteEntry where
  route : Route
  udata : UInt64
  coalesce : Bool
  source : Option EventSource

/-- What the ready list holds, oldest first. -/
inductive Ready where
  | posted (route : Route) (event : PendingEvent)
  | knote (key : Key)
  deriving DecidableEq, Repr

structure State where
  routes : List RouteEntry
  knotes : TreeMap Key Knote
  ready : List Ready

/-- `State::default()`: a queue just created, or deleted under a waiter. -/
def State.empty : State := ⟨[], ∅, []⟩

/-! ## Posting -/

def replacePosted (route : Route) (event : PendingEvent) : List Ready → Option (List Ready)
  | [] => none
  | .posted r held :: rest =>
      if r = route then some (.posted r event :: rest)
      else (replacePosted route event rest).map (.posted r held :: ·)
  | .knote key :: rest => (replacePosted route event rest).map (.knote key :: ·)

/-- `GuestEqueue::push`. -/
def push (s : State) (ready : Ready) : State := { s with ready := s.ready ++ [ready] }

/-- `GuestEqueue::post`: in place of the route's uncollected event when the route
coalesces and has one, at the back otherwise. -/
def post (s : State) (entry : RouteEntry) (event : PendingEvent) : State :=
  let event := { event with udata := entry.udata }
  if entry.coalesce then
    match replacePosted entry.route event s.ready with
    | some ready => { s with ready }
    | none => push s (.posted entry.route event)
  else push s (.posted entry.route event)

/-- One queue's part of `post_event`. -/
def postEvent (s : State) (ident : UInt64) (event : PendingEvent) : State :=
  match s.routes.find? (fun r => r.route = .ident ident) with
  | some entry => post s entry event
  | none => s

/-- The routes `post_filtered_event` posts to, in registration order. -/
def filterRoutes (s : State) (filter : Int16) : List RouteEntry :=
  s.routes.filter fun entry =>
    match entry.route with
    | .filter f _ => f = filter
    | .ident _ => false

/-- One queue's part of `post_filtered_event`. -/
def postFilteredEvent (s : State) (filter : Int16) (event : UInt64 → PendingEvent) : State :=
  (filterRoutes s filter).foldl (fun s entry => post s entry (event entry.route.id)) s

/-- The route and word `post_event_everywhere` posts under. -/
def everywhereEntry (s : State) (event : PendingEvent) : Route × UInt64 :=
  match s.routes with
  | [] => (.ident event.ident, event.udata)
  | r :: _ => (r.route, r.udata)

/-- One queue's part of `post_event_everywhere`. -/
def postEventEverywhere (s : State) (event : PendingEvent) : State :=
  let (route, udata) := everywhereEntry s event
  push s (.posted route { event with udata })

/-- A source's answer, posted by `wait_events` once it holds the lock again: a
route removed while its source was asked takes nothing. -/
def postAnswer (s : State) (entry : RouteEntry) (event : PendingEvent) : State :=
  if s.routes.any (fun r => r.route = entry.route) then post s entry event else s

/-! ## Routes -/

/-- A route already there keeps its place and takes the new registration. -/
def replaceRoute (entry : RouteEntry) : List RouteEntry → Option (List RouteEntry)
  | [] => none
  | r :: rest =>
      if r.route = entry.route then some (entry :: rest)
      else (replaceRoute entry rest).map (r :: ·)

def addRoute (s : State) (entry : RouteEntry) : State :=
  match replaceRoute entry s.routes with
  | some routes => { s with routes }
  | none => { s with routes := s.routes ++ [entry] }

def Ready.isPostedTo (route : Route) : Ready → Bool
  | .posted r _ => r = route
  | .knote _ => false

def removeRoute (s : State) (route : Route) : State :=
  { s with
    routes := s.routes.filter (fun r => r.route ≠ route)
    ready := s.ready.filter (fun ready => !ready.isPostedTo route) }

/-! ## Knotes -/

/-- `filt_usertouch` for a registration. -/
def touchUser (knote : Knote) (change : Change) : Knote :=
  let knote := if change.fflags &&& noteTrigger ≠ 0 then { knote with fired := true } else knote
  let value := change.fflags &&& noteFflagsMask
  let control := change.fflags &&& noteFfCtrlMask
  let knote :=
    if control = noteFfAnd then { knote with fflags := knote.fflags &&& value }
    else if control = noteFfOr then { knote with fflags := knote.fflags ||| value }
    else if control = noteFfCopy then { knote with fflags := value }
    else knote
  let knote := { knote with data := change.data }
  if change.flags &&& evClear ≠ 0 then { knote with fired := false } else knote

/-- Puts a knote that the filter reports on the ready list once. -/
def enqueueIfReady (s : State) (key : Key) : State :=
  match s.knotes[key]? with
  | none => s
  | some knote =>
      if knote.fired && !knote.disabled && !knote.queued then
        { s with
          knotes := s.knotes.insert key { knote with queued := true }
          ready := s.ready ++ [.knote key] }
      else s

def newKnote (change : Change) : Knote where
  flags := change.flags &&& ~~~actions
  fflags := change.fflags
  data := change.data
  udata := change.udata
  fired := change.fflags &&& noteTrigger ≠ 0
  disabled := change.flags &&& evDisable ≠ 0
  queued := false

def changeKnote (knote : Knote) (change : Change) : Knote :=
  let knote :=
    if change.flags &&& evForceOneshot ≠ 0 then
      { knote with flags := knote.flags ||| evOneshot, fired := true }
    else knote
  let knote :=
    if change.flags &&& evEnable ≠ 0 then { knote with disabled := false }
    else if change.flags &&& evDisable ≠ 0 then { knote with disabled := true }
    else knote
  let knote :=
    if change.flags &&& evKeepUdata = 0 then { knote with udata := change.udata } else knote
  touchUser knote change

def register (s : State) (change : Change) : Except Refusal State :=
  if change.flags &&& (evEnable ||| evDisable) = evEnable ||| evDisable then .error .invalid
  else if change.filter ≠ evfiltUser then .error .invalid
  else if change.flags &&& evAdd ≠ 0 ∧ change.flags &&& evKeepUdata ≠ 0 then .error .invalid
  else
    let key : Key := (change.filter, change.ident)
    match s.knotes[key]? with
    | none =>
        if change.flags &&& evAdd = 0 then .error .noEvent
        else .ok (enqueueIfReady { s with knotes := s.knotes.insert key (newKnote change) } key)
    | some knote =>
        if change.flags &&& evDelete ≠ 0 then
          .ok { s with
            knotes := s.knotes.erase key
            ready := s.ready.filter (fun r => r ≠ .knote key) }
        else
          .ok (enqueueIfReady
            { s with knotes := s.knotes.insert key (changeKnote knote change) } key)

/-! ## Scanning -/

/-- The event a knote delivers: its own kevent when it is one-shot, whose
`fflags` and `data` were zeroed when it was added, its filter's otherwise. -/
def knoteEvent (key : Key) (knote : Knote) : PendingEvent :=
  let oneshot := knote.flags &&& evOneshot ≠ 0
  { ident := key.2
    filter := key.1
    flags := knote.flags
    fflags := if oneshot then 0 else knote.fflags
    data := if oneshot then 0 else knote.data
    udata := knote.udata
    displayNanos := 0 }

/-- What a scan does with the entry it popped off the front. -/
def visitReady (s : State) : Ready → State × Option PendingEvent
  | .posted _ event => (s, some event)
  | .knote key =>
      match s.knotes[key]? with
      | none => (s, none)
      | some knote =>
          let knote := { knote with queued := false }
          let keep (knote : Knote) : State := { s with knotes := s.knotes.insert key knote }
          if knote.disabled then (keep knote, none)
          else if knote.flags &&& evOneshot ≠ 0 then
            ({ s with knotes := s.knotes.erase key }, some (knoteEvent key knote))
          else if !knote.fired then (keep knote, none)
          else
            let after := if knote.flags &&& evClear ≠ 0 then { knote with fired := false } else knote
            if knote.flags &&& (evClear ||| evDispatch) ≠ 0 then
              let after :=
                if knote.flags &&& evDispatch ≠ 0 then { after with disabled := true } else after
              (keep after, some (knoteEvent key knote))
            else
              (push (keep { after with queued := true }) (.knote key),
                some (knoteEvent key knote))

abbrev Delivery := Ready × PendingEvent

/-- The loop of `scan`: `visit` entries are left of those on the list when it began. -/
def scanLoop (wanted : Nat) : Nat → State → List Delivery → State × List Delivery
  | 0, s, out => (s, out)
  | visit + 1, s, out =>
      if out.length < wanted then
        match s.ready with
        | [] => (s, out)
        | ready :: rest =>
            match visitReady { s with ready := rest } ready with
            | (s, some event) => scanLoop wanted visit s (out ++ [(ready, event)])
            | (s, none) => scanLoop wanted visit s out
      else (s, out)

def scanLog (s : State) (wanted : Nat) : State × List Delivery :=
  scanLoop wanted s.ready.length s []

def scan (s : State) (wanted : Nat) : State × List PendingEvent :=
  let (s, out) := scanLog s wanted
  (s, out.map Prod.snd)

/-! ## Runs -/

/-- One step of a queue, as the callers of `equeue.rs` take them under its lock. -/
inductive Op where
  | apply (change : Change)
  | postEvent (ident : UInt64) (event : PendingEvent)
  | postFilteredEvent (filter : Int16) (event : UInt64 → PendingEvent)
  | postEventEverywhere (event : PendingEvent)
  | postAnswer (entry : RouteEntry) (event : PendingEvent)
  | addRoute (entry : RouteEntry)
  | removeRoute (route : Route)
  | scan (wanted : Nat)
  | deleteEqueue

def step (s : State) : Op → State × List Delivery
  | .apply change =>
      match register s change with
      | .ok s => (s, [])
      | .error _ => (s, [])
  | .postEvent ident event => (postEvent s ident event, [])
  | .postFilteredEvent filter event => (postFilteredEvent s filter event, [])
  | .postEventEverywhere event => (postEventEverywhere s event, [])
  | .postAnswer entry event => (postAnswer s entry event, [])
  | .addRoute entry => (addRoute s entry, [])
  | .removeRoute route => (removeRoute s route, [])
  | .scan wanted => scanLog s wanted
  | .deleteEqueue => (State.empty, [])

/-- A queue over whole runs, putting out what its scans deliver. -/
def equeue : Machine State Op Delivery := ⟨step⟩

end Orbistoun.Kernel.Equeue
