import Orbistoun.Lib.U64
import Orbistoun.Lib.WriteWatch
import Std.Data.TreeMap

/-! # The registry of kept images

The model of `resident.rs`: which images the device keeps, from which mark of guest
memory, and which it lets go. The order a hash map is walked in is a parameter, since
nothing in the source fixes it. The byte total is a machine word, as a build without overflow
checks has it.
-/

namespace Orbistoun.Gpu

open Orbistoun.Lib
open Orbistoun.Lib.U64 (wrappingAdd wrappingSub)

/-- One image's place in a dispatch. -/
structure Use where
  key : Nat
  generation : Nat
  fresh : Bool
  deferred : Bool
  deriving DecidableEq, Repr

/-- A dispatch's images' places, by binding role. -/
structure Uses where
  fetched : Option Use
  moreFetched : List (Option Use)
  stored : List (Option Use)
  selected : List (Option Use)
  deriving DecidableEq, Repr

def Uses.storedUses (uses : Uses) : List Use := uses.stored.filterMap id

/-- Every place taken, with whether it is a stored image. -/
def Uses.each (uses : Uses) : List (Use × Bool) :=
  (uses.fetched.toList ++ uses.moreFetched.filterMap id ++ uses.selected.filterMap id).map
      (fun used => (used, false)) ++
    uses.storedUses.map (fun used => (used, true))

/-- Where a kept image's contents stand. -/
inductive State where
  | read (since : Nat)
  | writing
  | kept (since : Nat)
  | deferred
  deriving DecidableEq, Repr

structure Entry where
  span : Span
  bytes : Nat
  generation : Nat
  state : State
  used : Nat
  deriving DecidableEq, Repr

structure Registry where
  entries : Std.TreeMap Nat Entry
  bytes : Nat
  dispatch : Nat
  placed : List Nat
  generation : Nat
  dropped : List Nat
  budget : Nat

namespace Registry

def new (budget : Nat) : Registry := ⟨∅, 0, 0, [], 0, [], budget⟩

def setBudget (r : Registry) (budget : Nat) : Registry := { r with budget }

def begin (r : Registry) : Registry := { r with dispatch := r.dispatch + 1, placed := [] }

def setEntry (r : Registry) (key : Nat) (e : Entry) : Registry :=
  { r with entries := r.entries.insert key e }

/-- Forgets `key`, but not an image whose write-back is deferred. -/
def forget (r : Registry) (key : Nat) : Registry :=
  match r.entries[key]? with
  | none => r
  | some e =>
      if e.state = .deferred then r
      else { r with
        entries := r.entries.erase key
        bytes := wrappingSub r.bytes e.bytes
        dropped := r.dropped ++ [key] }

section Oldest

variable (walk : List (Nat × Entry) → List (Nat × Entry))

/-- The first of the least recently used images that may go. -/
def oldest (r : Registry) : Option Nat :=
  ((walk r.entries.toList).filter
    (fun p => p.2.used < r.dispatch && p.2.state != .deferred)).foldl
      (fun best p =>
        match best with
        | none => some p
        | some b => if p.2.used < b.2.used then some p else some b) none
    |>.map (·.1)

/-- Lets the least recently bound images go until the rest fit. Each round forgets one, so
as many rounds as there are entries are enough. -/
def letOldestGoIn (r : Registry) : Nat → Registry
  | 0 => r
  | rounds + 1 =>
      if r.budget < r.bytes then
        match r.oldest walk with
        | none => r
        | some key => letOldestGoIn (r.forget key) rounds
      else r

def letOldestGo (r : Registry) : Registry := r.letOldestGoIn walk r.entries.size

end Oldest

section Watched

variable {W : Type} (watch : WatchOps W)

def takeKept (w : W) (r : Registry) (key : Nat) : Option Use × Registry × W :=
  match r.entries[key]? with
  | none => (none, r, w)
  | some e =>
      match e.state with
      | .kept since =>
          let (answer, w) := watch.writtenSince w e.span since
          if answer ≠ some false then (none, r, w)
          else if key ∈ r.placed then (none, r, w)
          else
            (some ⟨key, e.generation, false, false⟩,
              { r with placed := key :: r.placed }.setEntry key { e with used := r.dispatch }, w)
      | _ => (none, r, w)

/-- Whether the image may be taken where it is: deferred, or kept and unwritten since. -/
def takable (w : W) (span : Span) : Option Entry → Bool × W
  | none => (false, w)
  | some e =>
      if e.span ≠ span then (false, w)
      else
        match e.state with
        | .deferred => (true, w)
        | .kept since =>
            let (answer, w) := watch.writtenSince w span since
            (answer = some false, w)
        | _ => (false, w)

/-- The place of the image `key`: taken, or read afresh from a mark taken now. -/
def place (walk : List (Nat × Entry) → List (Nat × Entry)) (w : W) (r : Registry) (key : Nat)
    (span : Span) (bytes : Nat) : Option Use × Registry × W :=
  if key ∈ r.placed then (none, r, w)
  else
    let r := { r with placed := key :: r.placed }
    let (taken, w) := takable watch w span r.entries[key]?
    match r.entries[key]?, taken with
    | some e, true =>
        (some ⟨key, e.generation, false, e.state = .deferred⟩,
          r.setEntry key { e with used := r.dispatch }, w)
    | old, _ =>
        match watch.mark w span with
        | (none, w) => (none, r.forget key, w)
        | (some since, w) =>
            let generation := r.generation + 1
            let r := { r with
              generation
              entries := r.entries.insert key ⟨span, bytes, generation, .read since, r.dispatch⟩
              bytes := wrappingAdd (wrappingSub r.bytes ((old.map Entry.bytes).getD 0)) bytes }
            (some ⟨key, generation, true, false⟩, r.letOldestGo walk, w)

def takeDeferred (r : Registry) (key : Nat) : Option Use × Registry :=
  match r.entries[key]? with
  | none => (none, r)
  | some e =>
      if e.state ≠ .deferred then (none, r)
      else if key ∈ r.placed then (none, r)
      else
        (some ⟨key, e.generation, false, true⟩,
          { r with placed := key :: r.placed }.setEntry key { e with used := r.dispatch })

def carriedOut (w : W) (r : Registry) (key generation : Nat) : Registry × W :=
  match r.entries[key]? with
  | none => (r, w)
  | some e =>
      if e.generation ≠ generation ∨ e.state ≠ .deferred then (r, w)
      else
        match watch.mark w e.span with
        | (some since, w) => (r.setEntry key { e with state := .kept since }, w)
        | (none, w) => ((r.setEntry key { e with state := .writing }).forget key, w)

/-- An image bound by a dispatch that ran, from its mark: kept, or where it was stored to
waiting for its write-back unless something else wrote its bytes. -/
def ranSince (w : W) (r : Registry) (key : Nat) (e : Entry) (stored : Bool) (since : Nat) :
    Registry × W :=
  if stored then
    let (answer, w) := watch.writtenSince w e.span since
    if answer ≠ some false then (r.forget key, w)
    else (r.setEntry key { e with state := .writing }, w)
  else (r.setEntry key { e with state := .kept since }, w)

/-- One place of a dispatch that ran, or failed. -/
def ranUse (ok : Bool) (rw : Registry × W) (used : Use × Bool) : Registry × W :=
  let (r, w) := rw
  let (u, stored) := used
  match r.entries[u.key]? with
  | none => (r, w)
  | some e =>
      if e.generation ≠ u.generation ∨ !ok then (r.forget u.key, w)
      else if (stored && u.deferred) ∨ e.state = .deferred then
        (r.setEntry u.key { e with state := .deferred }, w)
      else
        match e.state with
        | .writing | .deferred => (r.forget u.key, w)
        | .read since | .kept since => ranSince watch w r u.key e stored since

def ran (w : W) (r : Registry) (uses : Uses) (ok : Bool) : Registry × W :=
  uses.each.foldl (ranUse watch ok) (r, w)

def writtenBackUse (rw : Registry × W) (u : Use) : Registry × W :=
  let (r, w) := rw
  match r.entries[u.key]? with
  | none => (r, w)
  | some e =>
      if e.generation ≠ u.generation ∨ e.state ≠ .writing then (r, w)
      else
        match watch.mark w e.span with
        | (some since, w) => (r.setEntry u.key { e with state := .kept since }, w)
        | (none, w) => (r.forget u.key, w)

/-- The write-back of the dispatch whose places are `uses` is made. -/
def writtenBack (w : W) (r : Registry) (uses : Uses) : Registry × W :=
  uses.storedUses.foldl (writtenBackUse watch) (r, w)

end Watched

/-- Lets every image go, in the order the hash map is walked. -/
def forgetAll (walk : List (Nat × Entry) → List (Nat × Entry)) (r : Registry) : Registry :=
  ((walk r.entries.toList).map (·.1)).foldl forget r

end Registry

end Orbistoun.Gpu
