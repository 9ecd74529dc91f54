import Mathlib.Data.List.Sort
import Mathlib.Tactic
import Orbistoun.Lib.Machine
import Orbistoun.Lib.SwapRemove
import Orbistoun.Lib.U64
import Orbistoun.Mem.Mappings.Basic

/-! # Whether guest memory has been written

What `watch.rs` keeps: the pages harvested as written with the epoch they were found in,
the ranges a mark made read-only, and what it asks of the host. The host's write watch is
exact: it hands over the pages written since it last did, and forgets those it handed
over. Host pages are counted, so page `n` starts at `n * pageBytes`.
-/

namespace Orbistoun.Mem.Watch

open Std (TreeMap TreeSet)
open Orbistoun.Lib
open Orbistoun.Lib.U64 (saturatingAdd checkedAdd)

/-- The host page write watch reports in. -/
def pageBytes : Nat := 4096

/-- The span `Record.chunks` keeps one latest epoch for. -/
def chunkBytes : Nat := 2 ^ 20

/-- The shortest range a mark guards. -/
def guardedFrom : Nat := 64 * 1024

/-- The most guards that stand at once. -/
def guardsMost : Nat := 1024

/-- Addresses one call of the host's watch hands back at most. -/
def batch : Nat := 512

/-- Where the memory a host lets a process reserve ends. -/
def userEnd : Nat := 2 ^ 47

def pageFloor (x : Nat) : Nat := x / pageBytes * pageBytes

def chunkFloor (x : Nat) : Nat := x / chunkBytes * chunkBytes

def pagesOf (base len : Nat) : Nat × Nat :=
  (pageFloor base, pageFloor (saturatingAdd (saturatingAdd base len) (pageBytes - 1)))

def touches (first stop n : Nat) : Bool :=
  first < stop && n * pageBytes < stop && first < n * pageBytes + pageBytes

/-! ## The host -/

/-- What the host keeps of guest memory: the live reservations, all of them write-watched,
the pages written since the watch last handed them over, the pages it lets nothing write,
where a run of alike pages ends, and which ranges are committed and plain read-write. -/
structure Host where
  held : List (Nat × Nat)
  dirty : TreeSet Nat
  readOnly : Nat → Bool
  regionEnd : Nat → Option Nat
  plain : Nat → Nat → Bool

namespace Host

/-- Address `x` lies in a live reservation. -/
def holds (h : Host) (x : Nat) : Bool := h.held.any (fun (base, len) => base ≤ x && x < base + len)

def watches (h : Host) (first stop : Nat) : Bool :=
  h.held.any (fun (base, len) => base ≤ first && stop ≤ base + len)

/-- `GetWriteWatch` with its reset flag: the pages of `[first, stop)` written, in order and
at most a batch of them, no longer written as far as they were handed over. -/
def getWriteWatch (h : Host) (first stop : Nat) : Option (List Nat × Host) :=
  if h.watches first stop then
    let found := (h.dirty.toList.filter (touches first stop)).take batch
    some (found, { h with dirty := found.foldl TreeSet.erase h.dirty })
  else none

def setReadOnly (h : Host) (first stop : Nat) (to_ : Bool) : Host :=
  { h with readOnly := fun n => if touches first stop n then to_ else h.readOnly n }

/-- `imp::guard`, where every page is committed and plain read-write. -/
def guard (h : Host) (first stop : Nat) : Host := h.setReadOnly first stop true

/-- `imp::unguard`. -/
def unguard (h : Host) (first stop : Nat) : Host := h.setReadOnly first stop false

end Host

/-- What a harvest came back with: whether all it asked about is watched, the pages it was
handed, and the host after it. A harvest that fails has still taken what it was handed. -/
structure Walk where
  whole : Bool
  found : List Nat
  host : Host

def Walk.andThen (w : Walk) (next : Host → Walk) : Walk :=
  if w.whole then { next w.host with found := w.found ++ (next w.host).found } else w

namespace Host

/-- The loop over batches: a full one asks again, from where `next` says. A batch takes
at least one page, so there is no turn after as many as there are pages. -/
def batches (next : Nat → List Nat → Nat) : Nat → Host → Nat → Nat → Walk
  | 0, h, _, _ => ⟨true, [], h⟩
  | turns + 1, h, first, stop =>
      if first < stop then
        match h.getWriteWatch first stop with
        | none => ⟨false, [], h⟩
        | some (found, h) =>
            (Walk.mk true found h).andThen (fun h =>
              if found.length < batch then ⟨true, [], h⟩
              else batches next turns h (next first found) stop)
      else ⟨true, [], h⟩

/-- `imp::harvest_span`: what follows the last page handed over is asked again. -/
def harvestSpan (h : Host) (first stop : Nat) : Walk :=
  h.batches
    (fun _ found => saturatingAdd (found.getLastD 0 * pageBytes) pageBytes)
    (h.dirty.size + 1) first stop

/-- One run of pages of `imp::harvest`: the same range is asked again. -/
def harvestSegment (h : Host) (first stop : Nat) : Walk :=
  h.batches (fun first _ => first) (h.dirty.size + 1) first stop

/-- The loop of `imp::harvest` over the host's runs of alike pages, each past the last. -/
def harvestRegions : Nat → Host → Nat → Nat → Walk
  | 0, h, _, _ => ⟨true, [], h⟩
  | turns + 1, h, first, stop =>
      if first < stop then
        match h.regionEnd first with
        | none => ⟨false, [], h⟩
        | some runEnd =>
            if runEnd ≤ first then ⟨false, [], h⟩
            else
              let segmentEnd := min runEnd stop
              (h.harvestSegment first segmentEnd).andThen (fun h =>
                harvestRegions turns h segmentEnd stop)
      else ⟨true, [], h⟩

/-- `imp::harvest`. -/
def harvest (h : Host) (base len : Nat) : Walk :=
  match checkedAdd base len with
  | none => ⟨false, [], h⟩
  | some stop => h.harvestRegions (stop - base) base stop

end Host

/-- `mappings::reservation_of`. -/
def reservationOf (registry : Mappings.Registry) (at_ : Nat) : Option (Nat × Nat) :=
  match registry.reservations.getEntryLE? at_ with
  | none => none
  | some (base, (len, _)) => if at_ < saturatingAdd base len then some (base, len) else none

def harvestPieces (registry : Mappings.Registry) : Nat → Host → Nat → Nat → Walk
  | 0, h, _, _ => ⟨true, [], h⟩
  | turns + 1, h, at_, stop =>
      if at_ < stop then
        match reservationOf registry at_ with
        | none => h.harvest at_ (stop - at_)
        | some (held, heldLen) =>
            let pieceEnd := min stop (saturatingAdd held heldLen)
            (h.harvestSpan at_ pieceEnd).andThen (fun h =>
              harvestPieces registry turns h pieceEnd stop)
      else ⟨true, [], h⟩

/-- A harvest of `[base, base + len)`, each part that lies in a recorded reservation walked
as one span of it. -/
def harvestByReservation (registry : Mappings.Registry) (h : Host) (base len : Nat) : Walk :=
  let stop := saturatingAdd base len
  harvestPieces registry (stop - base) h base stop

/-! ## The record -/

/-- Whole pages a mark made read-only. -/
structure Guard where
  first : Nat
  stop : Nat
  deriving DecidableEq, Repr

def Guard.meets (g : Guard) (first stop : Nat) : Bool := g.first < stop && first < g.stop

/-- Each page ever harvested as written, to the epoch it was harvested in; each chunk of
pages, to the latest of theirs; the current epoch; and the guards. -/
structure Record where
  epoch : Nat
  written : TreeMap Nat Nat
  chunks : TreeMap Nat Nat
  guards : List Guard

namespace Record

def note (r : Record) (page epoch : Nat) : Record :=
  let latest := r.chunks.getD (chunkFloor page) 0
  { r with
    written := r.written.insert page epoch
    chunks := r.chunks.insert (chunkFloor page) (max latest epoch) }

def noteAll (r : Record) (pages : List Nat) : Record :=
  pages.foldl (fun r page => r.note page r.epoch) r

/-- `(first..stop).step_by(PAGE)`. -/
def steps (first stop : Nat) : List Nat :=
  List.range' first ((stop - first + (pageBytes - 1)) / pageBytes) pageBytes

def guardOver (r : Record) (first stop : Nat) : Option Guard :=
  r.guards.find? (fun g => g.first ≤ first && stop ≤ g.stop)

/-- Whether any page whose start lies in `[first, stop)` was harvested after `since`: a
chunk wholly inside answers from its latest epoch. -/
def writtenAfter (r : Record) (first stop since : Nat) : Bool :=
  (r.chunks.toList.filter (fun (chunk, latest) =>
    chunkFloor first ≤ chunk && chunk < stop && since < latest)).any (fun (chunk, _) =>
      let chunkEnd := saturatingAdd chunk chunkBytes
      let from_ := max chunk first
      let to_ := min chunkEnd stop
      (from_ == chunk && to_ == chunkEnd) ||
        r.written.toList.any (fun (page, harvested) =>
          from_ ≤ page && page < to_ && since < harvested))

end Record

/-! ## The watch -/

/-- Everything the functions of `watch.rs` read and write: the host, the guest's registry
of mappings, the record, and the statics beside it. -/
structure State where
  host : Host
  registry : Mappings.Registry
  record : Record
  guarding : Bool
  guardCount : Nat
  unguardable : TreeMap Nat Nat
  owed : TreeMap Nat Nat
  owedCount : Nat

namespace State

def start : State where
  host := ⟨[], ∅, fun _ => false, fun _ => none, fun _ _ => false⟩
  registry := .empty
  record := ⟨1, ∅, ∅, []⟩
  guarding := false
  guardCount := 0
  unguardable := ∅
  owed := ∅
  owedCount := 0

/-- `Record::release`: the guard at `i` forgotten, its pages writable and noted written. -/
def release (s : State) (i : Nat) : State :=
  match s.record.guards[i]? with
  | none => s
  | some g =>
      { s with
        guardCount := s.guardCount - 1
        host := s.host.unguard g.first g.stop
        record := { s.record with guards := swapRemove s.record.guards i }.noteAll
          (Record.steps g.first g.stop) }

/-- What a walk came back with taken into the record, at the current epoch. -/
def take (s : State) (w : Walk) : State :=
  { s with host := w.host, record := s.record.noteAll (w.found.map (· * pageBytes)) }

/-- `Record::harvest`: whether the host handed any page over; nothing when part of the
range is not watched. -/
def harvest (s : State) (base len : Nat) : Option Bool × State :=
  let w := harvestByReservation s.registry s.host base len
  (if w.whole then some (w.found != []) else none, s.take w)

def guardsForbidden (s : State) (first stop : Nat) : Bool :=
  match s.unguardable.getEntryLT? stop with
  | none => false
  | some (base, len) => first < saturatingAdd base len

def mayGuard (s : State) (len first stop : Nat) : Bool :=
  s.guarding && guardedFrom ≤ len && s.record.guards.length < guardsMost &&
    !s.record.guards.any (fun g => g.meets first stop) && !s.guardsForbidden first stop

/-- The guard a mark puts up before its harvest, so that a write landing between the two
is in the harvest: whether it did. -/
def putGuard (s : State) (base len : Nat) : Bool × State :=
  let first := (pagesOf base len).1
  let stop := (pagesOf base len).2
  if s.mayGuard len first stop && s.host.plain first stop then
    (true, { s with host := s.host.guard first stop })
  else (false, s)

def recordGuard (s : State) (base len : Nat) : State :=
  { s with
    record := { s.record with
      guards := s.record.guards ++ [⟨(pagesOf base len).1, (pagesOf base len).2⟩] }
    guardCount := s.guardCount + 1 }

def nextEpoch (s : State) : State :=
  { s with record := { s.record with epoch := s.record.epoch + 1 } }

/-- The stamp of a point in time for `[base, base + len)`. -/
def mark (s : State) (base len : Nat) : Option Nat × State :=
  let put := s.putGuard base len
  let harvested := put.2.harvest base len
  match harvested.1 with
  | none =>
      (none, if put.1 then
          { harvested.2 with
            host := harvested.2.host.unguard (pagesOf base len).1 (pagesOf base len).2 }
        else harvested.2)
  | some _ =>
      (some s.record.epoch,
        (if put.1 then harvested.2.recordGuard base len else harvested.2).nextEpoch)

/-- The inner loop of `harvest_all`: the ranges in front that lie in the reservation, and
the end of the last page of theirs. -/
def inside (held heldEnd stop : Nat) : List (Nat × Nat) → Nat × List (Nat × Nat)
  | [] => (stop, [])
  | (base, len) :: rest =>
      let pages := pagesOf base len
      if pages.1 < held || pages.2 > heldEnd then (stop, (base, len) :: rest)
      else inside held heldEnd (max stop pages.2) rest

/-- `imp::harvest_span` of a span of one allocation, its pages noted. -/
def harvestSpan (s : State) (first stop : Nat) : Bool × State :=
  let w := s.host.harvestSpan first stop
  (w.whole, s.take w)

/-- The loop of `harvest_all`; each turn takes a range off the front at least. -/
def harvestSorted : Nat → State → List (Nat × Nat) → Bool × State
  | 0, s, _ => (true, s)
  | _ + 1, s, [] => (true, s)
  | turns + 1, s, (base, len) :: rest =>
      let first := (pagesOf base len).1
      match reservationOf s.registry first with
      | none =>
          let harvested := s.harvest base len
          let after := harvestSorted turns harvested.2 rest
          (harvested.1.isSome && after.1, after.2)
      | some (held, heldLen) =>
          let taken := inside held (saturatingAdd held heldLen) first ((base, len) :: rest)
          if taken.1 = first then
            -- a range running past its reservation's end, asked alone
            let harvested := s.harvest base len
            let after := harvestSorted turns harvested.2 taken.2.tail
            (harvested.1.isSome && after.1, after.2)
          else
            let walked := s.harvestSpan first taken.1
            let after := harvestSorted turns walked.2 taken.2
            (walked.1 && after.1, after.2)

/-- The order of pairs the ranges are sorted in. -/
def rangeLe (x y : Nat × Nat) : Prop := x.1 < y.1 ∨ (x.1 = y.1 ∧ x.2 ≤ y.2)

instance : DecidableRel rangeLe := fun _ _ => inferInstanceAs (Decidable (_ ∨ _))

def harvestAll (s : State) (ranges : List (Nat × Nat)) : Bool × State :=
  let sorted := (ranges.filter (fun r => 0 < r.2)).insertionSort rangeLe
  harvestSorted sorted.length s sorted

def markAll (s : State) (ranges : List (Nat × Nat)) : Option Nat × State :=
  let harvested := s.harvestAll ranges
  (if harvested.1 then some s.record.epoch else none, harvested.2.nextEpoch)

def owedTo (s : State) (base len : Nat) : State :=
  { s with
    owedCount := if s.owed.contains base then s.owedCount else s.owedCount + 1
    owed := s.owed.insert base len }

def settled (s : State) (base : Nat) : State :=
  { s with
    owedCount := if s.owed.contains base then s.owedCount - 1 else s.owedCount
    owed := s.owed.erase base }

def owedOver (s : State) (base len : Nat) : Bool :=
  if s.owedCount == 0 then false
  else
    s.owed.toList.any (fun (at_, bytes) =>
      at_ < saturatingAdd base len && base < saturatingAdd at_ bytes)

def writtenSince (s : State) (base len since : Nat) : Option Bool × State :=
  if s.owedOver base len then (some true, s)
  else if (s.record.guardOver (pagesOf base len).1 (pagesOf base len).2).isSome then
    (some (s.record.writtenAfter (pagesOf base len).1 (saturatingAdd base len) since), s)
  else
    let harvested := s.harvest base len
    (match harvested.1 with
      | none => none
      | some true => some true
      | some false => some
          (harvested.2.record.writtenAfter (pageFloor base) (saturatingAdd base len) since),
      harvested.2)

def recordedSince (s : State) (base len since : Nat) : Bool :=
  s.owedOver base len ||
    s.record.writtenAfter (pageFloor base) (saturatingAdd base len) since

/-- A write faulted: whether a guard held the address, its pages now writable. -/
def writeFaulted (s : State) (address : Nat) : Bool × State :=
  if s.guardCount == 0 then (false, s)
  else
    match s.record.guards.findIdx? (fun g => g.first ≤ address && address < g.stop) with
    | none => (false, s)
    | some i => (true, s.release i)

/-- The loop of `release_guards`; each turn releases a guard. -/
def releaseMeeting (first stop : Nat) : Nat → State → State
  | 0, s => s
  | turns + 1, s =>
      match s.record.guards.findIdx? (fun g => g.meets first stop) with
      | none => s
      | some i => releaseMeeting first stop turns (s.release i)

def releaseGuards (s : State) (base len : Nat) : State :=
  if s.guardCount == 0 then s
  else releaseMeeting (pagesOf base len).1 (pagesOf base len).2 s.record.guards.length s

def noteWritten (s : State) (base len : Nat) : State :=
  let s := s.releaseGuards base len
  { s with record := s.record.noteAll (Record.steps (pagesOf base len).1 (pagesOf base len).2) }

def forbidGuards (s : State) (base len : Nat) : State :=
  { s with unguardable := s.unguardable.insert base len }.releaseGuards base len

def allowGuards (s : State) (base len : Nat) : State :=
  if s.unguardable[base]? = some len then { s with unguardable := s.unguardable.erase base } else s

end State

end Orbistoun.Mem.Watch
