import Orbistoun.Lib.Roster
import Orbistoun.Mem.Watch.Guards

/-! # Guards and threads

`mark`, `write_faulted`, `forbid_guards`, `allow_guards` and `release_guards` by several
threads. A step is one atomic load or store, one lock taken, one call of the host, or what is
done to the record between them; the ranges guards are kept off have a lock of their own, held
for one look or one change. The rest of the host may change at any time.
-/

namespace Orbistoun.Mem.Watch.Threads

open Std (TreeMap TreeSet)
open Orbistoun.Lib
open Orbistoun.Lib.U64 (saturatingAdd bound)

/-- What asks the record for a guard: a write that faulted, with whether a guard alone stopped
it, or a release, which may be that of `forbid_guards`. -/
inductive Asker where
  | fault (address : Nat) (guarded : Bool)
  | range (base len : Nat) (forbids : Bool)
  deriving DecidableEq, Repr

/-- Where a thread with the record stands in `mark`. -/
inductive MarkAt where
  | guarding
  | forbidden
  | guard
  | harvest (guarded : Bool)
  | unguard
  | push
  | count
  | finish
  deriving DecidableEq, Repr

/-- Where a thread with the record stands; the last three are those of `Record::release`. -/
inductive Inside where
  | mark (base len : Nat) (at_ : MarkAt)
  | find (asker : Asker)
  | count (asker : Asker) (g : Guard)
  | unguard (asker : Asker) (g : Guard)
  | note (asker : Asker) (g : Guard)
  deriving DecidableEq, Repr

/-- Where a thread without the record stands: before its load of `GUARDS`, or waiting. -/
inductive Outside where
  | load (asker : Asker)
  | wait (next : Inside)
  deriving DecidableEq, Repr

structure Caller where
  thread : Nat
  place : Outside
  deriving DecidableEq, Repr

structure System where
  state : State
  /-- The thread that holds the record. -/
  inside : Option (Nat × Inside)
  outside : List Caller

inductive Event where
  | marked (base len : Nat) (stamp : Option Nat)
  | answered (address : Nat) (guarded answer : Bool)
  | released (base len : Nat)
  | forbidding (base len : Nat)
  | forbade (base len : Nat)
  | allowed (base len : Nat)
  deriving DecidableEq, Repr

inductive Call where
  | mark (base len : Nat)
  | releaseGuards (base len : Nat)
  | forbidGuards (base len : Nat)
  | allowGuards (base len : Nat)
  | guardMarkedRanges
  /-- A write by the guest; `stopped` when some other protection stops it. -/
  | write (address : Nat) (stopped : Bool)
  deriving DecidableEq, Repr

inductive Action where
  | call (thread : Nat) (c : Call)
  | advance (thread : Nat)
  /-- Anything else of the host changes. -/
  | world (host : Host) (registry : Mappings.Registry)

namespace Asker

def seeks (x : Guard) : Asker → Bool
  | .fault address _ => x.first ≤ address && address < x.stop
  | .range base len _ => x.meets (pagesOf base len).1 (pagesOf base len).2

def answer (b : Bool) : Asker → List Event
  | .fault address guarded => [.answered address guarded b]
  | .range base len true => [.forbade base len]
  | .range base len false => [.released base len]

end Asker

/-- Where a step leads the thread that has the record. -/
inductive Next where
  | at_ (p : Inside)
  | done (w : List Event)

def rangeGuard (base len : Nat) : Guard := ⟨(pagesOf base len).1, (pagesOf base len).2⟩

def markNext (s : State) (base len : Nat) : MarkAt → State × Next
  | .guarding =>
      (s, .at_ (.mark base len
        (if s.guarding && guardedFrom ≤ len && s.record.guards.length < guardsMost &&
            !s.record.guards.any (fun x => x.meets (pagesOf base len).1 (pagesOf base len).2)
          then .forbidden else .harvest false)))
  | .forbidden =>
      (s, .at_ (.mark base len
        (if s.guardsForbidden (pagesOf base len).1 (pagesOf base len).2 then .harvest false
          else .guard)))
  | .guard =>
      if s.host.plain (pagesOf base len).1 (pagesOf base len).2 then
        ({ s with host := s.host.guard (pagesOf base len).1 (pagesOf base len).2 },
          .at_ (.mark base len (.harvest true)))
      else (s, .at_ (.mark base len (.harvest false)))
  | .harvest guarded =>
      match (s.harvest base len).1 with
      | none =>
          ((s.harvest base len).2,
            if guarded then .at_ (.mark base len .unguard) else .done [.marked base len none])
      | some _ =>
          ((s.harvest base len).2, .at_ (.mark base len (if guarded then .push else .finish)))
  | .unguard =>
      ({ s with host := s.host.unguard (pagesOf base len).1 (pagesOf base len).2 },
        .done [.marked base len none])
  | .push =>
      ({ s with record := { s.record with guards := s.record.guards ++ [rangeGuard base len] } },
        .at_ (.mark base len .count))
  | .count => ({ s with guardCount := s.guardCount + 1 }, .at_ (.mark base len .finish))
  | .finish => (s.nextEpoch, .done [.marked base len (some s.record.epoch)])

def next (s : State) : Inside → State × Next
  | .mark base len p => markNext s base len p
  | .find asker =>
      match s.record.guards.findIdx? (fun x => asker.seeks x) with
      | none => (s, .done (asker.answer false))
      | some i =>
          match s.record.guards[i]? with
          | none => (s, .done (asker.answer false))
          | some x =>
              ({ s with record := { s.record with guards := swapRemove s.record.guards i } },
                .at_ (.count asker x))
  | .count asker x => ({ s with guardCount := s.guardCount - 1 }, .at_ (.unguard asker x))
  | .unguard asker x =>
      ({ s with host := s.host.unguard x.first x.stop }, .at_ (.note asker x))
  | .note asker x =>
      ({ s with record := s.record.noteAll (Record.steps x.first x.stop) },
        match asker with
        | .fault address guarded => .done (Asker.answer true (.fault address guarded))
        | .range base len forbids => .at_ (.find (.range base len forbids)))

namespace System

def start : System := ⟨.start, none, []⟩

def entry (g : System) (thread : Nat) : Option Caller := Roster.entry Caller.thread g.outside thread

def busy (g : System) (thread : Nat) : Bool :=
  g.inside.any (fun e => e.1 == thread) || (g.entry thread).isSome

def enter (g : System) (thread : Nat) (p : Outside) : System :=
  { g with outside := g.outside ++ [⟨thread, p⟩] }

def leave (g : System) (thread : Nat) : System :=
  { g with outside := Roster.strike Caller.thread g.outside thread }

def call (g : System) (thread : Nat) : Call → System × List Event
  | .mark base len => (g.enter thread (.wait (.mark base len .guarding)), [])
  | .releaseGuards base len => (g.enter thread (.load (.range base len false)), [])
  | .forbidGuards base len =>
      ({ g with state := { g.state with
          unguardable := g.state.unguardable.insert base len } }.enter thread
        (.load (.range base len true)), [.forbidding base len])
  | .allowGuards base len => ({ g with state := g.state.allowGuards base len }, [.allowed base len])
  | .guardMarkedRanges => ({ g with state := { g.state with guarding := true } }, [])
  | .write address stopped =>
      if stopped then (g.enter thread (.load (.fault address false)), [])
      else if g.state.host.readOnly (address / pageBytes) then
        (g.enter thread (.load (.fault address true)), [])
      else
        ({ g with state := { g.state with host := { g.state.host with
          dirty := g.state.host.dirty.insert (address / pageBytes) } } }, [])

def outer (g : System) (thread : Nat) : System × List Event :=
  match g.entry thread with
  | none => (g, [])
  | some c =>
      match c.place with
      | .load asker =>
          if g.state.guardCount = 0 then (g.leave thread, asker.answer false)
          else ((g.leave thread).enter thread (.wait (.find asker)), [])
      | .wait p =>
          match g.inside with
          | none => ({ g.leave thread with inside := some (thread, p) }, [])
          | some _ => (g, [])

def inner (g : System) (thread : Nat) (p : Inside) : System × List Event :=
  match (next g.state p).2 with
  | .at_ q => ({ g with state := (next g.state p).1, inside := some (thread, q) }, [])
  | .done w => ({ g with state := (next g.state p).1, inside := none }, w)

def step (g : System) : Action → System × List Event
  | .call thread c => if g.busy thread then (g, []) else g.call thread c
  | .advance thread =>
      match g.inside with
      | some (t, p) => if t = thread then g.inner thread p else g.outer thread
      | none => g.outer thread
  | .world host registry =>
      ({ g with state := { g.state with
        host := { host with readOnly := g.state.host.readOnly }
        registry := registry } }, [])

end System

def threads : Machine System Action Event := ⟨System.step⟩

/-! ## What was promised -/

/-- The ranges forbidden and not allowed since, and those of them a `forbid_guards` has
returned for. -/
structure Promises where
  standing : List (Nat × Nat)
  kept : List (Nat × Nat)
  deriving DecidableEq, Repr

section

local instance lawful_range : LawfulBEq (Nat × Nat) := inferInstance

def Promises.note (p : Promises) : Event → Promises
  | .forbidding base len => { p with standing := (base, len) :: p.standing }
  | .forbade base len =>
      if (base, len) ∈ p.standing then { p with kept := (base, len) :: p.kept } else p
  | .allowed base len =>
      ⟨p.standing.filter (fun r => r ≠ (base, len)), p.kept.filter (fun r => r ≠ (base, len))⟩
  | _ => p

end

def promises (w : List Event) : Promises := w.foldl Promises.note ⟨[], []⟩

/-- No page of the range is a guard's, or read-only for one. -/
def KeptOff (s : State) (r : Nat × Nat) : Prop :=
  ∀ n, touches r.1 (r.1 + r.2) n = true →
    s.host.readOnly n = false ∧ ∀ x ∈ s.record.guards, ¬ x.Has n

/-- The write that faulted may run: its page is writable and noted written now. -/
def Released (s : State) (address : Nat) : Prop :=
  s.host.readOnly (address / pageBytes) = false ∧
    s.record.written[address / pageBytes * pageBytes]? = some s.record.epoch

/-! ## The steps that keep the promises -/

/-- The pages the thread with the record has in hand: those of a mark past its look at the
forbidden ranges, up to the count, or of a guard not yet made writable. -/
def Inside.pages : Inside → Option Guard
  | .mark base len .guard | .mark base len (.harvest true) | .mark base len .unguard
  | .mark base len .push | .mark base len .count => some (rangeGuard base len)
  | .count _ x | .unguard _ x => some x
  | _ => none

/-- Pages on their way to being writable again. -/
def Inside.down : Inside → Option Guard
  | .mark base len .unguard => some (rangeGuard base len)
  | .count _ x | .unguard _ x => some x
  | _ => none

/-- The address of a write a guard alone stopped, on its way to the record. -/
def Outside.fault : Outside → Option Nat
  | .load (.fault address true) | .wait (.find (.fault address true)) => some address
  | _ => none

/-- Whether a load of `GUARDS` that finds none leaves a promise open. -/
def Asker.binds : Asker → Bool
  | .fault _ guarded => guarded
  | .range _ _ forbids => forbids

namespace System

def pages (g : System) : Option Guard := g.inside.bind (fun e => e.2.pages)

def down (g : System) : Option Guard := g.inside.bind (fun e => e.2.down)

instance (x : Guard) (n : Nat) : Decidable (x.Has n) := inferInstanceAs (Decidable (_ ∧ _))

/-- No write that faulted on these pages is on its way. -/
def Quiet (g : System) (x : Guard) : Prop :=
  ∀ c ∈ g.outside, ∀ address ∈ c.place.fault, ¬ x.Has (address / pageBytes)

instance (g : System) (x : Guard) : Decidable (g.Quiet x) :=
  inferInstanceAs (Decidable (∀ c ∈ g.outside, ∀ address ∈ c.place.fault, ¬ _))

/-- Two forbidden ranges are the same, or one ends before the other starts. -/
def Apart (r r' : Nat × Nat) : Prop :=
  r = r' ∨ (r.1 < r'.1 ∧ r.1 + r.2 ≤ r'.1) ∨ (r'.1 < r.1 ∧ r'.1 + r'.2 ≤ r.1)

instance (r r' : Nat × Nat) : Decidable (Apart r r') := inferInstanceAs (Decidable (_ ∨ _))

/-- What the thread with the record may do next. -/
def CleanInside (g : System) : Inside → Prop
  | .find asker => ∀ x ∈ g.state.record.guards.find? (fun x => asker.seeks x), g.Quiet x
  | .mark base len (.harvest true) =>
      (g.state.harvest base len).1 = none → g.Quiet (rangeGuard base len)
  | _ => True

instance (g : System) : ∀ p, Decidable (g.CleanInside p)
  | .find asker => inferInstanceAs (Decidable (∀ x ∈ List.find? _ _, _))
  | .mark _ _ (.harvest true) => inferInstanceAs (Decidable (_ → _))
  | .mark _ _ (.harvest false) | .mark _ _ .guarding | .mark _ _ .forbidden | .mark _ _ .guard
  | .mark _ _ .unguard | .mark _ _ .push | .mark _ _ .count | .mark _ _ .finish
  | .count _ _ | .unguard _ _ | .note _ _ => inferInstanceAs (Decidable True)

def CleanOutside (g : System) : Outside → Prop
  | .load asker => asker.binds = true → g.state.guardCount = 0 →
      ∀ x ∈ g.pages, asker.seeks x = false
  | .wait _ => True

instance (g : System) : ∀ p, Decidable (g.CleanOutside p)
  | .load _ => inferInstanceAs (Decidable (_ → _ → ∀ x ∈ g.pages, _))
  | .wait _ => inferInstanceAs (Decidable True)

/-- No write faults on pages on their way down, and no guard goes down while a write that
faulted on it is on its way; `GUARDS` is not read as 0 while the pages asked about are in
hand; and forbidden ranges are apart. -/
def Clean (g : System) : Action → Prop
  | .call _ (.forbidGuards base len) => ∀ r ∈ g.state.unguardable.toList, Apart r (base, len)
  | .call _ (.write address false) => g.state.host.readOnly (address / pageBytes) = true →
      ∀ x ∈ g.down, ¬ x.Has (address / pageBytes)
  | .call _ _ => True
  | .advance thread =>
      (∀ e ∈ g.inside, e.1 = thread → g.CleanInside e.2) ∧
        ∀ c ∈ g.entry thread, g.CleanOutside c.place
  | .world _ _ => True

instance : ∀ (g : System) (a : Action), Decidable (g.Clean a)
  | _, .call _ (.forbidGuards _ _) => inferInstanceAs (Decidable (∀ r ∈ TreeMap.toList _, _))
  | g, .call _ (.write _ false) => inferInstanceAs (Decidable (_ → ∀ x ∈ g.down, ¬ _))
  | _, .call _ (.write _ true) | _, .call _ (.mark _ _) | _, .call _ (.releaseGuards _ _)
  | _, .call _ (.allowGuards _ _) | _, .call _ .guardMarkedRanges | _, .world _ _ =>
      inferInstanceAs (Decidable True)
  | g, .advance _ =>
      inferInstanceAs (Decidable ((∀ e ∈ g.inside, _ → g.CleanInside e.2) ∧
        ∀ c ∈ g.entry _, g.CleanOutside c.place))

end System

end Orbistoun.Mem.Watch.Threads
