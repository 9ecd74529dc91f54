import Mathlib.Data.List.Basic
import Mathlib.Tactic
import Orbistoun.Lib.IntervalMap
import Orbistoun.Lib.Machine
import Orbistoun.Lib.U64

/-! # The registry of guest mappings

What `mappings.rs` keeps for the device: each reservation's pages by stretch, the
readable runs of them, and a generation. Addresses are naturals, their sums saturate
as the source's do.
-/

namespace Orbistoun.Mem.Mappings

open Std (TreeMap)
open Orbistoun.Lib
open Orbistoun.Lib.U64 (saturatingAdd)

/-- One reservation's pages: each stretch's start, to its end and whether the guest
left it readable. -/
abbrev Stretches := IntervalMap Bool

/-- What `set` does with one stretch it cuts: what sticks out on either side stays. -/
def cutStretch (base stop : Nat) (t : Stretches) : Nat × (Nat × Bool) → Stretches
  | (start, (stretchEnd, was)) =>
      let t := t.erase start
      let t := if start < base then t.insert start (base, was) else t
      if stretchEnd > stop then t.insert stop (stretchEnd, was) else t

def cutBy (base stop : Nat) (t : Stretches) : List (Nat × (Nat × Bool)) :=
  t.toList.filter (fun e => e.1 < stop && e.2.1 > base)

def Stretches.set (t : Stretches) (base stop : Nat) (readable : Bool) : Stretches :=
  ((cutBy base stop t).foldl (cutStretch base stop) t).insert base (stop, readable)

/-- One turn of `readable_runs`: a run as its first byte and its bytes. -/
def runsStep (runs : List (Nat × Nat)) : Nat × (Nat × Bool) → List (Nat × Nat)
  | (start, (stop, readable)) =>
      if !readable then runs
      else
        match runs.getLast? with
        | some (first, len) =>
            if first + len = start then runs.dropLast ++ [(first, stop - first)]
            else runs ++ [(start, stop - start)]
        | none => runs ++ [(start, stop - start)]

def Stretches.readableRuns (t : Stretches) : List (Nat × Nat) := t.toList.foldl runsStep []

/-- The reservations by base, each its length and pages, and the generation. -/
structure Registry where
  generation : Nat
  reservations : TreeMap Nat (Nat × Stretches)

def Registry.empty : Registry := ⟨0, ∅⟩

def reserved (r : Registry) (base len : Nat) (readable : Bool) : Registry :=
  let stretches : Stretches := Stretches.set ∅ base (saturatingAdd base len) readable
  { generation := r.generation + 1
    reservations := r.reservations.insert base (len, stretches) }

/-- Whether the reservation `(start, held)` shares a byte of `[base, stop)`, as the
loop of `protected` asks. -/
def meets (base stop start held : Nat) : Bool :=
  start < stop && !(saturatingAdd start held ≤ base)

/-- One reservation's pages after a change of protection. -/
def protectStretches (base stop : Nat) (readable : Bool) (start : Nat) (held : Nat)
    (t : Stretches) : Stretches :=
  if meets base stop start held then
    t.set (max base start) (min stop (saturatingAdd start held)) readable
  else t

def protected_ (r : Registry) (base len : Nat) (readable : Bool) : Registry :=
  let stop := saturatingAdd base len
  let changed := r.reservations.toList.any (fun (start, (held, t)) =>
    (protectStretches base stop readable start held t).readableRuns != t.readableRuns)
  { generation := if changed then r.generation + 1 else r.generation
    reservations := r.reservations.map (fun start (held, t) =>
      (held, protectStretches base stop readable start held t)) }

def released (r : Registry) (base : Nat) : Registry :=
  if r.reservations.contains base then
    { generation := r.generation + 1, reservations := r.reservations.erase base }
  else r

def Registry.readableRuns (r : Registry) : List (Nat × Nat) :=
  r.reservations.toList.flatMap (fun e => e.2.2.readableRuns)

/-! ## Runs -/

inductive Op where
  | reserved (base len : Nat) (readable : Bool)
  | protected_ (base len : Nat) (readable : Bool)
  | released (base : Nat)
  deriving DecidableEq, Repr

def step (r : Registry) : Op → Registry
  | .reserved base len readable => Mappings.reserved r base len readable
  | .protected_ base len readable => Mappings.protected_ r base len readable
  | .released base => Mappings.released r base

/-- The registry over whole runs, putting out the operations carried out. -/
def registry : Machine Registry Op Op where
  step r op := (step r op, [op])

end Orbistoun.Mem.Mappings
