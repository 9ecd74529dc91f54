import Orbistoun.Lib.SpanSet
import Orbistoun.Mem.Lazy.Protections

/-! # Memory committed on touch

The registry of reservations committed as they are touched, and the commits over it. The host is
a parameter: its answer about the pages from an address, and its answer to a commit.
-/

namespace Orbistoun.Mem.Lazy

open Std (TreeMap)
open Orbistoun.Lib
open Orbistoun.Lib.Nearest (lastLE)
open Orbistoun.Lib.U64 (saturatingAdd bound)
open Space (Protection)

/-- How much a touch commits at most. -/
def touchChunk : Nat := 64 * 1024

def noAccess : Protection := ⟨false, false, false⟩

/-- The byte spans known committed, `start` to `end`. -/
abbrev Spans := SpanSet

namespace Spans

def covers (t : Spans) (lo hi : Nat) : Bool := SpanSet.covers t lo hi

/-- Adds `[lo, hi)`, joining every span it overlaps or touches. -/
def insert (t : Spans) (lo hi : Nat) : Spans := SpanSet.insert t lo hi

end Spans

/-! ## The host -/

/-- What the host makes of a page. -/
inductive PageState where
  | free
  | reserve
  | commit
  deriving DecidableEq, Repr

/-- `VirtualQuery`: the base, size and state of the pages alike from an address; and
`VirtualAlloc` of reserved pages: whether it commits them. -/
structure Host (σ : Type) where
  virtualQuery : σ → Nat → Option (Nat × Nat × PageState)
  virtualAlloc : σ → Nat → Nat → Protection → Bool × σ

variable {σ : Type}

namespace Host

def query (host : Host σ) (s : σ) (a : Nat) : Option (Nat × PageState) :=
  match host.virtualQuery s a with
  | some (base, size, state) =>
      let runEnd := saturatingAdd base size
      if a < runEnd then some (runEnd, state) else none
  | none => none

/-- Whether the page holding an address is reserved and not committed. -/
def uncommitted (host : Host σ) (s : σ) (address : Nat) : Bool :=
  match host.query s address with
  | some (_, state) => state == .reserve
  | none => false

/-- The pieces of `commitUncommitted` from `a` on: the bytes committed, whether every page is
committed now, and the host after. Each piece is a byte at least, so `fuel` is the bytes left. -/
def commitPieces (host : Host σ) (protection : Protection) (hi : Nat) :
    Nat → σ → Nat → Nat → Bool → (Nat × Bool) × σ
  | 0, s, _, committed, whole => ((committed, whole), s)
  | fuel + 1, s, a, committed, whole =>
      if a < hi then
        match host.query s a with
        | none => ((committed, false), s)
        | some (runEnd, state) =>
            let pieceEnd := min runEnd hi
            match state with
            | .reserve =>
                let (got, s) := host.virtualAlloc s a (pieceEnd - a) protection
                if got then
                  commitPieces host protection hi fuel s pieceEnd (committed + (pieceEnd - a)) whole
                else commitPieces host protection hi fuel s pieceEnd committed false
            | .commit => commitPieces host protection hi fuel s pieceEnd committed whole
            | .free => commitPieces host protection hi fuel s pieceEnd committed false
      else ((committed, whole), s)

/-- Commits the pages of `[lo, hi)` that are reserved and not committed: the bytes committed, and
whether every page of the range is committed now. -/
def commitUncommitted (host : Host σ) (s : σ) (lo hi : Nat) (protection : Protection) :
    (Nat × Bool) × σ :=
  commitPieces host protection hi (hi - lo) s lo 0 true

end Host

/-! ## The registry -/

/-- One reservation committed on touch. -/
structure Lazy where
  len : Nat
  protections : Protections
  /-- Bytes of it committed. -/
  committed : Nat
  /-- The spans of it known committed. -/
  known : Spans

/-- The reservations by base, and the host. -/
structure State (σ : Type) where
  held : TreeMap Nat Lazy
  host : σ

def commitRun (host : Host σ) (acc : Nat × Spans × σ) (run : Nat × Nat × Protection) :
    Nat × Spans × σ :=
  let (committed, known, s) := acc
  let (start, stop, protection) := run
  if protection ≠ noAccess then
    let ((bytes, whole), s) := host.commitUncommitted s start stop protection
    -- known only where every page of the run was found committed or committed now
    (committed + bytes, if whole then known.insert start stop else known, s)
  else (committed, known, s)

/-- Commits the uncommitted pages of `[lo, hi)`, inside a reservation, by its recorded protections;
the bytes committed. -/
def commitIn (host : Host σ) (s : σ) (l : Lazy) (lo hi : Nat) : Nat × Lazy × σ :=
  if l.known.covers lo hi then (0, l, s)
  else
    let (committed, known, s) := (l.protections.runs lo hi).foldl (commitRun host) (0, l.known, s)
    (committed, { l with committed := l.committed + committed, known := known }, s)

namespace State

/-- Records a reservation. -/
def register (st : State σ) (base len : Nat) (protection : Protection) : State σ :=
  let l : Lazy :=
    { len := len
      protections := Protections.new base (saturatingAdd base len) protection
      committed := 0
      known := ∅ }
  { st with held := st.held.insert base l }

/-- Forgets the reservation at `base`, released. -/
def unregister (st : State σ) (base : Nat) : State σ := { st with held := st.held.erase base }

def holding (st : State σ) (address : Nat) : Option (Nat × Lazy) :=
  match lastLE st.held address with
  | some (base, l) => if address < saturatingAdd base l.len then some (base, l) else none
  | none => none

/-- Commits `[lo, hi)` of one reservation; whether it committed anything. -/
def commitPart (host : Host σ) (st : State σ) (base : Nat) (l : Lazy) (lo hi : Nat) :
    Bool × State σ :=
  let out := commitIn host st.host l lo hi
  (decide (0 < out.1), ⟨st.held.insert base out.2.1, out.2.2⟩)

/-- Commits the part of `[base, stop)` in each reservation, latest first, until one lies before. -/
def commitEach (host : Host σ) (base stop : Nat) : List (Nat × Lazy) → State σ → State σ
  | [], st => st
  | (start, l) :: rest, st =>
      let lo := max base start
      let hi := min stop (saturatingAdd start l.len)
      if hi ≤ lo then st
      else commitEach host base stop rest (st.commitPart host start l lo hi).2

/-- Commits every page of `[base, base + len)` lying in a reservation, with the protection
recorded for it. -/
def commit (host : Host σ) (st : State σ) (base len : Nat) : State σ :=
  let stop := saturatingAdd base len
  commitEach host base stop (st.held.toList.filter (fun e => e.1 < stop)).reverse st

/-- Commits the chunk around an address the guest may access and that is not committed; whether
it did. -/
def commitOnTouch (host : Host σ) (st : State σ) (address : Nat) : Bool × State σ :=
  match st.holding address with
  | none => (false, st)
  | some (base, l) =>
      match l.protections.runAt address with
      | none => (false, st)
      | some (runStart, runEnd, protection) =>
          if protection = noAccess ∨ l.known.covers address (saturatingAdd address 1) = true ∨
              host.uncommitted st.host address = false then (false, st)
          else
            let chunk := address - address % touchChunk
            st.commitPart host base l (max (max chunk runStart) base)
              (min (min (saturatingAdd chunk touchChunk) runEnd) (saturatingAdd base l.len))

def protectPart (base stop : Nat) (protection : Protection) (start : Nat) (l : Lazy) : Lazy :=
  let lo := max base start
  let hi := min stop (saturatingAdd start l.len)
  if start < stop ∧ lo < hi then { l with protections := l.protections.set lo hi protection } else l

def protect (st : State σ) (base len : Nat) (protection : Protection) : State σ :=
  { st with held := st.held.map (protectPart base (saturatingAdd base len) protection) }

end State

/-! ## Calls -/

/-- A reservation is made, and released, with the host as it then is. -/
inductive Call (σ : Type) where
  | register (base len : Nat) (protection : Protection) (host : σ)
  | unregister (base : Nat) (host : σ)
  | commit (base len : Nat)
  | touch (address : Nat)
  | protect (base len : Nat) (protection : Protection)

def step (host : Host σ) (st : State σ) : Call σ → State σ × List Bool
  | .register base len protection s => (State.register ⟨st.held, s⟩ base len protection, [])
  | .unregister base s => (State.unregister ⟨st.held, s⟩ base, [])
  | .commit base len => (st.commit host base len, [])
  | .touch address => ((st.commitOnTouch host address).2, [(st.commitOnTouch host address).1])
  | .protect base len protection => (st.protect base len protection, [])

/-- The registry over whole runs of calls. -/
def lazy (host : Host σ) : Machine (State σ) (Call σ) Bool := ⟨step host⟩

end Orbistoun.Mem.Lazy
