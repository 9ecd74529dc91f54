import Orbistoun.Lib.Machine
import Orbistoun.Lib.Nearest
import Orbistoun.Lib.Tiling
import Orbistoun.Lib.U64

/-! # Guest memory the device addresses directly

The guest's readable runs are taken up one by one: the pieces of a run whose host pages are
committed, private and read-write are imported into the device, and what is between them is
left out until it is committed. A table over the imports is placed for the device, built
again whenever they change.
-/

namespace Orbistoun.GpuVulkan.Direct

open Std (TreeMap)
open Orbistoun.Lib
open Orbistoun.Lib.U64 (saturatingAdd bound)

/-- A guest range imported into the device, with its device address; each import made has a
number of its own. -/
structure Imported where
  base : Nat
  len : Nat
  device : Nat
  serial : Nat
  deriving DecidableEq, Repr

/-- `Mapped`: the table is told by the imports it was built from. -/
structure Mapped where
  generation : Option Nat := none
  pages : Option Nat := none
  runs : TreeMap Nat Nat := ∅
  imports : TreeMap Nat Imported := ∅
  leftOut : TreeMap Nat Nat := ∅
  table : Option (List Imported) := none
  /-- How many imports were ever made. -/
  made : Nat := 0

/-- The span a piece left out is mapped in once any of its pages is committed. -/
def LEFT_OUT_CELL : Nat := 2 <<< 20

def nextMultipleOf (x m : Nat) : Nat := (x + m - 1) / m * m

def gapsLoop (stop : Nat) : Nat → List (Nat × Nat) → List (Nat × Nat)
  | cursor, [] => if cursor < stop then [(cursor, stop - cursor)] else []
  | cursor, (start, heldEnd) :: rest =>
      (if cursor < start then [(cursor, start - cursor)] else []) ++
        gapsLoop stop (max cursor heldEnd) rest

/-- The parts of a run none of `held` covers. -/
def gaps (run : Nat × Nat) (held : List (Nat × Nat)) : List (Nat × Nat) :=
  gapsLoop (saturatingAdd run.1 run.2) run.1 held

/-- The cells a committed piece of a gap touches, cut to the gap, as where they start and
end. -/
def cellWindow (gap piece : Nat × Nat) : Nat × Nat :=
  (max (piece.1 / LEFT_OUT_CELL * LEFT_OUT_CELL) gap.1,
    min (nextMultipleOf (saturatingAdd piece.1 piece.2) LEFT_OUT_CELL) (saturatingAdd gap.1 gap.2))

/-- Whether a range ends before another or starts behind it. -/
def clearOf (base stop start len : Nat) : Bool := saturatingAdd start len ≤ base || stop ≤ start

/-- Drops the device's imports over a range before its host memory is released. -/
def Mapped.release (s : Mapped) (base len : Nat) : Mapped :=
  let stop := saturatingAdd base len
  let imports := s.imports.filter (fun start i => clearOf base stop start i.len)
  let runs := s.runs.filter (fun start len => clearOf base stop start len)
  let leftOut := s.leftOut.filter (fun start len => clearOf base stop start len)
  { s with
    imports, runs, leftOut
    generation :=
      if (imports.size, runs.size) ≠ (s.imports.size, s.runs.size) then none else s.generation }

/-! ## What a sync is answered -/

/-- Pieces of the range asked about, one behind another. -/
structure PiecesOf (base len : Nat) (pieces : List (Nat × Nat)) : Prop where
  ordered : pieces.Pairwise (fun p q => p.1 + p.2 ≤ q.1)
  inside : ∀ p ∈ pieces, base ≤ p.1 ∧ p.1 + p.2 ≤ base + len

/-- What guest memory, the host and the driver answer one `sync`. Pages are committed and
imports refused as it goes, so what is asked of the pieces left out has answers of its own. -/
structure Answers where
  alignment : Option Nat
  pages : Nat
  /-- The generation read first, and the one the readable runs are of. -/
  generationRead : Nat
  generation : Nat
  readableRuns : List (Nat × Nat)
  writableRuns : Nat → Nat → List (Nat × Nat)
  takes : Nat → Nat → Option Nat
  committedRuns : Nat → Nat → List (Nat × Nat)
  writableLater : Nat → Nat → List (Nat × Nat)
  takesLater : Nat → Nat → Option Nat
  built : Bool
  placed : Bool
  pushed : Bool
  runs_apart : readableRuns.Pairwise (fun r r' => r.1 + r.2 ≤ r'.1 ∨ r'.1 + r'.2 ≤ r.1)
  runs_fit : ∀ r ∈ readableRuns, 0 < r.2 ∧ r.1 + r.2 ≤ bound - 1
  writable_pieces : ∀ base len, PiecesOf base len (writableRuns base len)
  committed_pieces : ∀ base len, PiecesOf base len (committedRuns base len)
  later_pieces : ∀ base len, PiecesOf base len (writableLater base len)

/-- Why a `sync` fails. -/
inductive DispatchError where
  | notAddressed
  | notBuilt
  | notPlaced
  | noTable
  deriving DecidableEq, Repr

def Answers.wanted (e : Answers) (alignment : Nat) : TreeMap Nat Nat :=
  (∅ : TreeMap Nat Nat).insertMany
    (e.readableRuns.filter (fun r => r.1 % alignment == 0 && r.2 % alignment == 0))

/-! ## Taking up runs -/

/-- The loop over writable pieces: the aligned part of each imported, where the driver takes
it, and the parts that were as where they start and end. -/
def importPieces (takes : Nat → Nat → Option Nat) (alignment : Nat) :
    List (Nat × Nat) → TreeMap Nat Imported → Nat →
      TreeMap Nat Imported × Nat × List (Nat × Nat)
  | [], imports, made => (imports, made, [])
  | (start, piece) :: rest, imports, made =>
      let first := nextMultipleOf start alignment
      let last := (start + piece) / alignment * alignment
      if last ≤ first then importPieces takes alignment rest imports made
      else
        match takes first (last - first) with
        | some device =>
            let later := importPieces takes alignment rest
              (imports.insert first ⟨first, last - first, device, made⟩) (made + 1)
            (later.1, later.2.1, (first, last) :: later.2.2)
        | none => importPieces takes alignment rest imports made

def Mapped.takeUp (e : Answers) (alignment : Nat) (s : Mapped) (run : Nat × Nat) : Mapped :=
  if s.runs.contains run.1 then s
  else
    let taken := importPieces e.takes alignment (e.writableRuns run.1 run.2) s.imports s.made
    { s with
      imports := taken.1
      made := taken.2.1
      leftOut := s.leftOut.insertMany (gaps run taken.2.2)
      runs := s.runs.insert run.1 run.2 }

/-- Whether the run nearest below a range holds all of it. -/
def inRuns (runs : TreeMap Nat Nat) (start len : Nat) : Bool :=
  match Nearest.lastLE runs start with
  | some (base, runLen) => saturatingAdd start len ≤ saturatingAdd base runLen
  | none => false

/-- Drops what the runs wanted no longer hold. -/
def Mapped.retain (s : Mapped) (wanted : TreeMap Nat Nat) : Mapped :=
  let runs := s.runs.filter (fun base len => wanted[base]? == some len)
  { s with
    runs
    imports := s.imports.filter (fun start i => inRuns runs start i.len)
    leftOut := s.leftOut.filter (fun start len => inRuns runs start len) }

/-- The first part of `sync`: the imports brought up to the guest's readable runs. -/
def Mapped.takeUpRuns (s : Mapped) (e : Answers) (alignment : Nat) : Mapped :=
  let wanted := e.wanted alignment
  { wanted.toList.foldl (Mapped.takeUp e alignment) (s.retain wanted) with
    generation := some e.generation }

/-! ## Mapping what was left out -/

/-- A window behind the ones found, joined to the last of them where they touch; the last
comes first here. -/
def addWindow (windows : List (Nat × Nat)) (window : Nat × Nat) : List (Nat × Nat) :=
  match windows with
  | (start, last) :: older =>
      if window.1 ≤ last then (start, max last window.2) :: older else window :: windows
  | [] => [window]

def windowsOf (leftOut : TreeMap Nat Nat) (committedRuns : Nat → Nat → List (Nat × Nat)) :
    List (Nat × Nat) :=
  ((leftOut.toList.flatMap (fun gap => (committedRuns gap.1 gap.2).map (cellWindow gap))).foldl
    addWindow []).reverse

def importWindows (e : Answers) (alignment : Nat) :
    List (Nat × Nat) → TreeMap Nat Imported → Nat →
      TreeMap Nat Imported × Nat × List (Nat × Nat)
  | [], imports, made => (imports, made, [])
  | (start, stop) :: rest, imports, made =>
      let here :=
        importPieces e.takesLater alignment (e.writableLater start (stop - start)) imports made
      let later := importWindows e alignment rest here.1 here.2.1
      (later.1, later.2.1, here.2.2 ++ later.2.2)

/-- The imports that start in a range, as where they start and end. -/
def importsIn (imports : TreeMap Nat Imported) (base len : Nat) : List (Nat × Nat) :=
  (imports.toList.filter (fun i => base ≤ i.1 && i.1 < saturatingAdd base len)).map
    (fun i => (i.1, saturatingAdd i.1 i.2.len))

/-- Maps what has become mappable of the pieces left out, and whether anything has. -/
def Mapped.mapLeftOut (s : Mapped) (e : Answers) (alignment : Nat) : Mapped × Bool :=
  let mapped := importWindows e alignment (windowsOf s.leftOut e.committedRuns) s.imports s.made
  if mapped.2.2.isEmpty then (s, false)
  else
    ({ s with
      imports := mapped.1
      made := mapped.2.1
      leftOut := (∅ : TreeMap Nat Nat).insertMany
        (s.leftOut.toList.flatMap (fun gap => gaps gap (importsIn mapped.1 gap.1 gap.2))) }, true)

/-! ## A sync, and what else happens -/

/-- Whether the readable runs are looked at. -/
def Mapped.behind (s : Mapped) (e : Answers) : Bool :=
  s.generation != some e.generationRead || s.table.isNone

/-- The imports brought up to date, and whether the table is built again. -/
def Mapped.remap (s : Mapped) (e : Answers) (alignment : Nat) : Mapped × Bool :=
  let taken := if s.behind e then s.takeUpRuns e alignment else s
  if taken.pages != some e.pages then
    let mapped := taken.mapLeftOut e alignment
    ({ mapped.1 with pages := some e.pages }, s.behind e || mapped.2)
  else (taken, s.behind e)

def Mapped.push (s : Mapped) (e : Answers) : Mapped × Except DispatchError (List Imported) :=
  match s.table with
  | some table => if e.pushed then (s, .ok table) else (s, .error .noTable)
  | none => (s, .error .noTable)

/-- Brings the imports and the table up to the guest's readable runs. -/
def Mapped.sync (s : Mapped) (e : Answers) : Mapped × Except DispatchError (List Imported) :=
  match e.alignment with
  | none => (s, .error .notAddressed)
  | some alignment =>
      let mapped := (s.remap e alignment).1
      if (s.remap e alignment).2 then
        if !e.built then (mapped, .error .notBuilt)
        else if !e.placed then ({ mapped with table := none }, .error .notPlaced)
        else { mapped with table := some (mapped.imports.toList.map Prod.snd) }.push e
      else mapped.push e

/-- What happens to the mappings. A page committed changes only what is answered later. -/
inductive Act where
  | sync (answers : Answers)
  | commitEscaped (page : Nat)
  | release (base len : Nat)

def machine : Machine Mapped Act (Except DispatchError (List Imported)) where
  step s
    | .sync e => ((s.sync e).1, [(s.sync e).2])
    | .commitEscaped _ => (s, [])
    | .release base len => (s.release base len, [])

end Orbistoun.GpuVulkan.Direct
