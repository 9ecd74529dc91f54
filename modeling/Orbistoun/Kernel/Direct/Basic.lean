import Mathlib.Data.List.Basic
import Mathlib.Tactic
import Orbistoun.Lib.Machine
import Orbistoun.Lib.U64

/-! # Direct memory

The physical range a guest allocates out of, as `direct.rs` keeps it: a list of
regions, each free or taken. Addresses are naturals; where the source computes in
`u64` with a checked or saturating operation, so does the model.
-/

namespace Orbistoun.Kernel.Direct

open Orbistoun.Lib (Machine)
open Orbistoun.Lib.U64

/-- Alignment every direct-memory boundary satisfies: 16 KiB. -/
def directAlign : Nat := 16 * 1024

/-- How much a shape holds back at the bottom of the range. -/
def reservedLow : Nat := 0x10000

/-- One span of the physical range, from `start` to one before `stop`. -/
structure Region where
  start : Nat
  stop : Nat
  allocated : Bool
  memoryType : UInt32
  deriving DecidableEq, Repr

def Region.len (r : Region) : Nat := r.stop - r.start

def Region.isEmpty (r : Region) : Bool := r.stop ≤ r.start

/-- The physical range, and what has been taken from it. -/
structure DirectMemory where
  regions : List Region
  deriving DecidableEq, Repr

/-! ## Shapes -/

/-- How the physical range is laid out before a guest has touched it. -/
inductive MapShape where
  | whole
  | reservedLow
  | fragmented
  | gapped
  deriving DecidableEq, Repr

def taken (start stop : Nat) : Region := ⟨start, stop, true, 0⟩

def free (start stop : Nat) : Region := ⟨start, stop, false, 0⟩

def MapShape.regions (size : Nat) : MapShape → List Region
  | .whole => [free 0 size]
  | .reservedLow =>
      let low := min Direct.reservedLow size
      if low = 0 ∨ low ≥ size then [free 0 size]
      else [taken 0 low, free low size]
  | .gapped =>
      let block := size / 8
      if block = 0 ∨ block * 6 ≥ size then [free 0 size]
      else [free 0 (block * 2), free (block * 4) size]
  | .fragmented =>
      let low := min Direct.reservedLow size
      let block := size / 8
      if low = 0 ∨ block = 0 ∨ low + block * 4 ≥ size then [free 0 size]
      else
        [taken 0 low, free low (low + block * 2), taken (low + block * 2) (low + block * 3),
          free (low + block * 3) size]

def DirectMemory.withShape (size : Nat) (shape : MapShape) : DirectMemory := ⟨shape.regions size⟩

/-- The settings of the pool that `fitted` moves memory between. -/
structure Settings where
  mapShape : MapShape
  poolBytes : Nat
  flexibleBytes : Nat
  deriving DecidableEq, Repr

/-- A title's flexible memory taken from the direct pool or given back to it; a
request larger than the two together leaves the settings as they were. -/
def fitted (settings : Settings) (flexible : Nat) : Settings :=
  let total := saturatingAdd settings.poolBytes settings.flexibleBytes
  if flexible ≤ total then
    { settings with poolBytes := total - flexible, flexibleBytes := flexible }
  else settings

/-! ## Queries -/

def query (m : DirectMemory) (offset : Nat) : Option Region :=
  m.regions.find? (fun r => offset < r.stop && !r.isEmpty)

/-- The guest's walk: each query asks from the end of what the last one saw. The
answer is what was seen when a query found nothing, within `steps` queries. -/
def walk (m : DirectMemory) : Nat → Nat → Option (List Region)
  | 0, _ => none
  | steps + 1, offset =>
      match query m offset with
      | none => some []
      | some r => (walk m steps r.stop).map (r :: ·)

/-- Bytes not yet taken. -/
def available (m : DirectMemory) : Nat :=
  ((m.regions.filter (fun r => !r.allocated)).map Region.len).sum

/-- Bytes taken or held back. -/
def allocatedBytes (m : DirectMemory) : Nat :=
  ((m.regions.filter (fun r => r.allocated)).map Region.len).sum

/-! ## Allocation -/

/-- The first region `p` holds of, with those before it and those after it. -/
def position (p : Region → Bool) : List Region → Option (List Region × Region × List Region)
  | [] => none
  | r :: rest =>
      if p r then some ([], r, rest)
      else (position p rest).map (fun (before, found, after) => (r :: before, found, after))

/-- A free region with `[start, stop)` taken out of it: up to three, empty ones dropped. -/
def carve (region : Region) (start stop : Nat) (memoryType : UInt32) : List Region :=
  [free region.start start, ⟨start, stop, true, memoryType⟩, free stop region.stop].filter
    (fun r => !r.isEmpty)

/-- The regions `allocate` leaves and the address it answers, when it finds a place. -/
def place (m : DirectMemory) (searchStart len : Nat) (memoryType : UInt32) :
    Option (Nat × List Region) := do
  let len ← checkedNextMultipleOf len directAlign
  if len = 0 then none
  else
    let (before, region, after) ← position
      (fun r => !r.allocated && decide (r.stop - max r.start searchStart ≥ len)) m.regions
    let start ← checkedNextMultipleOf (max region.start searchStart) directAlign
    let stop ← checkedAdd start len
    if stop > region.stop then none
    else some (start, before ++ carve region start stop memoryType ++ after)

/-- Takes `len` bytes, first fit, searching from `searchStart`. -/
def allocate (m : DirectMemory) (searchStart len : Nat) (memoryType : UInt32) :
    DirectMemory × Option Nat :=
  match place m searchStart len memoryType with
  | some (start, regions) => (⟨regions⟩, some start)
  | none => (m, none)

theorem countP_after_lt {regions : List Region} {search : Nat} {region : Region}
    (h : regions.find? (fun r => !r.allocated && search < r.stop && !r.isEmpty) = some region) :
    regions.countP (fun r => decide (region.stop < r.stop)) <
      regions.countP (fun r => decide (search < r.stop)) := by
  have hfound := List.find?_some h
  simp only [Bool.and_eq_true, decide_eq_true_eq] at hfound
  have hmem := List.mem_of_find?_eq_some h
  obtain ⟨before, after, hsplit⟩ := List.append_of_mem hmem
  have hmono : ∀ l : List Region, l.countP (fun r => decide (region.stop < r.stop)) ≤
      l.countP (fun r => decide (search < r.stop)) := by
    intro l
    refine List.countP_mono_left (fun r _ hr => ?_)
    simp only [decide_eq_true_eq] at hr ⊢
    omega
  have hbefore := hmono before
  have hafter := hmono after
  rw [hsplit, List.countP_append, List.countP_append, List.countP_cons_of_neg (by simp),
    List.countP_cons_of_pos (by simp [hfound.1.2])]
  omega

/-- The candidate starts `allocate_aligned_from` walks, region by region. -/
def alignedStart (regions : List Region) (search len align : Nat) : Option Nat :=
  match _hfound : regions.find? (fun r => !r.allocated && search < r.stop && !r.isEmpty) with
  | none => none
  | some region =>
      match checkedNextMultipleOf (max region.start search) align,
          checkedNextMultipleOf len directAlign with
      | some start, some len' =>
          match checkedAdd start len' with
          | some stop =>
              if stop ≤ region.stop then some start
              else alignedStart regions region.stop len align
          | none => none
      | _, _ => none
  termination_by regions.countP (fun r => decide (search < r.stop))
  decreasing_by exact countP_after_lt _hfound

/-- Takes `len` bytes at a caller-chosen alignment, at or past `searchStart`. -/
def allocateAlignedFrom (m : DirectMemory) (searchStart len align : Nat) (memoryType : UInt32) :
    DirectMemory × Option Nat :=
  let align := max align directAlign
  if !isPowerOfTwo align then (m, none)
  else
    match alignedStart m.regions searchStart len align with
    | some start => allocate m start len memoryType
    | none => (m, none)

def allocateAligned (m : DirectMemory) (len align : Nat) (memoryType : UInt32) :
    DirectMemory × Option Nat :=
  allocateAlignedFrom m 0 len align memoryType

/-! ## Release -/

/-- One turn of `merge_free`'s loop. -/
def mergeStep (merged : List Region) (region : Region) : List Region :=
  match merged.getLast? with
  | some previous =>
      if !previous.allocated && !region.allocated && previous.stop == region.start then
        merged.dropLast ++ [{ previous with stop := region.stop }]
      else merged ++ [region]
  | none => merged ++ [region]

def mergeFree (regions : List Region) : List Region := regions.foldl mergeStep []

def release (m : DirectMemory) (start len : Nat) : DirectMemory × Bool :=
  let stop := saturatingAdd start len
  match position (fun r => r.allocated && r.start == start && r.stop == stop) m.regions with
  | none => (m, false)
  | some (before, region, after) =>
      (⟨mergeFree (before ++ { region with allocated := false, memoryType := 0 } :: after)⟩, true)

/-! ## Runs -/

inductive Call where
  | allocate (searchStart len : Nat) (memoryType : UInt32)
  | allocateAligned (len align : Nat) (memoryType : UInt32)
  | allocateAlignedFrom (searchStart len align : Nat) (memoryType : UInt32)
  | release (start len : Nat)

/-- What a call answers: an address, or whether the span was given back. -/
inductive Answer where
  | address (start : Option Nat)
  | released (done : Bool)
  deriving DecidableEq, Repr

def directMap : Machine DirectMemory Call Answer where
  step m
    | .allocate searchStart len memoryType =>
        let (m, start) := allocate m searchStart len memoryType
        (m, [.address start])
    | .allocateAligned len align memoryType =>
        let (m, start) := allocateAligned m len align memoryType
        (m, [.address start])
    | .allocateAlignedFrom searchStart len align memoryType =>
        let (m, start) := allocateAlignedFrom m searchStart len align memoryType
        (m, [.address start])
    | .release start len =>
        let (m, done) := release m start len
        (m, [.released done])

section
variable (m : DirectMemory) (searchStart len align : Nat) (memoryType : UInt32)

theorem step_allocate : (directMap.step m (.allocate searchStart len memoryType)).1 =
    (allocate m searchStart len memoryType).1 := by
  -- What `allocate` answers is kept closed: a step over it is compared without running it.
  generalize hout : allocate m searchStart len memoryType = out
  rw [directMap]
  dsimp only
  rw [hout]

theorem step_allocateAlignedFrom :
    (directMap.step m (.allocateAlignedFrom searchStart len align memoryType)).1 =
      (allocateAlignedFrom m searchStart len align memoryType).1 := by
  simp only [directMap]

theorem step_allocateAligned : (directMap.step m (.allocateAligned len align memoryType)).1 =
    (allocateAlignedFrom m 0 len align memoryType).1 := by
  simp only [directMap, allocateAligned]

end

end Orbistoun.Kernel.Direct
