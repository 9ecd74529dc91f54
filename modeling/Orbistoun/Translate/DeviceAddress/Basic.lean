import Mathlib.Tactic
import Orbistoun.Lib.Slices
import Orbistoun.Lib.U64

/-! # The device-address table

A device-addressed dispatch reaches guest memory by device address. The host lays the guest's
mappings out as chunks in a table of slots, found by hash and a bounded probe that never wraps;
the module probes the same slots, and marks the ones it writes and touches. Slot indices are 32-bit
words and addresses 64-bit ones, as a release build has them.
-/

namespace Orbistoun.Translate.DeviceAddress

open Orbistoun.Lib

def HEADER_WORDS : Nat := 4

/-- The words of a slot: a chunk's number, then what a guest address in it adds, halves low first. -/
def SLOT_WORDS : Nat := 4

def MARK_SINK_WORDS : Nat := 4

def PROBES : Nat := 4

/-- An unused slot's chunk high half. -/
def EMPTY : Nat := 2 ^ 32 - 1

def CHUNK_HASH : Nat := 0x9e3779b1

def MOST_CHUNK_SHIFT : Nat := 16

def LEAST_CHUNK_SHIFT : Nat := 12

def MOST_BITS : Nat := 28

/-- The trailing zeros of a word of a width; the width itself for zero. -/
def trailingZeros : Nat → Nat → Nat
  | 0, _ => 0
  | width + 1, x => if x % 2 = 1 then 0 else trailingZeros width (x / 2) + 1

def nextPowerOfTwo (n : Nat) : Nat := 2 ^ Nat.clog 2 n

def chunkSlot (chunk bits : Nat) : Nat :=
  let mixed := (chunk % 2 ^ 32) ^^^ (chunk / 2 ^ 32 % 2 ^ 32)
  mixed * CHUNK_HASH % 2 ^ 32 / 2 ^ (32 - max 1 (min bits 31))

structure Mapped where
  guest : Nat
  len : Nat
  device : Nat
  guest_lt : guest < U64.bound
  len_lt : len < U64.bound
  device_lt : device < U64.bound
  deriving DecidableEq

inductive TableError where
  | Overlap (first second : Nat)
  | Misaligned (guest len : Nat)
  | TooLarge (chunks : Nat)
  deriving DecidableEq

structure Table where
  words : List Nat
  bits : Nat
  shift : Nat
  deriving DecidableEq

/-- A word of a slot, at its index in the table as 32-bit arithmetic forms it. -/
def slotWord (slot word : Nat) : Nat := (HEADER_WORDS + slot * SLOT_WORDS + word) % 2 ^ 32

/-- The 64-bit word whose halves lie from an index. -/
def held (words : List Nat) (index : Nat) : Nat :=
  words.getD index 0 ||| (words.getD (index + 1) 0 <<< 32)

def lowHalf (x : Nat) : Nat := x % 2 ^ 32

def highHalf (x : Nat) : Nat := x / 2 ^ 32 % 2 ^ 32

/-! ## Building -/

/-- The coarsest chunk every mapping's start and length keep. -/
def chunkShift : Nat → List Mapped → Except TableError Nat
  | shift, [] => .ok shift
  | shift, mapping :: rest =>
    let alignment := trailingZeros 64 (mapping.guest ||| mapping.len)
    if mapping.len = 0 ∨ alignment < LEAST_CHUNK_SHIFT then
      .error (.Misaligned mapping.guest mapping.len)
    else chunkShift (min shift alignment) rest

/-- Each mapping of a sorted list ends at or before the next. -/
def apart : List Mapped → Except TableError Unit
  | first :: second :: rest =>
    if U64.saturatingAdd first.guest first.len > second.guest then
      .error (.Overlap first.guest second.guest)
    else apart (second :: rest)
  | _ => .ok ()

/-- The chunks of one mapping, each with what a guest address in it adds. The end of a mapping is a
sum of 64-bit words, so one that ends at the top of the address space ends at zero. -/
def Mapped.chunks (shift : Nat) (mapping : Mapped) : List (Nat × Nat) :=
  let delta := (mapping.device + U64.bound - mapping.guest) % U64.bound
  let first := mapping.guest / 2 ^ shift
  let last := (mapping.guest + mapping.len) % U64.bound / 2 ^ shift
  (List.range' first (last - first)).map (fun chunk => (chunk, delta))

/-- The words of a table of empty slots. -/
def cleared (bits : Nat) : List Nat :=
  List.replicate HEADER_WORDS 0 ++
    (List.replicate (2 ^ bits + PROBES - 1) [0, EMPTY, 0, 0]).flatten

/-- The first slot a chunk may take: the first empty one of its probes. -/
def freeSlot (bits : Nat) (words : List Nat) (chunk : Nat) : Option Nat :=
  ((List.range PROBES).map (chunkSlot chunk bits + ·)).find?
    (fun slot => decide (words.getD (slotWord slot 1) 0 = EMPTY))

/-- Chunks placed in turn, each in the first empty slot of its probes. -/
def placeFrom (bits : Nat) : List Nat → List (Nat × Nat) → Option (List Nat)
  | words, [] => some words
  | words, (chunk, delta) :: chunks =>
    match freeSlot bits words chunk with
    | none => none
    | some free => placeFrom bits (Slices.put words (slotWord free 0)
        [lowHalf chunk, highHalf chunk, lowHalf delta, highHalf delta]) chunks

def place (bits : Nat) (chunks : List (Nat × Nat)) : Option (List Nat) :=
  placeFrom bits (cleared bits) chunks

/-- The table of the fewest slots that place every chunk, and how many more doublings may be
tried. -/
def fit (chunks : List (Nat × Nat)) (shift : Nat) : Nat → Nat → Except TableError Table
  | tries, bits =>
    match place bits chunks with
    | some words => .ok { words := words, bits := bits, shift := shift }
    | none =>
      match tries with
      | 0 => .error (.TooLarge chunks.length)
      | tries + 1 => fit chunks shift tries (bits + 1)

/-- The first size tried: twice as many homes as chunks. -/
def firstBits (count : Nat) : Nat :=
  max (trailingZeros 64 (nextPowerOfTwo (max count 1 * 2))) 1

def build (mapped : List Mapped) : Except TableError Table := do
  let sorted := mapped.insertionSort (fun one other => one.guest ≤ other.guest)
  let shift ← chunkShift MOST_CHUNK_SHIFT sorted
  apart sorted
  let chunks := sorted.flatMap (Mapped.chunks shift)
  let bits := firstBits chunks.length
  fit chunks shift (MOST_BITS - bits) bits

namespace Table

variable (table : Table)

/-- Homes and the slots past the last, a 32-bit shift whose count wraps at 32. -/
def slots : Nat := (2 ^ (table.bits % 32) + PROBES - 1) % 2 ^ 32

/-! ## Looking up -/

def slotOf (guest : Nat) : Option Nat :=
  let chunk := guest / 2 ^ table.shift
  ((List.range PROBES).map (chunkSlot chunk table.bits + ·)).find? (fun slot =>
    decide (slotWord slot 0 + 2 ≤ table.words.length ∧
      table.words.getD (slotWord slot 0 + 1) 0 ≠ EMPTY ∧
      held table.words (slotWord slot 0) = chunk))

/-- The device address of a guest address, as the module looks it up. -/
def lookup (guest : Nat) : Option Nat :=
  let chunk := guest / 2 ^ table.shift
  let home := chunkSlot chunk table.bits
  (List.range PROBES).findSome? (fun probe =>
    let index := slotWord (home + probe) 0
    if index + SLOT_WORDS ≤ table.words.length then
      if table.words.getD (index + 1) 0 ≠ EMPTY ∧ held table.words index = chunk then
        some ((guest + held table.words (index + 2)) % U64.bound)
      else none
    else none)

/-- What a guest address in a chunk adds to reach its copy. -/
def redirectDelta (guest device : Nat) : Nat :=
  let base := guest / 2 ^ table.shift * 2 ^ table.shift
  (device + U64.bound - base) % U64.bound

/-- The table with the place a slot's chunk is reached at written over. -/
def withDelta (slot delta : Nat) : Table :=
  { table with
    words := Slices.put table.words (slotWord slot 2) [lowHalf delta, highHalf delta] }

/-- Points the chunk of a guest address at a copy of it; whether the table holds the chunk. -/
def redirect (guest device : Nat) : Bool × Table :=
  (table.slotOf guest).elim (false, table)
    (fun slot => (true, table.withDelta slot (table.redirectDelta guest device)))

/-! ## Marks -/

/-- The chunks of the slots marked from one on, until a slot past the words, with the marks
cleared. Of each slot the words looked for are as many as the width. -/
def takeMarked (width : Nat) : Nat → List Nat → List Nat × List Nat
  | _, [] => ([], [])
  | slot, mark :: marks =>
    if mark = 0 then
      ((takeMarked width (slot + 1) marks).1, 0 :: (takeMarked width (slot + 1) marks).2)
    else if slotWord slot 0 + width ≤ table.words.length then
      if table.words.getD (slotWord slot 0 + 1) 0 ≠ EMPTY then
        (held table.words (slotWord slot 0) :: (takeMarked width (slot + 1) marks).1,
          0 :: (takeMarked width (slot + 1) marks).2)
      else ((takeMarked width (slot + 1) marks).1, 0 :: (takeMarked width (slot + 1) marks).2)
    else ([], 0 :: marks)

def base (chunk : Nat) : Nat := chunk * 2 ^ table.shift % U64.bound

/-- The first guest address of each chunk touched, and the marks with the touched ones cleared. -/
def takeTouched (marks : List Nat) : List Nat × List Nat :=
  let start := MARK_SINK_WORDS + table.slots
  let taken := table.takeMarked 2 0 (marks.drop start)
  ((taken.1.map table.base).insertionSort (· ≤ ·), marks.take start ++ taken.2)

/-- The guest ranges of the chunks written, and the marks with the written ones and the sink
cleared. -/
def takeWritten (marks : List Nat) : List (Nat × Nat) × List Nat :=
  let sink := min MARK_SINK_WORDS marks.length
  let own := (marks.drop sink).take table.slots
  let taken := table.takeMarked SLOT_WORDS 0 own
  ((taken.1.map (fun chunk => (table.base chunk, 2 ^ table.shift))).insertionSort
      (fun one other => one.1 < other.1 ∨ one.1 = other.1 ∧ one.2 ≤ other.2),
    List.replicate sink 0 ++ taken.2 ++ (marks.drop sink).drop table.slots)

def redirected (redirects : List (Nat × Nat)) : Table :=
  redirects.foldl (fun table redirect => (table.redirect redirect.1 redirect.2).2) table

end Table

theorem redirect_none {table : Table} {guest device : Nat} (hslot : table.slotOf guest = none) :
    table.redirect guest device = (false, table) := by
  rw [Table.redirect, hslot]
  rfl

theorem redirect_some {table : Table} {guest device slot : Nat}
    (hslot : table.slotOf guest = some slot) :
    table.redirect guest device =
      (true, table.withDelta slot (table.redirectDelta guest device)) := by
  rw [Table.redirect, hslot]
  rfl

end Orbistoun.Translate.DeviceAddress
