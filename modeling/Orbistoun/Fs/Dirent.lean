import Orbistoun.Lib.Codes
import Orbistoun.Lib.Slices

/-! # Reading a directory through its descriptor

A directory's listing is taken when it is opened and walked from there, in records of one of
two layouts. A guest that walks the records by their lengths finds every entry once.
-/

namespace Orbistoun.Fs.Dirent

open Orbistoun.Lib.Codes
open Orbistoun.Lib.Slices

abbrev Text := List UInt8

/-- A name, and whether it is a directory's. -/
abbrev Entry := Text × Bool

def DT_DIR : UInt8 := 4

def DT_REG : UInt8 := 8

/-- A directory descriptor's entries and how far a guest has read them. -/
structure Listing where
  entries : List Entry
  next : Nat
  deriving DecidableEq, Repr

/-- Open directory descriptors' listings. -/
abbrev Listings := Nat → Option Listing

/-- Which `struct dirent` a call writes. -/
inductive Generation where
  /-- FreeBSD 12's, rounded to 8. -/
  | current
  /-- FreeBSD 11's, rounded to 4. -/
  | freeBsd11
  deriving DecidableEq, Repr

namespace Generation

/-- Where the name starts in a record. -/
def nameAt : Generation → Nat
  | current => 24
  | freeBsd11 => 8

/-- A record's length for a name of a length: header, name, terminator, rounded up. -/
def record (g : Generation) (len : Nat) : Nat :=
  let unrounded := g.nameAt + len + 1
  match g with
  | current => (unrounded + 7) / 8 * 8
  | freeBsd11 => (unrounded + 3) / 4 * 4

end Generation

def slotOf (g : Generation) (entry : Entry) (index : Nat) : Text :=
  let name := entry.1.take 255
  let record := g.record name.length
  let slot := List.replicate record 0
  -- A reader skips records with a zero inode.
  let inode := index + 1
  let kind := if entry.2 then DT_DIR else DT_REG
  let reclen := min record 65535
  let slot :=
    match g with
    | .current =>
        let slot := put slot 0 (littleEndian 8 inode)
        let slot := put slot 8 (littleEndian 8 (index + 1))
        let slot := put slot 16 (littleEndian 2 reclen)
        let slot := put slot 18 [kind]
        put slot 20 (littleEndian 2 (if name.length < 65536 then name.length else 255))
    | .freeBsd11 =>
        let slot := put slot 0 (littleEndian 4 (min inode (2 ^ 32 - 1)))
        let slot := put slot 4 (littleEndian 2 reclen)
        let slot := put slot 6 [kind]
        put slot 7 [UInt8.ofNat (min name.length 255)]
  put slot g.nameAt name

/-- Writes records while they fit: the bytes written, the first entry left, the buffer. -/
def encode (g : Generation) : List Entry → Nat → Nat → Text → Nat × Nat × Text
  | [], index, at', buffer => (at', index, buffer)
  | entry :: entries, index, at', buffer =>
      let record := g.record (entry.1.take 255).length
      if at' + record ≤ buffer.length then
        encode g entries (index + 1) (at' + record) (put buffer at' (slotOf g entry index))
      else (at', index, buffer)

/-! ## A call -/

inductive Reply where
  | failed
  /-- The bytes written, the buffer, and the position stored where one is asked for. -/
  | wrote (written : Nat) (buffer : Text) (base : Option Nat)
  deriving DecidableEq, Repr

/-- What a guest asks for: a buffer named by null is none. -/
structure Call where
  fd : Nat
  buffer : Option Text
  basep : Bool
  generation : Generation
  deriving DecidableEq, Repr

/-- What a guest finds in a record. -/
structure Record where
  inode : Nat
  kind : UInt8
  name : Text
  deriving DecidableEq, Repr

/-- A number in a record. -/
def field (bytes : Text) (at' width : Nat) : Nat := ofLittleEndian (slice bytes at' width)

def reclenOf (g : Generation) (bytes : Text) : Nat :=
  match g with
  | .current => field bytes 16 2
  | .freeBsd11 => field bytes 4 2

def namlenOf (g : Generation) (bytes : Text) : Nat :=
  match g with
  | .current => field bytes 20 2
  | .freeBsd11 => field bytes 7 1

def recordOf (g : Generation) (bytes : Text) : Record :=
  match g with
  | .current =>
      ⟨field bytes 0 8, UInt8.ofNat (field bytes 18 1), slice bytes g.nameAt (namlenOf g bytes)⟩
  | .freeBsd11 =>
      ⟨field bytes 0 4, UInt8.ofNat (field bytes 6 1), slice bytes g.nameAt (namlenOf g bytes)⟩

/-- The records of some bytes, each as long as it says: none where one is not whole. -/
def walk (g : Generation) : Nat → Text → Option (List Record)
  | _, [] => some []
  | 0, _ :: _ => none
  | fuel + 1, b :: rest =>
      let bytes := b :: rest
      let reclen := reclenOf g bytes
      -- The name and its terminator are within the record, and that within the bytes.
      if g.nameAt + namlenOf g bytes < reclen ∧ reclen ≤ bytes.length then
        (walk g fuel (bytes.drop reclen)).map (recordOf g bytes :: ·)
      else none

def decode (g : Generation) (bytes : Text) : Option (List Record) := walk g bytes.length bytes

def recordFor (g : Generation) (entry : Entry) (index : Nat) : Record :=
  ⟨match g with
    | .current => index + 1
    | .freeBsd11 => min (index + 1) (2 ^ 32 - 1),
    if entry.2 then DT_DIR else DT_REG, entry.1⟩

def numbered (g : Generation) : List Entry → Nat → List Record
  | [], _ => []
  | entry :: entries, index => recordFor g entry index :: numbered g entries (index + 1)

/-- Their bytes. -/
def slots (g : Generation) : List Entry → Nat → Text
  | [], _ => []
  | entry :: entries, index => slotOf g entry index ++ slots g entries (index + 1)

/-- A descriptor's listing, and where it is read from. -/
structure Open (open' : Listings) (fd : Nat) (entries : List Entry) (next : Nat) : Prop where
  listed : open' fd = some ⟨entries, next⟩
  within : next ≤ entries.length

/-- What a call on a descriptor does to its listing and answers. -/
inductive Outcome (entries : List Entry) (next : Nat) (c : Call) (open' : Listings) :
    Reply × Listings → Prop
  /-- Nothing changes; there is no buffer, or no room for the next record in it. -/
  | refused (reason : c.buffer = none ∨
      ∃ buffer, c.buffer = some buffer ∧ ∃ h : next < entries.length,
        buffer.length < c.generation.record entries[next].1.length) :
      Outcome entries next c open' (.failed, open')
  /-- So many entries are written, at least one where any is left, and read past. -/
  | read (taken : Nat) (buffer bytes : Text) (base : Option Nat) (given : c.buffer = some buffer)
      (within : next + taken ≤ entries.length) (some' : next < entries.length → 0 < taken)
      (same : bytes.length = buffer.length)
      (inside : (slots c.generation ((entries.drop next).take taken) next).length ≤ buffer.length)
      (written : bytes.take (slots c.generation ((entries.drop next).take taken) next).length =
        slots c.generation ((entries.drop next).take taken) next) :
      Outcome entries next c open'
        (.wrote (slots c.generation ((entries.drop next).take taken) next).length bytes base,
          Function.update open' c.fd (some ⟨entries, next + taken⟩))

def Record.entry (r : Record) : Text × UInt8 := (r.name, r.kind)

def listed (e : Entry) : Text × UInt8 := (e.1, if e.2 then DT_DIR else DT_REG)

structure Lists (entries : List Entry) (records : List Record) : Prop where
  entries : records.map Record.entry = entries.map listed
  inodes : ∀ r ∈ records, r.inode ≠ 0

theorem Lists.append {entries more : List Entry} {records others : List Record}
    (h : Lists entries records) (h' : Lists more others) :
    Lists (entries ++ more) (records ++ others) := by
  constructor
  · rw [List.map_append, List.map_append, h.entries, h'.entries]
  · intro r hr
    rcases List.mem_append.mp hr with hr | hr
    · exact h.inodes r hr
    · exact h'.inodes r hr

def answers (fd : Nat) (replies : List (Call × Reply)) : Nat :=
  replies.countP fun r => r.1.fd = fd ∧ r.2 ≠ .failed

/-- No buffer, or one with no room for the record of the entry a listing stands at. -/
def Refuses (entries : List Entry) (next : Nat) (c : Call) : Prop :=
  c.buffer = none ∨ ∃ buffer, c.buffer = some buffer ∧ ∃ h : next < entries.length,
    buffer.length < c.generation.record entries[next].1.length

/-- What a call on a descriptor answers and leaves: a refusal changes nothing and has its
reason, and any other call writes whole records of the entries that come next, at least one
while any is left. -/
structure Serves (entries : List Entry) (next : Nat) (c : Call) (open' : Listings)
    (result : Reply × Listings) : Prop where
  refuses : result.1 = .failed ↔ Refuses entries next c
  unchanged : result.1 = .failed → result.2 = open'
  reads : ¬Refuses entries next c → ∃ taken written bytes base records,
    result.1 = .wrote written bytes base ∧ written ≤ bytes.length ∧
      Open result.2 c.fd entries (next + taken) ∧ (next < entries.length → 0 < taken) ∧
      decode c.generation (bytes.take written) = some records ∧
      Lists ((entries.drop next).take taken) records
  ends : ∀ bytes base, result.1 = .wrote 0 bytes base → next = entries.length

end Orbistoun.Fs.Dirent
