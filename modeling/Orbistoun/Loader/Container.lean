import Mathlib.Tactic
import Orbistoun.Lib.U64

/-! # Containers

A target executable is an ELF64 image, bare or behind a wrapper whose descriptors say where
the bytes of each program header are. Every field is read from arbitrary bytes and nothing
relates one to another: what a header says of its sizes and what the container holds for it
need not agree.
-/

namespace Orbistoun.Loader

open Orbistoun.Lib.U64 (saturatingAdd)

abbrev Byte := UInt8

def leValue : List Byte → Nat
  | [] => 0
  | b :: rest => b.toNat + 256 * leValue rest

def field (bytes : List Byte) (offset width : Nat) : Nat :=
  leValue ((bytes.drop offset).take width)

inductive ElfError where
  | truncated (offset need have_ : Nat)
  | notElf
  | unsupportedFormat
  | notWrapped
  | absurdSegmentCount (count max : Nat)
  | absurdSymbolCount (count max : Nat)
  | noDynamicTable (reason : String)
  | innerElfNotFound (expectedAt segmentCount : Nat)
  deriving DecidableEq, Repr

/-! ## The wrapper -/

def WRAPPER_MAGIC : List Byte := [0x54, 0x14, 0xf5, 0xee]

def PREVIOUS_GENERATION_MAGIC : List Byte := [0x4f, 0x15, 0x3d, 0x1d]

def ELF_MAGIC : List Byte := [0x7f, 0x45, 0x4c, 0x46]

def HEADER_SIZE : Nat := 32

def SEGMENT_SIZE : Nat := 32

def MAX_SEGMENTS : Nat := 4096

def SEGMENT_FLAG_HAS_DATA : Nat := 0x800

def SEGMENT_PHDR_INDEX_SHIFT : Nat := 20

structure WrapperSegment where
  flags : Nat
  offset : Nat
  storedSize : Nat
  expandedSize : Nat
  deriving DecidableEq, Repr

namespace WrapperSegment

def programHeaderIndex (s : WrapperSegment) : Nat := s.flags >>> SEGMENT_PHDR_INDEX_SHIFT

def hasData (s : WrapperSegment) : Bool := s.flags &&& SEGMENT_FLAG_HAS_DATA != 0

/-- Where the descriptor's bytes start in the container, and where they end. -/
def range (s : WrapperSegment) : Nat × Nat := (s.offset, saturatingAdd s.offset s.storedSize)

def readFromPrefix (bytes : List Byte) : Option WrapperSegment :=
  if bytes.length < SEGMENT_SIZE then none
  else some ⟨field bytes 0 8, field bytes 8 8, field bytes 16 8, field bytes 24 8⟩

end WrapperSegment

/-- A parsed wrapper, and where the inner ELF starts. -/
structure Wrapper where
  segmentCount : Nat
  elfOffset : Nat
  deriving DecidableEq, Repr

namespace Wrapper

def isWrapped (bytes : List Byte) : Bool := bytes.take 4 == WRAPPER_MAGIC

def isPreviousGeneration (bytes : List Byte) : Bool := bytes.take 4 == PREVIOUS_GENERATION_MAGIC

def isEitherGeneration (bytes : List Byte) : Bool := isWrapped bytes || isPreviousGeneration bytes

def parse (bytes : List Byte) : Except ElfError Wrapper :=
  if !isEitherGeneration bytes then .error .notWrapped
  else if bytes.length < HEADER_SIZE then .error (.truncated 0 HEADER_SIZE bytes.length)
  else
    let count := field bytes 24 2
    if MAX_SEGMENTS < count then .error (.absurdSegmentCount count MAX_SEGMENTS)
    else
      let elfOffset := HEADER_SIZE + count * SEGMENT_SIZE
      if bytes.length < elfOffset + 4 then .error (.truncated elfOffset 4 bytes.length)
      else if (bytes.drop elfOffset).take 4 != ELF_MAGIC then
        .error (.innerElfNotFound elfOffset count)
      else .ok ⟨count, elfOffset⟩

def segments (w : Wrapper) (bytes : List Byte) : Except ElfError (List WrapperSegment) :=
  (List.range w.segmentCount).mapM (fun i =>
    let at_ := HEADER_SIZE + i * SEGMENT_SIZE
    match WrapperSegment.readFromPrefix (bytes.drop at_) with
    | none => .error (.truncated at_ SEGMENT_SIZE (bytes.length - at_))
    | some s => .ok s)

/-- The bytes the first descriptor that serves a program header locates. -/
def dataForProgramHeader (w : Wrapper) (bytes : List Byte) (index : Nat) :
    Except ElfError (Option (List Byte)) := do
  let segments ← w.segments bytes
  match segments.find? (fun s => s.hasData && s.programHeaderIndex == index) with
  | none => .ok none
  | some s =>
      let (start, stop) := s.range
      if bytes.length < stop then
        .error (.truncated start (stop - start) (bytes.length - min start bytes.length))
      else .ok (some ((bytes.drop start).take (stop - start)))

end Wrapper

/-! ## The image -/

/-- The fields of an ELF64 header that loading reads. -/
structure Elf64Header where
  entry : Nat
  phoff : Nat
  phentsize : Nat
  phnum : Nat
  deriving DecidableEq, Repr

structure Elf64ProgramHeader where
  pType : Nat
  flags : Nat
  offset : Nat
  vaddr : Nat
  paddr : Nat
  filesz : Nat
  memsz : Nat
  align : Nat
  deriving DecidableEq, Repr

def elfHeaderSize : Nat := 64

def programHeaderSize : Nat := 56

def Elf64ProgramHeader.readFromPrefix (bytes : List Byte) : Option Elf64ProgramHeader :=
  if bytes.length < programHeaderSize then none
  else
    some ⟨field bytes 0 4, field bytes 4 4, field bytes 8 8, field bytes 16 8, field bytes 24 8,
      field bytes 32 8, field bytes 40 8, field bytes 48 8⟩

/-- A parsed container: the inner image, its header, and the wrapper it was found in. -/
structure Container where
  bytes : List Byte
  header : Elf64Header
  wrapper : Option Wrapper
  deriving DecidableEq, Repr

namespace Container

def parsePlain (bytes : List Byte) : Except ElfError Container :=
  if bytes.length < elfHeaderSize then .error (.truncated 0 elfHeaderSize bytes.length)
  else if bytes.take 4 != ELF_MAGIC then .error .notElf
  else if field bytes 4 1 ≠ 2 ∨ field bytes 5 1 ≠ 1 then .error .unsupportedFormat
  else
    .ok ⟨bytes, ⟨field bytes 24 8, field bytes 32 8, field bytes 54 2, field bytes 56 2⟩, none⟩

def parse (bytes : List Byte) : Except ElfError Container :=
  if Wrapper.isEitherGeneration bytes then do
    let wrapper ← Wrapper.parse bytes
    let container ← parsePlain (bytes.drop wrapper.elfOffset)
    .ok { container with wrapper := some wrapper }
  else parsePlain bytes

def entry (c : Container) : Nat := c.header.entry

def programHeaders (c : Container) : Except ElfError (List Elf64ProgramHeader) :=
  let need := c.header.phnum * c.header.phentsize
  let offset := c.header.phoff
  if c.bytes.length < saturatingAdd offset need then
    .error (.truncated offset need (c.bytes.length - min offset c.bytes.length))
  else
    (List.range c.header.phnum).mapM (fun i =>
      let at_ := offset + i * c.header.phentsize
      match Elf64ProgramHeader.readFromPrefix (c.bytes.drop at_) with
      | none => .error (.truncated at_ programHeaderSize (c.bytes.length - at_))
      | some ph => .ok ph)

/-- The bytes from one index up to another, where both are inside. -/
def getRange (bytes : List Byte) (start stop : Nat) : Option (List Byte) :=
  if start ≤ stop ∧ stop ≤ bytes.length then some ((bytes.drop start).take (stop - start)) else none

def segmentData (c : Container) (whole : List Byte) (index : Nat) :
    Except ElfError (Option (List Byte)) :=
  match c.wrapper with
  | some wrapper => wrapper.dataForProgramHeader whole index
  | none => do
      let headers ← c.programHeaders
      match headers[index]? with
      | none => .ok none
      | some ph => .ok (getRange whole ph.offset (saturatingAdd ph.offset ph.filesz))

end Container

end Orbistoun.Loader
