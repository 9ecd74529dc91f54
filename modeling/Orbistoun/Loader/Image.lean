import Orbistoun.Loader.Rewrite
import Orbistoun.Mem.Space

/-! # Placing a container's segments into reserved memory

The span is worked out from where each loadable segment starts and how much memory it is to
occupy; what is copied is as much as the container holds for it, up to `p_filesz`. Each
write is kept as it is made, with what it puts where, and the memory afterwards is what the
last write to reach each byte put there.
-/

namespace Orbistoun.Loader

open Orbistoun.Lib.U64 (bound saturatingAdd)
open Orbistoun.Lib.Writes (Write apply)
open Orbistoun.Mem.Space (AddressSpace MemError Protection)

def saturatingMul (x y : Nat) : Nat := min (x * y) (bound - 1)

def divCeil (x y : Nat) : Nat := x / y + if x % y = 0 then 0 else 1

inductive LoadError where
  | elf (e : ElfError)
  | memory (e : MemError)
  | nothingToLoad
  | relocationOutOfBounds (target spanBase spanLen : Nat)
  deriving DecidableEq, Repr

/-- What placing asks of the host and of the run: the allocation granularity, the byte `.bss`
is filled with, the extensions the processor reports, the decoder, and the host's answer to a
reservation. -/
structure Env where
  granularity : Nat
  fill : Byte
  detected : Host
  decoder : Decoder
  grant : Nat → Nat → Except MemError Unit

structure PlacedSegment where
  index : Nat
  address : Nat
  copied : Nat
  zeroed : Nat
  flags : Nat
  deriving DecidableEq, Repr

/-- A container placed in memory. -/
structure Image where
  space : AddressSpace
  base : Nat
  entry : Nat
  span : Nat × Nat
  segments : List PlacedSegment
  room : Nat × Nat
  rewrites : List Rewrite

def PT_LOAD : Nat := 1

def PF_X : Nat := 1

abbrev Loadable := List (Nat × Elf64ProgramHeader)

def Elf64ProgramHeader.loads (ph : Elf64ProgramHeader) : Bool :=
  ph.pType == PT_LOAD && decide (0 < ph.memsz)

def Elf64ProgramHeader.executable (ph : Elf64ProgramHeader) : Bool := ph.flags &&& PF_X != 0

def Elf64ProgramHeader.address (ph : Elf64ProgramHeader) (base : Nat) : Nat :=
  saturatingAdd base ph.vaddr

/-- The loadable headers of a container, the start of the span they occupy and its length. -/
def layout (granularity : Nat) (c : Container) (base page : Nat) :
    Except LoadError (Loadable × Nat × Nat) :=
  match c.programHeaders with
  | .error e => .error (.elf e)
  | .ok headers =>
      let loadable := (headers.zipIdx.filter (fun e => e.1.loads)).map Prod.swap
      if loadable.isEmpty then .error .nothingToLoad
      else
        let lowest := ((loadable.map (fun e => e.2.address base)).min?).getD base
        let highest :=
          ((loadable.map (fun e => saturatingAdd (e.2.address base) e.2.memsz)).max?).getD base
        let granularity := max granularity page
        let spanBase := lowest / granularity * granularity
        .ok (loadable, spanBase, saturatingMul (divCeil highest page) page - spanBase)

def codeOf (c : Container) (whole : List Byte) (base : Nat) :
    Loadable → Except ElfError (List (List Byte × Nat))
  | [] => .ok []
  | (index, ph) :: rest =>
      if ph.executable then
        match c.segmentData whole index with
        | .error e => .error e
        | .ok none => codeOf c whole base rest
        | .ok (some bytes) => (codeOf c whole base rest).map ((bytes, ph.address base) :: ·)
      else codeOf c whole base rest

/-- What is known of a container before memory is reserved for it. -/
structure Prepared where
  container : Container
  loadable : Loadable
  code : List (List Byte × Nat)
  spanBase : Nat
  codeLen : Nat
  roomAt : Nat
  rewrite : ModuleRewrite
  roomLen : Nat
  spanLen : Nat

/-- One past the last byte of the span. -/
def Prepared.spanEnd (p : Prepared) : Nat := p.spanBase + p.spanLen

/-- `place_for`, up to the reservation. -/
def prepare (env : Env) (whole : List Byte) (base page : Nat) (host : Host) :
    Except LoadError Prepared :=
  match Container.parse whole with
  | .error e => .error (.elf e)
  | .ok c =>
      match layout env.granularity c base page with
      | .error e => .error e
      | .ok (loadable, spanBase, codeLen) =>
          match codeOf c whole base loadable with
          | .error e => .error (.elf e)
          | .ok code =>
              let roomAt := saturatingAdd spanBase codeLen
              let rewrite := plan env.decoder env.detected code host roomAt
              let roomLen := saturatingMul (divCeil rewrite.room.length page) page
              .ok ⟨c, loadable, code, spanBase, codeLen, roomAt, rewrite, roomLen,
                saturatingAdd codeLen roomLen⟩

/-- The marker written over one eight-byte slot of `.bss`: the fill, then the slot's own
address. -/
def marker (fill : Byte) (at_ : Nat) : List Byte :=
  (List.range 7).map (fun i => UInt8.ofNat (at_ / 256 ^ i)) ++ [fill]

def markBss (tail len : Nat) (fill : Byte) : List (Write Byte) :=
  (List.range (len / 8)).map (fun slot =>
    let at_ := saturatingAdd tail (saturatingMul slot 8)
    ⟨at_, marker fill at_⟩)

/-- What is written for one segment: the container's bytes, then `.bss`. -/
def segmentWrites (fill : Byte) (ph : Elf64ProgramHeader) (base : Nat) (data : List Byte) :
    List (Write Byte) :=
  let address := ph.address base
  let copied := min data.length ph.filesz
  let zeroed := ph.memsz - copied
  let tail := saturatingAdd address copied
  ⟨address, data.take copied⟩ ::
    if 0 < zeroed then
      ⟨tail, List.replicate zeroed fill⟩ :: if fill = 0 then [] else markBss tail zeroed fill
    else []

/-- The loop over the loadable segments: what is written, and what is placed. -/
def placeSegments (env : Env) (c : Container) (whole : List Byte) (base : Nat) :
    Loadable → List (Write Byte) × Except LoadError (List PlacedSegment)
  | [] => ([], .ok [])
  | (index, ph) :: rest =>
      match c.segmentData whole index with
      | .error e => ([], .error (.elf e))
      | .ok data =>
          let data := data.getD []
          let copied := min data.length ph.filesz
          let (writes, placed) := placeSegments env c whole base rest
          (segmentWrites env.fill ph base data ++ writes,
            placed.map (⟨index, ph.address base, copied, ph.memsz - copied, ph.flags⟩ :: ·))

/-- How placing ended: what was reserved, what was written, and the image. -/
structure Outcome where
  span : Option (Nat × Nat)
  writes : List (Write Byte)
  result : Except LoadError Image

def readWrite : Protection := ⟨true, true, false⟩

/-- `place_for`, from the reservation on. -/
def Prepared.place (env : Env) (whole : List Byte) (base : Nat) (p : Prepared) : Outcome :=
  match AddressSpace.new.reserve p.spanBase p.spanLen readWrite (env.grant p.spanBase p.spanLen) with
  | (.error e, _) => ⟨none, [], .error (.memory e)⟩
  | (.ok _, space) =>
      match placeSegments env p.container whole base p.loadable with
      | (writes, .error e) => ⟨some (p.spanBase, p.spanLen), writes, .error e⟩
      | (writes, .ok segments) =>
          ⟨some (p.spanBase, p.spanLen),
            writes ++ p.rewrite.patches ++ [⟨p.roomAt, p.rewrite.room⟩],
            .ok
              { space := space
                base := base
                entry := saturatingAdd base p.container.entry
                span := (p.spanBase, p.spanLen)
                segments := segments
                room := (p.roomAt, p.roomLen)
                rewrites := p.rewrite.rewrites }⟩

/-- Places every loadable segment of a container at `base`, rewriting the instructions a host
lacks. -/
def placeFor (env : Env) (whole : List Byte) (base page : Nat) (host : Host) : Outcome :=
  match prepare env whole base page host with
  | .error e => ⟨none, [], .error e⟩
  | .ok p => p.place env whole base

/-! ## What loading is to do -/

def Prepared.Patched (p : Prepared) (x : Nat) : Prop := ∃ w ∈ p.rewrite.patches, w.Reaches x

/-- The byte a segment's memory is to hold: the container's, and zero past what it holds. -/
def Elf64ProgramHeader.wanted (ph : Elf64ProgramHeader) (data : List Byte) (k : Nat) : Byte :=
  ((data.take ph.filesz)[k]?).getD 0

/-- Every byte written lies inside the span reserved, and a container that is placed has in
each loadable segment's memory its own bytes, then zeros, sites that are patched aside. -/
structure Faithful (env : Env) (whole : List Byte) (base page : Nat) (host : Host) : Prop where
  inside : ∀ w ∈ (placeFor env whole base page host).writes, ∀ x, w.Reaches x →
    ∃ start len, (placeFor env whole base page host).span = some (start, len) ∧
      start ≤ x ∧ x < start + len
  contents : ∀ image, (placeFor env whole base page host).result = .ok image →
    ∀ p headers, prepare env whole base page host = .ok p →
      p.container.programHeaders = .ok headers →
    ∀ (index : Nat) (ph : Elf64ProgramHeader), headers[index]? = some ph → ph.loads = true →
    ∀ data, p.container.segmentData whole index = .ok data →
    ∀ k < ph.memsz, ¬ p.Patched (base + ph.vaddr + k) → ∀ memory : Nat → Byte,
      apply memory (placeFor env whole base page host).writes (base + ph.vaddr + k) =
        ph.wanted (data.getD []) k

end Orbistoun.Loader
