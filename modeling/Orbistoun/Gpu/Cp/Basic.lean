import Orbistoun.Gpu.Cp.Packet
import Orbistoun.Lib.Dialogue

/-! # The command processor's own memory work

The walk over a submitted stream: what each packet asks of memory, what it counts, and where
it stops. Memory is reached only through the questions of `CpMemory`; the guest's own threads
share it, so any answer may come, a read's too, whatever was answered before.
-/

namespace Orbistoun.Gpu.Cp

open Lib

/-! ## Opcodes -/

def INDEX_BUFFER_SIZE : Nat := 0x13
def INDEX_BASE : Nat := 0x26
def DRAW_INDEX_2 : Nat := 0x27
def DRAW_INDEX_AUTO : Nat := 0x2d
def NUM_INSTANCES : Nat := 0x2f
def EVENT_WRITE : Nat := 0x46
def SET_CONTEXT_REG : Nat := 0x69
def SET_SH_REG : Nat := 0x76
def SET_UCONFIG_REG : Nat := 0x79
def SET_UCONFIG_REG_INDEX : Nat := 0x7a
def SET_CONTEXT_REG_INDIRECT : Nat := 0x9f
def NOP : Nat := 0x10
def ACQUIRE_MEM : Nat := 0x58
def RELEASE_MEM : Nat := 0x49
def DMA_DATA : Nat := 0x50
def SET_BASE : Nat := 0x11
def DISPATCH_INDIRECT : Nat := 0x16
def DRAW_INDIRECT : Nat := 0x24
def DRAW_INDEX_INDIRECT : Nat := 0x25
def SET_SH_REG_INDIRECT : Nat := 0x63
def SET_UCONFIG_REG_INDIRECT : Nat := 0x64
def STALL_COMMAND_BUFFER_PARSER : Nat := 0x42
def DISPATCH_DIRECT : Nat := 0x15
def DRAW_INDEX_OFFSET_2 : Nat := 0x35
def DRAW_INDIRECT_MULTI : Nat := 0x2c
def DRAW_INDEX_INDIRECT_MULTI : Nat := 0x38
def WAIT_REG_MEM : Nat := 0x3c
def WAIT_REG_MEM64 : Nat := 0x93
def CLEAR_STATE : Nat := 0x12
def CONTEXT_CONTROL : Nat := 0x28
def WRITE_DATA : Nat := 0x37
def STRMOUT_BUFFER_UPDATE : Nat := 0x34

/-- The draw packets a submission's draws are carried out for together. -/
def isDraw (opcode : Nat) : Bool :=
  opcode == DRAW_INDEX_2 || opcode == DRAW_INDEX_AUTO || opcode == DRAW_INDEX_OFFSET_2

def isIndirectDraw (opcode : Nat) : Bool :=
  opcode == DRAW_INDIRECT || opcode == DRAW_INDEX_INDIRECT || opcode == DRAW_INDIRECT_MULTI ||
    opcode == DRAW_INDEX_INDIRECT_MULTI

/-- Opcodes with no effect on memory: register state, no-ops, and cache control. -/
def isMemoryInert (opcode bodyDwords : Nat) : Bool :=
  [NOP, SET_BASE, INDEX_BUFFER_SIZE, INDEX_BASE, NUM_INSTANCES, ACQUIRE_MEM, SET_CONTEXT_REG,
    SET_SH_REG, SET_UCONFIG_REG, SET_UCONFIG_REG_INDEX, SET_CONTEXT_REG_INDIRECT,
    SET_SH_REG_INDIRECT, SET_UCONFIG_REG_INDIRECT, STALL_COMMAND_BUFFER_PARSER,
    CLEAR_STATE].contains opcode || (opcode == EVENT_WRITE && bodyDwords == 1)

/-! ## What memory is asked -/

structure DrawSegment where
  stream : List Byte
  first : Nat
  endAt : Nat
  whole : Bool
  deriving DecidableEq

structure Dispatch where
  stream : List Byte
  offset : Nat
  groups : List Nat
  initiator : Nat
  deriving DecidableEq

/-- The methods of `CpMemory`. -/
inductive Call where
  | read (address length : Nat)
  | write (address : Nat) (bytes : List Byte)
  | timestamp
  | released (address context : Nat)
  | fill (address pattern count : Nat)
  | copy (source destination count : Nat)
  | runDraws (segment : DrawSegment)
  | runDispatch (dispatch : Dispatch)
  | unreadyDispatch
  | dispatchProgram (stream : List Byte) (offset : Nat)
  | samplesPassed
  | streamoutStats (stream : Nat)
  | withStreamout (buffer : Nat) (offset : Option Nat)
  deriving DecidableEq

def Call.Answer : Call → Type
  | read _ length => Option { bytes : List Byte // bytes.length = length }
  | write .. | fill .. | copy .. | runDraws _ | runDispatch _ => Bool
  | timestamp => Nat
  | released .. => Unit
  | unreadyDispatch | dispatchProgram .. | samplesPassed => Option Nat
  | streamoutStats _ => Option (Nat × Nat)
  -- The offset the buffer holds once it is set, where any are kept.
  | withStreamout .. => Option (Option Nat)

instance (c : Call) : Inhabited c.Answer :=
  match c with
  | .read .. => ⟨none⟩
  | .write .. | .fill .. | .copy .. | .runDraws _ | .runDispatch _ => ⟨false⟩
  | .timestamp => ⟨(0 : Nat)⟩
  | .released .. => ⟨()⟩
  | .unreadyDispatch | .dispatchProgram .. | .samplesPassed => ⟨none⟩
  | .streamoutStats _ => ⟨none⟩
  | .withStreamout .. => ⟨none⟩

abbrev Talk := Dialogue Call Call.Answer

abbrev Turns := List (Dialogue.Turn Call.Answer)

/-- Something that answers for memory, and the state it is in. -/
structure CpMemory where
  State : Type
  answer : (c : Call) → State → c.Answer × State
  state : State

/-! ## What execution comes to -/

inductive Stopped where
  | completed
  | needsGpu (offset opcode : Nat)
  | outOfBounds (offset opcode address : Nat)
  | waitNeverSatisfied (offset address reference observed : Nat)
  | malformed (offset : Nat)
  deriving DecidableEq

def Stopped.offset : Stopped → Option Nat
  | completed => none
  | needsGpu offset _ | outOfBounds offset _ _ | waitNeverSatisfied offset _ _ _
  | malformed offset => some offset

/-- What is counted of the packets carried out. -/
@[ext]
structure Counts where
  fills : Nat := 0
  copies : Nat := 0
  releases : Nat := 0
  waits : Nat := 0
  draws : Nat := 0
  dispatches : Nat := 0
  bytesWritten : Nat := 0
  deriving DecidableEq

instance : Add Counts where
  add a b :=
    { fills := a.fills + b.fills, copies := a.copies + b.copies, releases := a.releases + b.releases
      waits := a.waits + b.waits, draws := a.draws + b.draws
      dispatches := a.dispatches + b.dispatches, bytesWritten := a.bytesWritten + b.bytesWritten }

instance : Zero Counts where
  zero := {}

instance : AddCommMonoid Counts where
  add_assoc _ _ _ := Counts.ext (Nat.add_assoc ..) (Nat.add_assoc ..) (Nat.add_assoc ..)
    (Nat.add_assoc ..) (Nat.add_assoc ..) (Nat.add_assoc ..) (Nat.add_assoc ..)
  zero_add _ := Counts.ext (Nat.zero_add _) (Nat.zero_add _) (Nat.zero_add _) (Nat.zero_add _)
    (Nat.zero_add _) (Nat.zero_add _) (Nat.zero_add _)
  add_zero _ := rfl
  add_comm _ _ := Counts.ext (Nat.add_comm ..) (Nat.add_comm ..) (Nat.add_comm ..)
    (Nat.add_comm ..) (Nat.add_comm ..) (Nat.add_comm ..) (Nat.add_comm ..)
  nsmul := nsmulRec

structure CpExecution where
  counts : Counts := {}
  stopped : Stopped := .completed
  stoppedBody : List Nat := List.replicate 6 0
  deriving DecidableEq

inductive Stop where
  | needsGpu
  | outOfBounds (address : Nat)
  | wait (address reference observed : Nat)
  | malformed
  deriving DecidableEq

/-- The first words of a packet body, zero past its end. -/
def bodyHead (bytes : List Byte) : List Nat :=
  let head := (wordsOf bytes).take 6
  head ++ List.replicate (6 - head.length) 0

/-- Work on memory that may stop, with what it adds to the counts. -/
def Work (α : Type) : Type := Talk (Except Stop α × Counts)

namespace Work

variable {α β : Type}

protected def pure (a : α) : Work α := .done (.ok a, 0)

protected def bind (w : Work α) (f : α → Work β) : Work β :=
  Dialogue.bind w (fun
    | (.ok a, counts) => Dialogue.bind (f a) (fun (b, more) => .done (b, counts + more))
    | (.error stop, counts) => .done (.error stop, counts))

instance : Monad Work where
  pure := Work.pure
  bind := Work.bind

def stop (s : Stop) : Work α := .done (.error s, 0)

def ask (c : Call) : Work c.Answer := Dialogue.ask c (fun a => .done (.ok a, 0))

def count (counts : Counts) : Work Unit := .done (.ok (), counts)

def ofOption (s : Stop) : Option α → Work α
  | some a => pure a
  | none => stop s

def ofExcept : Except Stop α → Work α
  | .ok a => pure a
  | .error s => stop s

def fill (address pattern bytes : Nat) : Work Bool := ask (.fill address pattern bytes)

def copy (source destination bytes : Nat) : Work Bool := ask (.copy source destination bytes)

def read (address length : Nat) : Work (List Byte) := do
  let bytes : Option { bytes : List Byte // bytes.length = length } ← ask (.read address length)
  ofOption (.outOfBounds address) (bytes.map Subtype.val)

def write (address : Nat) (bytes : List Byte) : Work Unit := do
  let done : Bool ← ask (.write address bytes)
  if done then pure () else stop (.outOfBounds address)

def writeAny (address : Nat) (bytes : List Byte) : Work Unit :=
  if bytes == [] then pure () else write address bytes

end Work

/-- `u64` arithmetic of a release build. -/
def wrap64 (n : Nat) : Nat := n % 2 ^ 64

def address (low high : Nat) : Nat := (high <<< 32) ||| low

/-! ## `DMA_DATA` -/

def SRC_SEL_DATA : Nat := 2
def SRC_SEL_ADDRESS : List Nat := [0, 3]
def DST_SEL_ADDRESS : List Nat := [0, 3]
def DST_SEL_NOWHERE : Nat := 2
def BYTE_COUNT_MASK : Nat := 0x03ffffff
def SOURCE_HOLD : Nat := 1 <<< 28
def DESTINATION_HOLD : Nat := 1 <<< 29
def SOURCE_IN_REGISTERS : Nat := 1 <<< 26

structure DmaData where
  srcSel : Nat
  srcLow : Nat
  srcHigh : Nat
  destination : Nat
  count : Nat
  sourceHeld : Bool

def decodeDmaData (body : List Nat) : Except Stop DmaData :=
  match body with
  | control :: srcLow :: srcHigh :: dstLow :: dstHigh :: command :: _ =>
      let dstSel := (control >>> 20) &&& 3
      let srcSel := (control >>> 29) &&& 3
      let registerSource := srcSel == 0 && command &&& SOURCE_IN_REGISTERS != 0
      if !DST_SEL_ADDRESS.contains dstSel || registerSource then .error .needsGpu
      else
        let dma : DmaData :=
          { srcSel, srcLow, srcHigh, destination := address dstLow dstHigh
            count := command &&& BYTE_COUNT_MASK, sourceHeld := command &&& SOURCE_HOLD != 0 }
        -- A held destination keeps only the last dword written to it.
        if command &&& DESTINATION_HOLD != 0 && dma.count > 4 then
          if srcSel != SRC_SEL_DATA && !dma.sourceHeld then
            let last := wrap64 (address srcLow srcHigh + (dma.count - 4))
            .ok { dma with srcLow := last % 2 ^ 32, srcHigh := last >>> 32, count := 4 }
          else .ok { dma with count := 4 }
        else .ok dma
  | _ => .error .malformed

/-- A prefetch writes nothing: it only asks whether its source can be read. -/
def dmaPrefetch (body : List Nat) : Option (Work Unit) :=
  match body with
  | control :: srcLow :: srcHigh :: _ :: _ :: command :: _ =>
      if (control >>> 20) &&& 3 != DST_SEL_NOWHERE then none
      else if !SRC_SEL_ADDRESS.contains ((control >>> 29) &&& 3) then some (.stop .needsGpu)
      else
        let count := command &&& BYTE_COUNT_MASK
        let source := address srcLow srcHigh
        some (if count == 0 then pure () else do
          let _ ← Work.read source count
          pure ())
  | _ => none

def dmaMove (dma : DmaData) : Work Bool :=
  if dma.count == 0 then pure true
  else if dma.srcSel == SRC_SEL_DATA then .fill dma.destination dma.srcLow dma.count
  else if SRC_SEL_ADDRESS.contains dma.srcSel && dma.sourceHeld then do
    let word : Option _ ← Work.ask (.read (address dma.srcLow dma.srcHigh) 4)
    match word with
    | some word => .fill dma.destination (fromLeBytes word.val) dma.count
    | none => pure false
  else if SRC_SEL_ADDRESS.contains dma.srcSel then
    .copy (address dma.srcLow dma.srcHigh) dma.destination dma.count
  else .stop .needsGpu

/-- Stops at the memory a fill or a copy missed: the copy's source where it was the one not
there, else its destination. -/
def dmaMissing (dma : DmaData) : Work Unit :=
  if SRC_SEL_ADDRESS.contains dma.srcSel then do
    let bytes : Option _ ← Work.ask (.read (address dma.srcLow dma.srcHigh) dma.count)
    match bytes with
    | none => .stop (.outOfBounds (address dma.srcLow dma.srcHigh))
    | some _ => .stop (.outOfBounds dma.destination)
  else .stop (.outOfBounds dma.destination)

def dmaData (body : List Nat) : Work Unit :=
  match dmaPrefetch body with
  | some prefetched => prefetched
  | none => do
      let dma ← Work.ofExcept (decodeDmaData body)
      let done ← dmaMove dma
      if done then
        if dma.srcSel == SRC_SEL_DATA then .count { fills := 1, bytesWritten := dma.count }
        else .count { copies := 1, bytesWritten := dma.count }
      else dmaMissing dma

/-! ## `RELEASE_MEM`, `CONTEXT_CONTROL` and `WRITE_DATA` -/

def DATA_SEL_DISCARD : Nat := 0
def DATA_SEL_VALUE_32BIT : Nat := 1
def DATA_SEL_VALUE_64BIT : Nat := 2
def DATA_SEL_TIMESTAMP : Nat := 3

def releasedBytes (dataSel dataLow dataHigh : Nat) : Work (List Byte) :=
  if dataSel == DATA_SEL_DISCARD then pure []
  else if dataSel == DATA_SEL_VALUE_32BIT then pure (toLeBytes 4 dataLow)
  else if dataSel == DATA_SEL_VALUE_64BIT then pure (toLeBytes 8 (address dataLow dataHigh))
  else if dataSel == DATA_SEL_TIMESTAMP then do
    let now : Nat ← Work.ask .timestamp
    pure (toLeBytes 8 now)
  else .stop .needsGpu

/-- An interrupting release raises the interrupt its last dword names. -/
def raiseInterrupt (selectors destination context : Nat) : Work Unit :=
  if (selectors >>> 24) &&& 7 != 0 then do
    let _ ← Work.ask (.released destination context)
    pure ()
  else pure ()

def releaseMem (body : List Nat) : Work Unit :=
  match body with
  | _ :: selectors :: addrLow :: addrHigh :: dataLow :: dataHigh :: rest => do
      let written ← releasedBytes (selectors >>> 29) dataLow dataHigh
      Work.writeAny (address addrLow addrHigh) written
      raiseInterrupt selectors (address addrLow addrHigh) (rest.head?.getD 0)
      .count { releases := 1, bytesWritten := written.length }
  | _ => .stop .malformed

def CONTEXT_CONTROL_SHADOW_ENABLES : Nat :=
  (1 <<< 0) ||| (1 <<< 1) ||| (1 <<< 15) ||| (1 <<< 16) ||| (1 <<< 24)
def CONTEXT_CONTROL_UPDATE_SHADOW_ENABLES : Nat := 1 <<< 31

def contextControl (body : List Nat) : Work Unit :=
  match body with
  | _ :: shadow :: _ =>
      if shadow &&& CONTEXT_CONTROL_UPDATE_SHADOW_ENABLES != 0 &&
          shadow &&& CONTEXT_CONTROL_SHADOW_ENABLES != 0 then .stop .needsGpu
      else pure ()
  | _ => .stop .malformed

def WRITE_DATA_DST_SEL_MEMORY : List Nat := [1, 2, 5]
def WRITE_DATA_DST_SEL_REGISTER : Nat := 0
def WRITE_DATA_NO_INCREMENT : Nat := 1 <<< 16

/-- A dword without its low two bits. -/
def dwordAligned (low : Nat) : Nat := low &&& 0xFFFFFFFC

/-- A dword without its low three bits. -/
def qwordAligned (low : Nat) : Nat := low &&& 0xFFFFFFF8

/-- The data words that stay: without increment they land one over another. -/
def keptWords (control : Nat) (data : List Nat) : List Nat :=
  if control &&& WRITE_DATA_NO_INCREMENT != 0 then data.getLast?.toList else data

def writeData (body : List Nat) : Work Unit :=
  match body with
  | control :: addrLow :: addrHigh :: data =>
      let dstSel := (control >>> 8) &&& 0xf
      if dstSel == WRITE_DATA_DST_SEL_REGISTER then pure ()
      else if !WRITE_DATA_DST_SEL_MEMORY.contains dstSel then .stop .needsGpu
      else do
        let bytes := (keptWords control data).flatMap (toLeBytes 4)
        Work.writeAny (address (dwordAligned addrLow) addrHigh) bytes
        .count { bytesWritten := bytes.length }
  | _ => .stop .malformed

/-! ## `EVENT_WRITE` and `STRMOUT_BUFFER_UPDATE` -/

def ZPASS_DONE : Nat := 21
def ZPASS_BACKENDS : Nat := 16
def ZPASS_VALID : Nat := 1 <<< 63

def statsEventStream (initiator : Nat) : Option Nat :=
  if (initiator >>> 8) &&& 0xF != 3 then none
  else
    let event := initiator &&& 0x3F
    if event == 32 then some 0
    else if 1 ≤ event ∧ event ≤ 3 then some event
    else none

def writeCounters : List (Nat × Nat) → Work Unit
  | [] => pure ()
  | (at', value) :: rest => do
      Work.write at' (toLeBytes 8 (value ||| ZPASS_VALID))
      Work.count { bytesWritten := 8 }
      writeCounters rest

/-- The places a counter dump writes, sixteen bytes apart, one a backend. -/
def zpassSlots (destination count : Nat) : List (Nat × Nat) :=
  (List.range ZPASS_BACKENDS).map (fun backend =>
    (destination + backend * 16, if backend == 0 then count else 0))

/-- A streamout query's sample: the stream's two counters. -/
def sampleStats (stream destination : Nat) : Work Unit := do
  let stats : Option (Nat × Nat) ← Work.ask (.streamoutStats stream)
  let stats ← Work.ofOption .needsGpu stats
  writeCounters [(destination, stats.1), (destination + 8, stats.2)]

/-- `ZPASS_DONE`: each render backend's counter, the whole count at the first. -/
def zpassDone (destination : Nat) : Work Unit := do
  let count : Option Nat ← Work.ask .samplesPassed
  let count ← Work.ofOption .needsGpu count
  writeCounters (zpassSlots destination count)

def eventWrite (body : List Nat) : Work Unit :=
  match body with
  | initiator :: addrLow :: addrHigh :: _ =>
      let destination := address (qwordAligned addrLow) (addrHigh &&& 0xFFFF)
      match statsEventStream initiator with
      | some stream => sampleStats stream destination
      | none =>
          if initiator &&& 0x3F != ZPASS_DONE then .stop .needsGpu else zpassDone destination
  | _ => .stop .needsGpu

inductive OffsetSource where
  | packet (bytes : Nat)
  | memory (address : Nat)
  | keep
  deriving DecidableEq

structure Update where
  buffer : Nat
  source : OffsetSource
  storeTo : Option Nat

/-- Reads a `STRMOUT_BUFFER_UPDATE` body; nothing where it is not carried out. -/
def decodeUpdate (body : List Nat) : Option Update :=
  match body with
  | control :: dstLow :: dstHigh :: low :: high :: _ =>
      let store := control &&& 1 != 0
      let source : Option OffsetSource := match (control >>> 1) &&& 3 with
        | 0 => if low == 0 then some (.packet 0) else none
        | 1 => none
        | 2 => some (.memory (dwordAligned low ||| (high <<< 32)))
        | _ => some .keep
      match source with
      | none => none
      | some source =>
          if store && source != .keep then none
          else
            some
              { buffer := (control >>> 8) &&& 3
                source
                storeTo := if store then some (dwordAligned dstLow ||| (dstHigh <<< 32)) else none }
  | _ => none

/-- The offset an update sets. -/
def updatedOffset : OffsetSource → Work (Option Nat)
  | .packet bytes => pure (some bytes)
  | .memory address => do
      let bytes ← Work.read address 4
      pure (some (fromLeBytes bytes))
  | .keep => pure none

/-- Stores a buffer's filled size where the update says; a buffer no update set has none. -/
def storeFilled (storeTo held : Option Nat) : Work Unit :=
  match storeTo with
  | none => pure ()
  | some address => do
      let filled ← Work.ofOption .needsGpu held
      Work.write address (toLeBytes 4 filled)
      Work.count { bytesWritten := 4 }

def streamoutUpdate (body : List Nat) : Work Unit := do
  let update ← Work.ofOption .needsGpu (decodeUpdate body)
  let offset ← updatedOffset update.source
  let held : Option (Option Nat) ← Work.ask (.withStreamout update.buffer offset)
  let held ← Work.ofOption .needsGpu held
  storeFilled update.storeTo held

/-! ## Waits -/

def WAIT_EQUAL : Nat := 3
def WAIT_NOT_EQUAL : Nat := 4
def WAIT_GREATER_OR_EQUAL : Nat := 5
def WAIT_MEM_SPACE : Nat := 1 <<< 4
def CP_STRMOUT_CNTL : Nat := 0x300fc >>> 2
def OFFSET_UPDATE_DONE : Nat := 1

def isStreamoutFlushWait (function register reference mask : Nat) : Bool :=
  function &&& 7 == WAIT_EQUAL && register == CP_STRMOUT_CNTL && reference == OFFSET_UPDATE_DONE &&
    mask == OFFSET_UPDATE_DONE

/-- Whether a polled value meets the reference, where the function is one that is checked. -/
def waitHolds (function value reference : Nat) : Option Bool :=
  if function &&& 7 == WAIT_EQUAL then some (value == reference)
  else if function &&& 7 == WAIT_NOT_EQUAL then some (value != reference)
  else if function &&& 7 == WAIT_GREATER_OR_EQUAL then some (reference ≤ value)
  else none

def pollMemory (function polled length reference mask : Nat) : Work Unit := do
  let bytes ← Work.read polled length
  let value := fromLeBytes bytes &&& mask
  let holds ← Work.ofOption .needsGpu (waitHolds function value reference)
  if holds then .count { waits := 1 }
  else .stop (.wait polled reference value)

def waitRegMem (body : List Nat) : Work Unit :=
  match body with
  | function :: addrLow :: addrHigh :: reference :: mask :: _ =>
      if function &&& WAIT_MEM_SPACE == 0 then
        if isStreamoutFlushWait function addrLow reference mask then
          .count { waits := 1 }
        else .stop .needsGpu
      else pollMemory function (address (dwordAligned addrLow) addrHigh) 4 reference mask
  | _ => .stop .malformed

def waitRegMem64 (body : List Nat) : Work Unit :=
  match body with
  | function :: addrLow :: addrHigh :: referenceLow :: referenceHigh :: maskLow :: maskHigh :: _ =>
      if function &&& WAIT_MEM_SPACE == 0 then .stop .needsGpu
      else
        pollMemory function (address (qwordAligned addrLow) addrHigh) 8
          (address referenceLow referenceHigh) (address maskLow maskHigh)
  | _ => .stop .malformed

/-! ## Dispatches and indirect draws -/

def packetsBefore (stream : List Byte) (before opcode : Nat) : List Packet :=
  ((walk stream).packets.takeWhile (fun p => p.offset < before)).filter
    (fun p => p.kind == .command opcode)

def bodyWord (stream : List Byte) (p : Packet) (n : Nat) : Option Nat :=
  (getRange stream (p.bodyOffset + n * 4) (p.bodyOffset + n * 4 + 4)).map fromLeBytes

/-- The address the last `SET_BASE` before a byte set for the indirect arguments. -/
def indirectBase (stream : List Byte) (before : Nat) : Option Nat :=
  ((packetsBefore stream before SET_BASE).filterMap (fun p => do
    let index ← bodyWord stream p 0
    if index == 1 then
      let low ← bodyWord stream p 1
      let high ← bodyWord stream p 2
      some (address low high)
    else none)).getLast?

def dispatchDirect (stream : List Byte) (offset : Nat) (body : List Nat) : Work Unit :=
  match body with
  | x :: y :: z :: initiator :: _ => do
      let accepted : Bool ← Work.ask (.runDispatch { stream, offset, groups := [x, y, z], initiator })
      if accepted then
        .count { dispatches := 1 }
      else do
        -- Perhaps read before what it reads was written: tried again as the queue polls.
        let polled : Option Nat ← Work.ask .unreadyDispatch
        match polled with
        | some address => .stop (.wait address 1 0)
        | none => .stop .needsGpu
  | _ => .stop .malformed

def indirectGrid (stream : List Byte) (offset : Nat) (body : List Nat) : Option (Nat × Nat) :=
  match body with
  | [past, initiator] =>
      (indirectBase stream offset).map (fun base => (wrap64 (base + past), initiator))
  | [low, high, initiator] => some (address low high, initiator)
  | _ => none

def dispatchIndirect (stream : List Byte) (offset : Nat) (body : List Nat) : Work Unit := do
  let (at', initiator) ← Work.ofOption .malformed (indirectGrid stream offset body)
  let bytes ← Work.read at' 12
  let groups := wordsOf bytes
  if groups.contains 0 then do
    let _ ← Work.ask (.dispatchProgram stream offset)
    pure ()
  else do
    let accepted : Bool ← Work.ask (.runDispatch { stream, offset, groups, initiator })
    if accepted then
      .count { dispatches := 1 }
    else .stop .needsGpu

inductive Count where
  | packet (count : Nat)
  | memory (most address : Nat)

structure IndirectDraw where
  indexed : Bool
  dataOffset : Nat
  vertexLocation : Nat
  indexLocation : Option Nat
  instanceLocation : Nat
  drawIndexLocation : Option Nat
  count : Count
  stride : Nat
  initiator : Nat

def START_INDEX_ENABLE : Nat := 1 <<< 28
def TASK_SHADER_MODE : Nat := 1 <<< 25
def USE_VGPRS : Nat := 1 <<< 27
def COUNT_INDIRECT_ENABLE : Nat := 1 <<< 30
def DRAW_INDEX_ENABLE : Nat := 1 <<< 31

def IndirectDraw.decode (opcode : Nat) (body : List Nat) : Except Stop IndirectDraw :=
  if opcode == DRAW_INDIRECT then
    match body with
    | [dataOffset, vertex, ofInstance, initiator] =>
        .ok { indexed := false, dataOffset, vertexLocation := vertex &&& 0xffff,
              indexLocation := none, instanceLocation := ofInstance &&& 0xffff,
              drawIndexLocation := none, count := .packet 1, stride := 0, initiator }
    | _ => .error .malformed
  else if opcode == DRAW_INDEX_INDIRECT then
    match body with
    | [dataOffset, locations, ofInstance, initiator] =>
        .ok { indexed := true, dataOffset, vertexLocation := locations &&& 0xffff,
              indexLocation := if ofInstance &&& START_INDEX_ENABLE != 0 then some (locations >>> 16)
                else none
              instanceLocation := ofInstance &&& 0xffff,
              drawIndexLocation := none, count := .packet 1, stride := 0, initiator }
    | _ => .error .malformed
  else if opcode == DRAW_INDIRECT_MULTI || opcode == DRAW_INDEX_INDIRECT_MULTI then
    match body with
    | [dataOffset, locations, ofInstance, drawIndex, count, countLow, countHigh, stride, initiator] =>
        if drawIndex &&& (TASK_SHADER_MODE ||| USE_VGPRS) != 0 then .error .needsGpu
        else
          let indexed := opcode == DRAW_INDEX_INDIRECT_MULTI
          .ok { indexed, dataOffset, vertexLocation := locations &&& 0xffff
                indexLocation := if indexed && drawIndex &&& START_INDEX_ENABLE != 0
                  then some (locations >>> 16) else none
                instanceLocation := ofInstance &&& 0xffff
                drawIndexLocation := if drawIndex &&& DRAW_INDEX_ENABLE != 0
                  then some (drawIndex &&& 0xffff) else none
                count := if drawIndex &&& COUNT_INDIRECT_ENABLE != 0
                  then .memory count (address (dwordAligned countLow) countHigh) else .packet count
                stride, initiator }
    | _ => .error .malformed
  else .error .needsGpu

def IndirectDraw.recordBytes (draw : IndirectDraw) : Nat := if draw.indexed then 20 else 16

/-- The last size an `INDEX_BUFFER_SIZE` before a byte declared, zero when none did. -/
def indexBufferSize (stream : List Byte) (before : Nat) : Nat :=
  (((packetsBefore stream before INDEX_BUFFER_SIZE).filterMap
    (fun p => bodyWord stream p 0)).getLast?).getD 0

def commandHeader (opcode bodyDwords : Nat) : Nat :=
  (3 <<< 30) ||| ((bodyDwords - 1) <<< 16) ||| (opcode <<< 8)

/-- A `SET_SH_REG` of one register; a location of zero writes nothing. -/
def setShRegister (location value : Nat) : List Nat :=
  if location != 0 then [commandHeader SET_SH_REG 2, location, value] else []

def recordFields (record : List Nat) : Option (Nat × Nat × Nat × Nat × Nat) :=
  match record with
  | [count, instances, firstVertex, firstInstance] =>
      some (count, instances, 0, firstVertex, firstInstance)
  | [count, instances, firstIndex, vertexOffset, firstInstance] =>
      some (count, instances, firstIndex, vertexOffset, firstInstance)
  | _ => none

/-- The direct packets one record is drawn as; nothing for a record that draws nothing. -/
def drawWords (draw : IndirectDraw) (record : List Nat) (drawIndex maxSize : Nat) :
    Option (List Nat) :=
  match recordFields record with
  | none => none
  | some (count, instances, first, vertex, firstInstance) =>
      if count == 0 || instances == 0 then none
      else
        some (setShRegister draw.vertexLocation vertex ++
          (match draw.indexLocation with
            | some location => setShRegister location first
            | none => []) ++
          setShRegister draw.instanceLocation firstInstance ++
          (match draw.drawIndexLocation with
            | some location => setShRegister location drawIndex
            | none => []) ++
          [commandHeader NUM_INSTANCES 1, instances] ++
          (if draw.indexed then
            [commandHeader DRAW_INDEX_OFFSET_2 4, maxSize, first, count, draw.initiator]
          else [commandHeader DRAW_INDEX_AUTO 2, count, draw.initiator]))

def readRecords (draw : IndirectDraw) (base maxSize : Nat) : Nat → Nat → Work (List Nat × Nat)
  | 0, _ => pure ([], 0)
  | left + 1, index => do
      let bytes ← Work.read (wrap64 (base + index * draw.stride)) draw.recordBytes
      let (words, drawn) ← readRecords draw base maxSize left (index + 1)
      match drawWords draw (wordsOf bytes) index maxSize with
      | some own => pure (own ++ words, drawn + 1)
      | none => pure (words, drawn)

/-- How many records an indirect draw reads. -/
def recordCount : Count → Work Nat
  | .packet count => pure count
  | .memory most address => do
      let bytes ← Work.read address 4
      pure (min (fromLeBytes bytes) most)

/-- The stream an indirect draw is drawn from: what comes before it, then its own draws. -/
def drawnSegment (stream : List Byte) (offset : Nat) (words : List Nat) : Option DrawSegment :=
  match getRange stream 0 offset with
  | none => none
  | some before =>
      let drawn := before ++ words.flatMap (toLeBytes 4)
      if drawn.length ≤ u32Max then
        some { stream := drawn, first := offset, endAt := drawn.length, whole := false }
      else none

def runIndirectDraw (stream : List Byte) (offset opcode : Nat) (body : List Nat) : Work Unit := do
  let draw ← Work.ofExcept (IndirectDraw.decode opcode body)
  let base ← Work.ofOption .malformed (indirectBase stream offset)
  let count ← recordCount draw.count
  let maxSize := if draw.indexed then indexBufferSize stream offset else 0
  let (words, drawn) ← readRecords draw (wrap64 (base + draw.dataOffset)) maxSize count 0
  if drawn == 0 then pure ()
  else do
    let segment ← Work.ofOption .malformed (drawnSegment stream offset words)
    let accepted : Bool ← Work.ask (.runDraws segment)
    if accepted then
      .count { draws := drawn }
    else .stop .needsGpu

/-! ## The walk -/

def carryOut (stream : List Byte) (offset opcode : Nat) (body : List Nat) : Work Unit :=
  if opcode == DMA_DATA then dmaData body
  else if opcode == RELEASE_MEM then releaseMem body
  else if opcode == WAIT_REG_MEM then waitRegMem body
  else if opcode == WAIT_REG_MEM64 then waitRegMem64 body
  else if opcode == CONTEXT_CONTROL then contextControl body
  else if opcode == DISPATCH_DIRECT then dispatchDirect stream offset body
  else if opcode == DISPATCH_INDIRECT then dispatchIndirect stream offset body
  else if opcode == WRITE_DATA then writeData body
  else if opcode == EVENT_WRITE then eventWrite body
  else if opcode == STRMOUT_BUFFER_UPDATE then streamoutUpdate body
  else runIndirectDraw stream offset opcode body

/-- The draw segments found so far, and whether the last one still takes draws. -/
structure SegmentScan where
  segments : List DrawSegment
  isOpen : Bool

/-- One packet of the loop of `draw_segments`. -/
def scanPacket (stream : List Byte) (scan : SegmentScan) (p : Packet) : SegmentScan :=
  match p.kind with
  | .command opcode =>
      if isDraw opcode then
        let endAt := (p.bodyOffset + p.bodyLength) % (u32Max + 1)
        match scan.isOpen, scan.segments.getLast? with
        | true, some segment =>
            { segments := scan.segments.dropLast ++ [{ segment with endAt }], isOpen := true }
        | _, _ =>
            { segments := scan.segments ++ [{ stream, first := p.offset, endAt, whole := false }]
              isOpen := true }
      else if isMemoryInert opcode (p.bodyLength / 4) then scan
      else { scan with isOpen := false }
  | _ => scan

def isOwnGpuWork (p : Packet) : Bool :=
  match p.kind with
  | .command opcode => opcode == DISPATCH_DIRECT || isIndirectDraw opcode
  | _ => false

/-- The stream's draws split at every packet between two of them that is neither a draw nor
memory-inert. -/
def drawSegments (stream : List Byte) (packets : List Packet) : List DrawSegment :=
  match (packets.foldl (scanPacket stream) ⟨[], false⟩).segments with
  | [only] => [{ only with whole := !packets.any isOwnGpuWork }]
  | segments => segments

def carriedOutWhole (stream : List Byte) : Bool :=
  (walk stream).isTrustworthy &&
    match drawSegments stream (walk stream).packets with
    | [only] => only.whole
    | _ => false

/-- What a packet comes to: nothing, something carried out, or a stop. -/
inductive Step where
  | passedOver
  | carriedOut (segments : List DrawSegment) (result : CpExecution)
  | stopped (result : CpExecution)

/-- The segment whose first draw is at an offset, taken off the ones to come. -/
def nextIf (segments : List DrawSegment) (offset : Nat) : Option DrawSegment × List DrawSegment :=
  match segments with
  | segment :: rest => if segment.first == offset then (some segment, rest) else (none, segments)
  | [] => (none, [])

def Stop.stopped (stop : Stop) (offset opcode : Nat) : Stopped :=
  match stop with
  | .needsGpu => .needsGpu offset opcode
  | .outOfBounds address => .outOfBounds offset opcode address
  | .wait address reference observed => .waitNeverSatisfied offset address reference observed
  | .malformed => .malformed offset

def stoppedAt (result : CpExecution) (stop : Stop) (offset opcode : Nat) (bytes : List Byte) :
    CpExecution :=
  { result with
    stopped := stop.stopped offset opcode
    stoppedBody := if stop == .needsGpu then bodyHead bytes else result.stoppedBody }

def Packet.work (stream : List Byte) (p : Packet) (opcode : Nat) : Talk (Except Stop Unit × Counts) :=
  carryOut stream p.offset opcode (wordsOf (bodyBytes stream p))

def Packet.settle (stream : List Byte) (p : Packet) (opcode : Nat) (segments : List DrawSegment)
    (result : CpExecution) : Except Stop Unit × Counts → Step
  | (.ok (), more) => .carriedOut segments { result with counts := result.counts + more }
  | (.error stop, more) =>
      .stopped (stoppedAt { result with counts := result.counts + more } stop p.offset opcode
        (bodyBytes stream p))

def stepPacket (stream : List Byte) (p : Packet) (segments : List DrawSegment)
    (result : CpExecution) : Talk Step :=
  match p.kind with
  | .registerWrite _ | .filler => .done .passedOver
  | .reserved => .done (.stopped { result with stopped := .malformed p.offset })
  | .command opcode =>
      let bytes := bodyBytes stream p
      if isMemoryInert opcode (bytes.length / 4) then .done .passedOver
      else if isDraw opcode then
        match nextIf segments p.offset with
        | (some segment, rest) => .ask (.runDraws segment) (fun (accepted : Bool) =>
            if accepted then
              .done (.carriedOut rest { result with counts := result.counts + { draws := 1 } })
            else .done (.stopped (stoppedAt result .needsGpu p.offset opcode bytes)))
        | (none, segments) =>
            .done (.carriedOut segments { result with counts := result.counts + { draws := 1 } })
      else
        (p.work stream opcode).bind (fun done => .done (p.settle stream opcode segments result done))

/-- A packet that was come to: the turns it took with memory, and whether it was carried
out. -/
structure Entry where
  packet : Packet
  turns : Turns
  carried : Bool

/-- The loop of `execute_from`, with the packets it came to. -/
def executeLoop {σ : Type} (answer : (c : Call) → σ → c.Answer × σ) (stream : List Byte) :
    List Packet → List DrawSegment → CpExecution → σ → CpExecution × List Entry
  | [], _, result, _ => (result, [])
  | p :: rest, segments, result, s =>
      match (stepPacket stream p segments result).run answer s with
      | (.passedOver, s, _) => executeLoop answer stream rest segments result s
      | (.carriedOut segments result, s, turns) =>
          let (result, log) := executeLoop answer stream rest segments result s
          (result, ⟨p, turns, true⟩ :: log)
      | (.stopped result, _, turns) => (result, [⟨p, turns, false⟩])

def executeFrom (stream : List Byte) (start : Nat) (memory : CpMemory) : CpExecution × List Entry :=
  if !(walk stream).isTrustworthy then ({ stopped := .malformed 0 }, [])
  else
    executeLoop memory.answer stream ((walk stream).packets.filter (fun p => start ≤ p.offset))
      ((drawSegments stream (walk stream).packets).dropWhile (fun segment => segment.first < start))
      {} memory.state

def execute (stream : List Byte) (memory : CpMemory) : CpExecution × List Entry :=
  executeFrom stream 0 memory

/-! ## What the stream's own packets write -/

def spanOf (opcode : Nat) (body : List Nat) : Option (Nat × Nat) :=
  if opcode == WRITE_DATA then
    match body with
    | control :: low :: high :: data =>
        if WRITE_DATA_DST_SEL_MEMORY.contains ((control >>> 8) &&& 0xf) then
          let words := if control &&& WRITE_DATA_NO_INCREMENT != 0 then min data.length 1
            else data.length
          some (address (dwordAligned low) high, words * 4)
        else none
    | _ => none
  else if opcode == DMA_DATA then
    match decodeDmaData body with
    | .ok dma => some (dma.destination, dma.count)
    | .error _ => none
  else if opcode == RELEASE_MEM then
    match body with
    | _ :: selectors :: low :: high :: _ =>
        if selectors >>> 29 == DATA_SEL_VALUE_32BIT then some (address low high, 4)
        else if selectors >>> 29 == DATA_SEL_VALUE_64BIT ||
            selectors >>> 29 == DATA_SEL_TIMESTAMP then some (address low high, 8)
        else none
    | _ => none
  else none

def writtenSpan (stream : List Byte) (p : Packet) : Option (Nat × Nat) :=
  match p.kind with
  | .command opcode =>
      match getRange stream p.bodyOffset (p.bodyOffset + p.bodyLength) with
      | none => none
      | some bytes => (spanOf opcode (wordsOf bytes)).filter (fun span => 0 < span.2)
  | _ => none

/-- The memory the command processor's own packets in a stream are listed to write, as first
byte and bytes. -/
def writtenSpans (stream : List Byte) : List (Nat × Nat) :=
  if !(walk stream).isTrustworthy then []
  else (walk stream).packets.filterMap (writtenSpan stream)

end Orbistoun.Gpu.Cp
