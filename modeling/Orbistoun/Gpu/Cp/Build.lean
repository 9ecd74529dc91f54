import Orbistoun.Gpu.Cp.Packet

/-! # Building command packets

The write side of `walk`: each builder gives the words it writes. A `Call` is one call of one of
them, and `Call.parts` the packets it stands for, each with its kind and the dwords its body was
built with.
-/

namespace Orbistoun.Gpu.Cp.Build

/-- The header of a type-3 command packet; the count field stores one less than the body. -/
def commandHeader (opcode : UInt8) (bodyDwords : UInt32) : UInt32 :=
  ((3 : UInt32) <<< 30) ||| ((bodyDwords - 1) <<< (16 : UInt32)) |||
    (opcode.toUInt32 <<< (8 : UInt32))

def highHalf (address : UInt64) : UInt32 := (address >>> (32 : UInt64)).toUInt32

def placed (value mask shift : UInt64) : UInt64 := (value &&& mask) <<< shift

/-! ## Opcodes -/

def DISPATCH_DIRECT : UInt8 := 0x15
def INDEX_BUFFER_SIZE : UInt8 := 0x13
def INDEX_BASE : UInt8 := 0x26
def DRAW_INDEX_2 : UInt8 := 0x27
def DRAW_INDEX_AUTO : UInt8 := 0x2d
def NUM_INSTANCES : UInt8 := 0x2f
def EVENT_WRITE : UInt8 := 0x46
def SET_CONTEXT_REG : UInt8 := 0x69
def SET_SH_REG : UInt8 := 0x76
def SET_UCONFIG_REG : UInt8 := 0x79
def SET_UCONFIG_REG_INDEX : UInt8 := 0x7a
def SET_CONTEXT_REG_INDIRECT : UInt8 := 0x9f
def NOP : UInt8 := 0x10
def ACQUIRE_MEM : UInt8 := 0x58
def RELEASE_MEM : UInt8 := 0x49
def DMA_DATA : UInt8 := 0x50
def SET_BASE : UInt8 := 0x11
def DISPATCH_INDIRECT : UInt8 := 0x16
def DRAW_INDIRECT : UInt8 := 0x24
def DRAW_INDEX_INDIRECT : UInt8 := 0x25
def WAIT_REG_MEM : UInt8 := 0x3c
def WAIT_REG_MEM64 : UInt8 := 0x93
def DRAW_INDIRECT_MULTI : UInt8 := 0x2c
def DRAW_INDEX_INDIRECT_MULTI : UInt8 := 0x38

/-! ## Builders -/

def filler : List UInt32 := [(2 : UInt32) <<< 30]

def dispatchDirect (x y z : UInt32) : List UInt32 :=
  [commandHeader DISPATCH_DIRECT 4 ||| 0x2, x, y, z, 1]

def indirectInitiator (modifier : UInt32) : UInt32 := 0x41 ||| (modifier &&& 0xa038)

def agcDispatchDirect (x y z modifier : UInt32) : List UInt32 :=
  [commandHeader DISPATCH_DIRECT 4, x, y, z, indirectInitiator modifier]

def reservation (opcode : UInt8) (bodyDwords : UInt32) : List UInt32 :=
  commandHeader opcode bodyDwords :: List.replicate bodyDwords.toNat 0

/-- The `SET_UCONFIG_REG` header the marker and wait builders write. -/
def MARKER_HEADER : UInt32 := 0xc0017904

def MARKER_REGISTER : UInt32 := 0x342

def markerSkeleton : List UInt32 := [MARKER_HEADER, 0, 0]

def waitRegMem (a : Fin 11 → UInt64) : List UInt32 :=
  let (wide, function, engine, cache) := (a 0, a 1, a 2, a 3)
  let (poll, reference, mask) := (a 4, a 5, a 6)
  let control := (0x10 ||| placed function 7 0 ||| placed engine 3 8 |||
    placed cache 3 25).toUInt32
  let interval : UInt32 := (placed (a 7 >>> (4 : UInt64)) 0xffff 0).toUInt32
  [0xc0027904, MARKER_REGISTER, if wide = 1 then 0xc8020000 else 0xc8010000, poll.toUInt32] ++
    (if wide = 1 then
      let address : UInt64 := poll &&& ~~~7
      [commandHeader WAIT_REG_MEM64 8, control, address.toUInt32, highHalf address,
        reference.toUInt32, highHalf reference, mask.toUInt32, highHalf mask, interval]
    else
      let address : UInt64 := poll &&& ~~~3
      [commandHeader WAIT_REG_MEM 6, control, address.toUInt32, highHalf address,
        reference.toUInt32, mask.toUInt32, interval]) ++
    [MARKER_HEADER, MARKER_REGISTER, 0xc8000000]

def resetQueueSkeleton : List UInt32 := [0xffff1000, 0xc0027904, 0, 0, 0, MARKER_HEADER, 0, 0]

/-- Bits of an indirect register packet's last dword that hold the register count. -/
def INDIRECT_COUNT_MASK : UInt32 := 0x3fff

def setRegistersIndirect (opcode : UInt8) (table count : UInt64) : List UInt32 :=
  [commandHeader opcode 4, table.toUInt32 &&& ~~~3, highHalf table, 0x80000000,
    count.toUInt32 &&& INDIRECT_COUNT_MASK]

def setCxRegistersIndirect (table count : UInt64) : List UInt32 :=
  setRegistersIndirect SET_CONTEXT_REG_INDIRECT table count

/-- A header alone. -/
def nop : List UInt32 := [0xffff1000]

def acquireMemSkeleton : List UInt32 := [commandHeader ACQUIRE_MEM 7, 0, 0, 0, 0, 0, 0, 0]

def releaseMem (a : Fin 11 → UInt64) : List UInt32 :=
  let index : UInt64 := 5 + placed (a 0 >>> (6 : UInt64)) 1 0
  let destination : UInt64 := a 4 &&& ~~~3
  [commandHeader RELEASE_MEM 7,
    (placed (a 0) 0x3f 0 ||| (index <<< (8 : UInt64)) ||| placed (a 1) 0xfff 12 |||
      placed (a 3) 3 25).toUInt32,
    (placed (a 2) 3 16 ||| placed (a 9) 7 24 ||| placed (a 5) 7 29).toUInt32,
    destination.toUInt32, highHalf destination, (a 6).toUInt32, highHalf (a 6),
    (placed (a 10) 0x07ffffff 0).toUInt32]

def both (select : UInt64) : UInt64 := if select &&& 3 = 3 then 1 else 0

def dmaData (a : Fin 11 → UInt64) : List UInt32 :=
  let control : UInt64 := placed (a 0) 1 0 ||| placed (a 5) 3 13 ||| placed (a 1) 3 20 |||
    placed (a 2) 3 25 ||| placed (a 4) 3 29 ||| placed (a 10) 1 31
  let count : UInt64 := placed (a 7) 0x03ffffff 0 ||| placed (a 4) 1 26 ||| placed (a 1) 1 27 |||
    (both (a 4) <<< (28 : UInt64)) ||| (both (a 1) <<< (29 : UInt64)) ||| placed (a 8) 1 30 |||
    placed (a 9) 1 31
  [commandHeader DMA_DATA 6, control.toUInt32, (a 6).toUInt32, highHalf (a 6), (a 3).toUInt32,
    highHalf (a 3), count.toUInt32]

def setBaseIndirectArgs (shaderType : UInt32) (address : UInt64) : List UInt32 :=
  [commandHeader SET_BASE 3 ||| ((shaderType &&& 1) <<< (1 : UInt32)), 1, address.toUInt32, highHalf address]

def dispatchIndirectOffset (offset modifier : UInt32) : List UInt32 :=
  [commandHeader DISPATCH_INDIRECT 2, offset, indirectInitiator modifier]

def dispatchIndirectArgs (address : UInt64) (modifier : UInt32) : List UInt32 :=
  [commandHeader DISPATCH_INDIRECT 3, address.toUInt32, highHalf address,
    indirectInitiator modifier]

/-- The location of a shader register a modifier does not name. -/
def UNNAMED_LOCATION : UInt32 := 0x280

def GS_USER_DATA_LOCATION : UInt32 := 0x8c

/-- What an indirect draw's modifier asks for: where it names a register it carries the
measured bits alone. -/
structure IndirectModifier where
  bits : UInt32
  measured : bits &&& 0xf = 0 ∨ bits &&& ~~~0xe000011f = 0

namespace IndirectModifier

def new (modifier : UInt64) : Option IndirectModifier :=
  let bits := modifier.toUInt32
  if h : bits &&& 0xf = 0 ∨ bits &&& ~~~0xe000011f = 0 then some ⟨bits, h⟩ else none

def names (m : IndirectModifier) (bit : UInt32) : Bool := m.bits &&& bit ≠ 0

def location (m : IndirectModifier) (bit : UInt32) : UInt32 :=
  if m.names bit then GS_USER_DATA_LOCATION else UNNAMED_LOCATION

def vertexWord (m : IndirectModifier) (indexed : Bool) : UInt32 :=
  let index : UInt32 := if indexed && m.names 2 then GS_USER_DATA_LOCATION <<< (16 : UInt32) else 0
  m.location 1 ||| index

def startIndexEnable (m : IndirectModifier) (indexed : Bool) : UInt32 :=
  if indexed && m.names 2 then (1 : UInt32) <<< 28 else 0

def initiator (m : IndirectModifier) (source : UInt32) : UInt32 :=
  source ||| ((m.bits >>> (3 : UInt32)) &&& (0x20 : UInt32))

end IndirectModifier

def drawIndirect (offset : UInt32) (modifier : IndirectModifier) : List UInt32 :=
  [commandHeader DRAW_INDIRECT 4, offset, modifier.vertexWord false, modifier.location 4,
    modifier.initiator 2]

def drawIndexIndirect (offset : UInt32) (modifier : IndirectModifier) : List UInt32 :=
  [commandHeader DRAW_INDEX_INDIRECT 4, offset, modifier.vertexWord true,
    modifier.location 4 ||| modifier.startIndexEnable true, modifier.initiator 0]

structure MultiDraw where
  offset : UInt32
  countFromMemory : Bool
  maxCount : UInt32
  countAddress : UInt64
  stride : UInt32

def drawIndirectMulti (indexed : Bool) (draw : MultiDraw) (modifier : IndirectModifier) :
    List UInt32 :=
  let (begin_, opcode, source) : UInt32 × UInt8 × UInt32 :=
    if indexed then (0xc6000005, DRAW_INDEX_INDIRECT_MULTI, 0)
    else (0xc6000008, DRAW_INDIRECT_MULTI, 2)
  let drawIndex : UInt32 := modifier.location 8 |||
    (if modifier.names 8 then (1 : UInt32) <<< 31 else 0) |||
    (draw.countFromMemory.toUInt32 <<< (30 : UInt32)) ||| modifier.startIndexEnable indexed |||
    (if modifier.names 0x10 then (1 : UInt32) <<< 27 else 0)
  [MARKER_HEADER, MARKER_REGISTER, begin_, commandHeader opcode 9, draw.offset,
    modifier.vertexWord indexed, modifier.location 4, drawIndex, draw.maxCount,
    draw.countAddress.toUInt32, highHalf draw.countAddress, draw.stride,
    modifier.initiator source, MARKER_HEADER, MARKER_REGISTER, 0xc6000000]

def eventWrite (eventType : UInt32) : List UInt32 := [commandHeader EVENT_WRITE 1, eventType]

def setIndexCount (indices : UInt32) : List UInt32 := [commandHeader INDEX_BUFFER_SIZE 1, indices]

def setNumInstances (instances : UInt32) : List UInt32 :=
  [commandHeader NUM_INSTANCES 1, instances]

def drawIndexAuto (indexCount initiator : UInt32) : List UInt32 :=
  [commandHeader DRAW_INDEX_AUTO 2, indexCount, initiator]

def setIndexBase (address : UInt64) : List UInt32 :=
  [commandHeader INDEX_BASE 2, address.toUInt32, highHalf address]

def setContextRegister (offset : UInt16) (value : UInt32) : List UInt32 :=
  [commandHeader SET_CONTEXT_REG 2, offset.toUInt32, value]

def setUconfigRegister (offset : UInt16) (value : UInt32) : List UInt32 :=
  [commandHeader SET_UCONFIG_REG 2, offset.toUInt32, value]

/-- A run of consecutive shader registers; nothing for an empty run, nor for one whose body
is no 32-bit count. -/
def setShRegisterRange (offset : UInt16) (values : List UInt32) : List UInt32 :=
  if values.isEmpty then []
  else if values.length + 1 < 2 ^ 32 then
    commandHeader SET_SH_REG (UInt32.ofNat (values.length + 1)) :: offset.toUInt32 :: values
  else []

def setIndexSize (indexType flags : UInt32) : List UInt32 :=
  [commandHeader SET_UCONFIG_REG_INDEX 2, 0x20000243,
    0x400 ||| ((flags &&& 1) <<< (6 : UInt32)) ||| (indexType &&& 3)]

def drawIndex2 (maxSize : UInt32) (address : UInt64) (indexCount initiator : UInt32) :
    List UInt32 :=
  [commandHeader DRAW_INDEX_2 5, maxSize, address.toUInt32, highHalf address, indexCount,
    initiator]

/-! ## Calls -/

inductive Call where
  | filler
  | dispatchDirect (x y z : UInt32)
  | agcDispatchDirect (x y z modifier : UInt32)
  | reservation (opcode : UInt8) (bodyDwords : UInt32)
  | markerSkeleton
  | waitRegMem (a : Fin 11 → UInt64)
  | resetQueueSkeleton
  | setRegistersIndirect (opcode : UInt8) (table count : UInt64)
  | setCxRegistersIndirect (table count : UInt64)
  | nop
  | acquireMemSkeleton
  | releaseMem (a : Fin 11 → UInt64)
  | dmaData (a : Fin 11 → UInt64)
  | setBaseIndirectArgs (shaderType : UInt32) (address : UInt64)
  | dispatchIndirectOffset (offset modifier : UInt32)
  | dispatchIndirectArgs (address : UInt64) (modifier : UInt32)
  | drawIndirect (offset : UInt32) (modifier : IndirectModifier)
  | drawIndexIndirect (offset : UInt32) (modifier : IndirectModifier)
  | drawIndirectMulti (indexed : Bool) (draw : MultiDraw) (modifier : IndirectModifier)
  | eventWrite (eventType : UInt32)
  | setIndexCount (indices : UInt32)
  | setNumInstances (instances : UInt32)
  | drawIndexAuto (indexCount initiator : UInt32)
  | setIndexBase (address : UInt64)
  | setContextRegister (offset : UInt16) (value : UInt32)
  | setUconfigRegister (offset : UInt16) (value : UInt32)
  | setShRegisterRange (offset : UInt16) (values : List UInt32)
  | setIndexSize (indexType flags : UInt32)
  | drawIndex2 (maxSize : UInt32) (address : UInt64) (indexCount initiator : UInt32)

def Call.words : Call → List UInt32
  | .filler => Build.filler
  | .dispatchDirect x y z => Build.dispatchDirect x y z
  | .agcDispatchDirect x y z modifier => Build.agcDispatchDirect x y z modifier
  | .reservation opcode bodyDwords => Build.reservation opcode bodyDwords
  | .markerSkeleton => Build.markerSkeleton
  | .waitRegMem a => Build.waitRegMem a
  | .resetQueueSkeleton => Build.resetQueueSkeleton
  | .setRegistersIndirect opcode table count => Build.setRegistersIndirect opcode table count
  | .setCxRegistersIndirect table count => Build.setCxRegistersIndirect table count
  | .nop => Build.nop
  | .acquireMemSkeleton => Build.acquireMemSkeleton
  | .releaseMem a => Build.releaseMem a
  | .dmaData a => Build.dmaData a
  | .setBaseIndirectArgs shaderType address => Build.setBaseIndirectArgs shaderType address
  | .dispatchIndirectOffset offset modifier => Build.dispatchIndirectOffset offset modifier
  | .dispatchIndirectArgs address modifier => Build.dispatchIndirectArgs address modifier
  | .drawIndirect offset modifier => Build.drawIndirect offset modifier
  | .drawIndexIndirect offset modifier => Build.drawIndexIndirect offset modifier
  | .drawIndirectMulti indexed draw modifier => Build.drawIndirectMulti indexed draw modifier
  | .eventWrite eventType => Build.eventWrite eventType
  | .setIndexCount indices => Build.setIndexCount indices
  | .setNumInstances instances => Build.setNumInstances instances
  | .drawIndexAuto indexCount initiator => Build.drawIndexAuto indexCount initiator
  | .setIndexBase address => Build.setIndexBase address
  | .setContextRegister offset value => Build.setContextRegister offset value
  | .setUconfigRegister offset value => Build.setUconfigRegister offset value
  | .setShRegisterRange offset values => Build.setShRegisterRange offset values
  | .setIndexSize indexType flags => Build.setIndexSize indexType flags
  | .drawIndex2 maxSize address indexCount initiator =>
      Build.drawIndex2 maxSize address indexCount initiator

/-- A packet as it was built: its kind and the dwords of its body. -/
structure Part where
  kind : PacketKind
  body : Nat
  deriving DecidableEq, Repr

def Part.command (opcode : UInt8) (body : Nat) : Part := ⟨.command opcode.toNat, body⟩

def Call.parts : Call → List Part
  | .filler => [⟨.filler, 0⟩]
  | .dispatchDirect _ _ _ | .agcDispatchDirect _ _ _ _ => [.command DISPATCH_DIRECT 4]
  | .reservation opcode bodyDwords => [.command opcode bodyDwords.toNat]
  | .markerSkeleton => [.command SET_UCONFIG_REG 2]
  | .waitRegMem a =>
      [.command SET_UCONFIG_REG 3,
        if a 0 = 1 then .command WAIT_REG_MEM64 8 else .command WAIT_REG_MEM 6,
        .command SET_UCONFIG_REG 2]
  | .resetQueueSkeleton =>
      [.command NOP 0, .command SET_UCONFIG_REG 3, .command SET_UCONFIG_REG 2]
  | .setRegistersIndirect opcode _ _ => [.command opcode 4]
  | .setCxRegistersIndirect _ _ => [.command SET_CONTEXT_REG_INDIRECT 4]
  | .nop => [.command NOP 0]
  | .acquireMemSkeleton => [.command ACQUIRE_MEM 7]
  | .releaseMem _ => [.command RELEASE_MEM 7]
  | .dmaData _ => [.command DMA_DATA 6]
  | .setBaseIndirectArgs _ _ => [.command SET_BASE 3]
  | .dispatchIndirectOffset _ _ => [.command DISPATCH_INDIRECT 2]
  | .dispatchIndirectArgs _ _ => [.command DISPATCH_INDIRECT 3]
  | .drawIndirect _ _ => [.command DRAW_INDIRECT 4]
  | .drawIndexIndirect _ _ => [.command DRAW_INDEX_INDIRECT 4]
  | .drawIndirectMulti indexed _ _ =>
      [.command SET_UCONFIG_REG 2,
        .command (if indexed then DRAW_INDEX_INDIRECT_MULTI else DRAW_INDIRECT_MULTI) 9,
        .command SET_UCONFIG_REG 2]
  | .eventWrite _ => [.command EVENT_WRITE 1]
  | .setIndexCount _ => [.command INDEX_BUFFER_SIZE 1]
  | .setNumInstances _ => [.command NUM_INSTANCES 1]
  | .drawIndexAuto _ _ => [.command DRAW_INDEX_AUTO 2]
  | .setIndexBase _ => [.command INDEX_BASE 2]
  | .setContextRegister _ _ => [.command SET_CONTEXT_REG 2]
  | .setUconfigRegister _ _ => [.command SET_UCONFIG_REG 2]
  | .setShRegisterRange _ values =>
      if values.isEmpty then []
      else if values.length + 1 < 2 ^ 32 then [.command SET_SH_REG (values.length + 1)]
      else []
  | .setIndexSize _ _ => [.command SET_UCONFIG_REG_INDEX 2]
  | .drawIndex2 _ _ _ _ => [.command DRAW_INDEX_2 5]

def bytesOf (words : List UInt32) : List Byte := words.flatMap (fun w => toLeBytes 4 w.toNat)

def stream (calls : List Call) : List Byte := bytesOf (calls.flatMap Call.words)

/-- Packets one behind another: kind, offset and length in bytes. -/
def laid : Nat → List Part → List (PacketKind × Nat × Nat)
  | _, [] => []
  | at_, p :: rest => (p.kind, at_, 4 + 4 * p.body) :: laid (at_ + (4 + 4 * p.body)) rest

/-- A walk of what the calls wrote gives the packets they stand for, which tile it. -/
def WalksBack (calls : List Call) : Prop :=
  (walk (stream calls)).packets.map (fun p => (p.kind, p.offset, p.length)) =
      laid 0 (calls.flatMap Call.parts) ∧
    (walk (stream calls)).isTrustworthy = true ∧
    ((walk (stream calls)).packets.map Packet.length).sum = (stream calls).length

end Orbistoun.Gpu.Cp.Build
