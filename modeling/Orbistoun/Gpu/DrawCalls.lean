import Orbistoun.Gpu.RegisterSweep

/-! # The draws a submission asks for

A draw takes the instance count, the index buffer and the index size its stream set before it.
The index size an offset draw steps by is followed here by the packets that start at its
register alone, and taken from the registers in force where none of them set one.
-/

namespace Orbistoun.Gpu.Registers

open Orbistoun.Gpu.Cp

inductive DrawKind where
  | auto (vertices : Nat)
  | indexed (indices address : Nat)
  deriving DecidableEq, Repr

/-- One draw a submission asked for. -/
structure DrawCall where
  packetOffset : Nat
  instances : Nat
  kind : DrawKind
  deriving DecidableEq, Repr

/-- `VGT_INDEX_TYPE`'s user-config offset. -/
def VGT_INDEX_TYPE_OFFSET : Nat := 0x243

/-- `VGT_INDEX_TYPE`. -/
def VGT_INDEX_TYPE : Nat := 0xC243

/-- The bytes an index takes; the eight-bit size is not modelled. -/
def indexSize (value : Nat) : Option Nat :=
  match value &&& 3 with
  | 0 => some 2
  | 1 => some 4
  | _ => none

/-- What a draw takes from the packets before it. -/
structure DrawState where
  instances : Nat := 1
  indexBase : Option Nat := none
  indexBytes : Option Nat := none

/-- One packet: the state after it, and the draw it asks for. -/
def drawPacket (body : List Byte) (indexType : Nat → Option Nat) (s : DrawState) (p : Packet) :
    DrawState × Option DrawCall :=
  match p.kind, readWords body p.bodyOffset p.bodyLength with
  | .command opcode, some words =>
      if opcode = NUM_INSTANCES then
        match wordAt words 0 with
        | some count => ({ s with instances := count }, none)
        | none => (s, none)
      else if opcode = INDEX_BASE then
        match wordAt words 0, wordAt words 1 with
        | some lo, some hi => ({ s with indexBase := some (lo ||| (hi <<< 32)) }, none)
        | _, _ => (s, none)
      else if opcode = SET_UCONFIG_REG ∨ opcode = SET_UCONFIG_REG_INDEX then
        match wordAt words 0, wordAt words 1 with
        | some offset, some value =>
            if offset &&& 0xffff = VGT_INDEX_TYPE_OFFSET then
              ({ s with indexBytes := indexSize value }, none)
            else (s, none)
        | _, _ => (s, none)
      else if opcode = DRAW_INDEX_OFFSET_2 then
        let bytes := s.indexBytes.or ((indexType p.offset).bind indexSize)
        match s.indexBase, bytes, wordAt words 1, wordAt words 2 with
        | some base, some bytes, some offset, some indices =>
            (s, some ⟨p.offset, s.instances, .indexed indices (wrap64 (base + offset * bytes))⟩)
        | _, _, _, _ => (s, none)
      else if opcode = DRAW_INDEX_AUTO then
        match wordAt words 0 with
        | some vertices => (s, some ⟨p.offset, s.instances, .auto vertices⟩)
        | none => (s, none)
      else if opcode = DRAW_INDEX_2 then
        match wordAt words 1, wordAt words 2, wordAt words 3 with
        | some lo, some hi, some indices =>
            (s, some ⟨p.offset, s.instances, .indexed indices (lo ||| (hi <<< 32))⟩)
        | _, _, _ => (s, none)
      else (s, none)
  | _, _ => (s, none)

def drawStep (body : List Byte) (indexType : Nat → Option Nat) (s : DrawState × List DrawCall)
    (p : Packet) : DrawState × List DrawCall :=
  let (state, draw) := drawPacket body indexType s.1 p
  (state, s.2 ++ draw.toList)

def drawsOf (body : List Byte) (indexType : Nat → Option Nat) (packets : List Packet) :
    DrawState × List DrawCall :=
  packets.foldl (drawStep body indexType) ({}, [])

/-- Every draw a submission asked for, `indexType` the state in force where the stream set no
index size in a packet. -/
def drawCallsReading (walk : PacketWalk) (body : List Byte) (indexType : Nat → Option Nat) :
    List DrawCall :=
  (drawsOf body indexType walk.packets).2

/-! ## What the packets before a draw set -/

/-- The value a packet that starts at `VGT_INDEX_TYPE` gives it. -/
def indexTypeAlone (body : List Byte) (p : Packet) : Option Nat :=
  match p.kind, readWords body p.bodyOffset p.bodyLength with
  | .command opcode, some words =>
      if opcode = SET_UCONFIG_REG ∨ opcode = SET_UCONFIG_REG_INDEX then
        match wordAt words 0, wordAt words 1 with
        | some offset, some value =>
            if offset &&& 0xffff = VGT_INDEX_TYPE_OFFSET then some value else none
        | _, _ => none
      else none
  | _, _ => none

def indexBaseOf (body : List Byte) (p : Packet) : Option Nat :=
  match p.kind, readWords body p.bodyOffset p.bodyLength with
  | .command opcode, some words =>
      if opcode = INDEX_BASE then
        match wordAt words 0, wordAt words 1 with
        | some lo, some hi => some (lo ||| (hi <<< 32))
        | _, _ => none
      else none
  | _, _ => none

def lastIndexBase (body : List Byte) (packets : List Packet) : Option Nat :=
  (packets.filterMap (indexBaseOf body)).getLast?

/-- The last value given to `VGT_INDEX_TYPE` by packets that start at it. -/
def lastIndexTypeAlone (body : List Byte) (packets : List Packet) : Option Nat :=
  (packets.filterMap (indexTypeAlone body)).getLast?

def offsetDraw (body : List Byte) (p : Packet) : Option (Nat × Nat) :=
  match p.kind, readWords body p.bodyOffset p.bodyLength with
  | .command opcode, some words =>
      if opcode = DRAW_INDEX_OFFSET_2 then
        match wordAt words 1, wordAt words 2 with
        | some offset, some indices => some (offset, indices)
        | _, _ => none
      else none
  | _, _ => none

/-! ## The index size in force -/

section

variable (stream : List Byte) (v : Vocabulary) (tables : Option Reader)

/-- `VGT_INDEX_TYPE` in force at a packet, whatever form of packet wrote it last. -/
def indexTypeInForce (packet : Nat) : Option Nat :=
  scanned (registerWritesReading (walk stream) stream v tables) packet VGT_INDEX_TYPE

/-- A draw is what a packet adds to the draws the submission asked for before it. -/
def Reported (packets : List Packet) (p : Packet) (draw : DrawCall) : Prop :=
  drawCallsReading { walk stream with packets := packets ++ [p] } stream
      (indexTypeInForce stream v tables) =
    drawCallsReading { walk stream with packets := packets } stream
      (indexTypeInForce stream v tables) ++ [draw]

/-- Each offset draw reported begins its offset of indices past the index buffer bound, an
index of the size in force at it. -/
def StepsByIndexSize : Prop :=
  ∀ packets p rest, (walk stream).packets = packets ++ p :: rest →
    p.kind = .command DRAW_INDEX_OFFSET_2 → ∀ draw, Reported stream v tables packets p draw →
      ∃ base offset indices size, lastIndexBase stream packets = some base ∧
        offsetDraw stream p = some (offset, indices) ∧
        (indexTypeInForce stream v tables p.offset).bind indexSize = some size ∧
        draw.kind = .indexed indices (base + offset * size)

/-- At each offset draw from a bound buffer, the last size set by a packet that starts at the
register is the one in force, unless the draw begins at the first index; and its indices lie
below the end of the address space. -/
def SizesAgree : Prop :=
  ∀ packets p rest, (walk stream).packets = packets ++ p :: rest →
    ∀ base offset indices, lastIndexBase stream packets = some base →
      offsetDraw stream p = some (offset, indices) →
        (∀ bytes, (lastIndexTypeAlone stream packets).bind indexSize = some bytes →
          ∃ size, (indexTypeInForce stream v tables p.offset).bind indexSize = some size ∧
            (bytes = size ∨ offset = 0)) ∧
        ∀ size, (indexTypeInForce stream v tables p.offset).bind indexSize = some size →
          base + offset * size < 2 ^ 64

end

/-! ## The state a draw finds -/

variable {body : List Byte} {indexType : Nat → Option Nat}

/-- An index buffer stays bound until a packet binds another. -/
theorem drawPacket_indexBase (s : DrawState) (p : Packet) :
    (drawPacket body indexType s p).1.indexBase = (indexBaseOf body p).or s.indexBase := by
  unfold drawPacket indexBaseOf
  cases hkind : p.kind with
  | registerWrite => rfl
  | filler => rfl
  | reserved => rfl
  | command opcode =>
      cases readWords body p.bodyOffset p.bodyLength with
      | none => rfl
      | some words =>
          dsimp only
          by_cases hcount : opcode = NUM_INSTANCES
          · subst hcount
            rw [if_pos rfl, if_neg (by decide)]
            split <;> rfl
          rw [if_neg hcount]
          by_cases hbase : opcode = INDEX_BASE
          · rw [if_pos hbase, if_pos hbase]
            split <;> rfl
          rw [if_neg hbase, if_neg hbase, Option.none_or]
          repeat' split
          all_goals rfl

/-- The index size stays until a packet that starts at its register gives another. -/
theorem drawPacket_indexBytes (s : DrawState) (p : Packet) :
    (drawPacket body indexType s p).1.indexBytes =
      (indexTypeAlone body p).elim s.indexBytes indexSize := by
  unfold drawPacket indexTypeAlone
  cases hkind : p.kind with
  | registerWrite => rfl
  | filler => rfl
  | reserved => rfl
  | command opcode =>
      cases readWords body p.bodyOffset p.bodyLength with
      | none => rfl
      | some words =>
          dsimp only
          by_cases hsize : opcode = SET_UCONFIG_REG ∨ opcode = SET_UCONFIG_REG_INDEX
          · have hcount : opcode ≠ NUM_INSTANCES := by rcases hsize with rfl | rfl <;> decide
            have hbase : opcode ≠ INDEX_BASE := by rcases hsize with rfl | rfl <;> decide
            rw [if_neg hcount, if_neg hbase, if_pos hsize, if_pos hsize]
            cases wordAt words 0 with
            | none => rfl
            | some offset =>
                cases wordAt words 1 with
                | none => rfl
                | some value =>
                    dsimp only
                    split <;> rfl
          · rw [if_neg hsize, if_neg hsize, Option.elim_none]
            repeat' split
            all_goals rfl

theorem drawsOf_append (packets : List Packet) (p : Packet) :
    drawsOf body indexType (packets ++ [p]) =
      drawStep body indexType (drawsOf body indexType packets) p := by
  rw [drawsOf, List.foldl_append]
  rfl

theorem drawsOf_indexBase (packets : List Packet) :
    (drawsOf body indexType packets).1.indexBase = lastIndexBase body packets := by
  induction packets using List.reverseRecOn with
  | nil => rfl
  | append_singleton packets p ih =>
      rw [drawsOf_append, drawStep]
      dsimp only
      rw [drawPacket_indexBase, ih]
      unfold lastIndexBase
      rw [List.filterMap_append, List.filterMap_cons, List.filterMap_nil]
      cases indexBaseOf body p with
      | none => rw [List.append_nil, Option.none_or]
      | some base => rw [List.getLast?_concat, Option.some_or]

theorem drawsOf_indexBytes (packets : List Packet) :
    (drawsOf body indexType packets).1.indexBytes =
      (lastIndexTypeAlone body packets).bind indexSize := by
  induction packets using List.reverseRecOn with
  | nil => rfl
  | append_singleton packets p ih =>
      rw [drawsOf_append, drawStep]
      dsimp only
      rw [drawPacket_indexBytes, ih]
      unfold lastIndexTypeAlone
      rw [List.filterMap_append, List.filterMap_cons, List.filterMap_nil]
      cases indexTypeAlone body p with
      | none => rw [List.append_nil, Option.elim_none]
      | some value => rw [List.getLast?_concat, Option.bind_some, Option.elim_some]

theorem drawPacket_offset {p : Packet} (hkind : p.kind = .command DRAW_INDEX_OFFSET_2)
    (s : DrawState) (draw : DrawCall) :
    (drawPacket body indexType s p).2 = some draw ↔
      ∃ base offset indices bytes, s.indexBase = some base ∧
        offsetDraw body p = some (offset, indices) ∧
        s.indexBytes.or ((indexType p.offset).bind indexSize) = some bytes ∧
        draw = ⟨p.offset, s.instances, .indexed indices (wrap64 (base + offset * bytes))⟩ := by
  unfold drawPacket offsetDraw
  rw [hkind]
  cases readWords body p.bodyOffset p.bodyLength with
  | none => simp
  | some words =>
      dsimp only
      rw [if_neg (by decide), if_neg (by decide), if_neg (by decide), if_pos rfl, if_pos rfl]
      cases s.indexBase with
      | none => simp
      | some base =>
          cases s.indexBytes.or ((indexType p.offset).bind indexSize) with
          | none => simp
          | some bytes =>
              cases wordAt words 1 with
              | none => simp
              | some offset =>
                  cases wordAt words 2 with
                  | none => simp
                  | some indices => simp [eq_comm]

theorem reported_iff {stream : List Byte} {v : Vocabulary} {tables : Option Reader}
    {packets : List Packet} {p : Packet} {draw : DrawCall} :
    Reported stream v tables packets p draw ↔
      (drawPacket stream (indexTypeInForce stream v tables)
        (drawsOf stream (indexTypeInForce stream v tables) packets).1 p).2 = some draw := by
  unfold Reported drawCallsReading
  rw [drawsOf_append, drawStep, List.append_right_inj]
  cases (drawPacket stream (indexTypeInForce stream v tables)
    (drawsOf stream (indexTypeInForce stream v tables) packets).1 p).2 with
  | none => simp
  | some found => simp

/-! ## The addresses -/

theorem indexSize_bounds {value size : Nat} (h : indexSize value = some size) :
    size = 2 ∨ size = 4 := by
  unfold indexSize at h
  split at h
  · exact .inl (Option.some.inj h).symm
  · exact .inr (Option.some.inj h).symm
  · cases h

theorem offsetDraw_le {p : Packet} {offset indices : Nat}
    (h : offsetDraw body p = some (offset, indices)) : offset ≤ u32Max := by
  unfold offsetDraw at h
  split at h
  · split at h
    · split at h
      · next hoffset _ =>
        cases h
        exact wordAt_le hoffset
      · cases h
    · cases h
  · cases h

theorem indexBaseOf_lt {p : Packet} {base : Nat} (h : indexBaseOf body p = some base) :
    base < 2 ^ 64 := by
  unfold indexBaseOf at h
  split at h
  · split at h
    · split at h
      · next hlo hhi =>
        cases h
        have hlo := wordAt_le hlo
        have hhi := wordAt_le hhi
        rw [show u32Max = 4294967295 from rfl] at hlo hhi
        apply Nat.or_lt_two_pow
        · omega
        · rw [Nat.shiftLeft_eq]
          omega
      · cases h
    · cases h
  · cases h

theorem lastIndexBase_lt {packets : List Packet} {base : Nat}
    (h : lastIndexBase body packets = some base) : base < 2 ^ 64 := by
  obtain ⟨p, -, hbase⟩ := List.mem_filterMap.mp (List.mem_of_getLast? h)
  exact indexBaseOf_lt hbase

theorem bind_indexSize_bounds {value : Option Nat} {size : Nat}
    (h : value.bind indexSize = some size) : size = 2 ∨ size = 4 := by
  obtain ⟨word, -, hsize⟩ := Option.bind_eq_some_iff.mp h
  exact indexSize_bounds hsize

/-- The address the code forms is the one of another size only where the two sizes are one or
no index is skipped, and it does not wrap. -/
theorem wrap64_eq_iff {base offset bytes size : Nat} (hbase : base < 2 ^ 64)
    (hoffset : offset ≤ u32Max) (hbytes : bytes = 2 ∨ bytes = 4) (hsize : size = 2 ∨ size = 4) :
    wrap64 (base + offset * bytes) = base + offset * size ↔
      (bytes = size ∨ offset = 0) ∧ base + offset * size < 2 ^ 64 := by
  unfold wrap64
  rw [show u32Max = 4294967295 from rfl] at hoffset
  rcases hbytes with rfl | rfl <;> rcases hsize with rfl | rfl <;> omega

theorem kind_of_offsetDraw {p : Packet} {found : Nat × Nat} (h : offsetDraw body p = some found) :
    p.kind = .command DRAW_INDEX_OFFSET_2 := by
  unfold offsetDraw at h
  split at h
  · next opcode words hkind _ =>
    split at h
    · next heq => rw [hkind, heq]
    · cases h
  · cases h

theorem drawn_iff {stream : List Byte} {v : Vocabulary} {tables : Option Reader}
    {packets : List Packet} {p : Packet} (hkind : p.kind = .command DRAW_INDEX_OFFSET_2)
    {draw : DrawCall} :
    Reported stream v tables packets p draw ↔
      ∃ base offset indices bytes, lastIndexBase stream packets = some base ∧
        offsetDraw stream p = some (offset, indices) ∧
        ((lastIndexTypeAlone stream packets).bind indexSize).or
          ((indexTypeInForce stream v tables p.offset).bind indexSize) = some bytes ∧
        draw = ⟨p.offset, (drawsOf stream (indexTypeInForce stream v tables) packets).1.instances,
          .indexed indices (wrap64 (base + offset * bytes))⟩ := by
  rw [reported_iff, drawPacket_offset hkind, drawsOf_indexBase, drawsOf_indexBytes]

/-- The addresses of a submission's offset draws step by the index size in force exactly where
the packets that start at its register agree with every other form that writes it. -/
theorem stepsByIndexSize_iff (stream : List Byte) (v : Vocabulary) (tables : Option Reader) :
    StepsByIndexSize stream v tables ↔ SizesAgree stream v tables := by
  constructor
  · intro h packets p rest hsplit base offset indices hbase hdraw
    have hkind := kind_of_offsetDraw hdraw
    have hbound := lastIndexBase_lt hbase
    have hoffset := offsetDraw_le hdraw
    have hsteps {bytes : Nat} (hbytes : ((lastIndexTypeAlone stream packets).bind indexSize).or
        ((indexTypeInForce stream v tables p.offset).bind indexSize) = some bytes) :
        ∃ size, (indexTypeInForce stream v tables p.offset).bind indexSize = some size ∧
          (bytes = size ∨ offset = 0) ∧ base + offset * size < 2 ^ 64 := by
      have hdrawn := (drawn_iff hkind).mpr ⟨base, offset, indices, bytes, hbase, hdraw, hbytes, rfl⟩
      obtain ⟨base', offset', indices', size, hbase', hdraw', hsize, heq⟩ :=
        h packets p rest hsplit hkind _ hdrawn
      rw [hbase] at hbase'
      rw [hdraw] at hdraw'
      cases hbase'
      cases hdraw'
      rw [DrawKind.indexed.injEq] at heq
      refine ⟨size, hsize, (wrap64_eq_iff hbound hoffset ?_ (bind_indexSize_bounds hsize)).mp heq.2⟩
      rcases Option.or_eq_some_iff.mp hbytes with hown | ⟨-, hforce⟩
      · exact bind_indexSize_bounds hown
      · exact bind_indexSize_bounds hforce
    constructor
    · intro bytes hown
      obtain ⟨size, hsize, hagree, -⟩ := hsteps (Option.or_eq_some_iff.mpr (.inl hown))
      exact ⟨size, hsize, hagree⟩
    · intro size hsize
      cases hown : (lastIndexTypeAlone stream packets).bind indexSize with
      | none =>
          obtain ⟨size', hsize', -, hlt⟩ := hsteps (Option.or_eq_some_iff.mpr (.inr ⟨hown, hsize⟩))
          rw [hsize] at hsize'
          cases hsize'
          exact hlt
      | some bytes =>
          obtain ⟨size', hsize', -, hlt⟩ := hsteps (Option.or_eq_some_iff.mpr (.inl hown))
          rw [hsize] at hsize'
          cases hsize'
          exact hlt
  · intro h packets p rest hsplit hkind draw hdrawn
    obtain ⟨base, offset, indices, bytes, hbase, hdraw, hbytes, rfl⟩ := (drawn_iff hkind).mp hdrawn
    obtain ⟨hown, hinside⟩ := h packets p rest hsplit base offset indices hbase hdraw
    have hbound := lastIndexBase_lt hbase
    have hoffset := offsetDraw_le hdraw
    -- the size the code steps by is one of a packet's own, or the one in force
    rcases Option.or_eq_some_iff.mp hbytes with hbytes | ⟨-, hbytes⟩
    · obtain ⟨size, hsize, hagree⟩ := hown bytes hbytes
      have heq := (wrap64_eq_iff hbound hoffset (bind_indexSize_bounds hbytes)
        (bind_indexSize_bounds hsize)).mpr ⟨hagree, hinside size hsize⟩
      exact ⟨base, offset, indices, size, hbase, hdraw, hsize, congrArg _ heq⟩
    · have heq := (wrap64_eq_iff hbound hoffset (bind_indexSize_bounds hbytes)
        (bind_indexSize_bounds hbytes)).mpr ⟨.inl rfl, hinside bytes hbytes⟩
      exact ⟨base, offset, indices, bytes, hbase, hdraw, hbytes, congrArg _ heq⟩

/-- Two-byte indices set alone, four-byte ones by a range of two registers, and a draw. -/
def mixedSizes : List Byte :=
  [commandHeader INDEX_BASE 2, 0x1000, 0, commandHeader SET_UCONFIG_REG 2, 0x243, 0,
    commandHeader SET_UCONFIG_REG 3, 0x242, 4, 1,
    commandHeader DRAW_INDEX_OFFSET_2 4, 6, 3, 6, 0].flatMap (toLeBytes 4)

/-- The user-config base of the packets that write registers. -/
def uconfigVocabulary : Vocabulary :=
  ⟨[(SET_CONTEXT_REG, 0xA000), (SET_SH_REG, 0x2C00), (SET_UCONFIG_REG, 0xC000),
    (SET_UCONFIG_REG_INDEX, 0xC000)]⟩

/-- The draw begins three indices of two bytes into the buffer, where four-byte ones are in
force. -/
theorem mixedSizes_differ : ¬ StepsByIndexSize mixedSizes uconfigVocabulary none := by
  intro h
  have hpackets : (walk mixedSizes).packets =
      (walk mixedSizes).packets.take 3 ++ ⟨40, 20, 0xC0033500, .command DRAW_INDEX_OFFSET_2⟩ :: [] := by
    decide +kernel
  have hreported : Reported mixedSizes uconfigVocabulary none ((walk mixedSizes).packets.take 3)
      ⟨40, 20, 0xC0033500, .command DRAW_INDEX_OFFSET_2⟩ ⟨40, 1, .indexed 6 0x1006⟩ := by
    apply reported_iff.mpr
    decide +kernel
  obtain ⟨base, offset, indices, size, hbase, hdraw, hsize, heq⟩ :=
    h _ _ _ hpackets rfl _ hreported
  have hbase' : lastIndexBase mixedSizes ((walk mixedSizes).packets.take 3) = some 0x1000 := by
    decide +kernel
  have hdraw' : offsetDraw mixedSizes ⟨40, 20, 0xC0033500, .command DRAW_INDEX_OFFSET_2⟩ =
      some (3, 6) := by
    decide +kernel
  have hsize' : (indexTypeInForce mixedSizes uconfigVocabulary none 40).bind indexSize = some 4 := by
    decide +kernel
  rw [hbase'] at hbase
  rw [hdraw'] at hdraw
  rw [hsize'] at hsize
  cases hbase
  cases hdraw
  cases hsize
  cases heq

end Orbistoun.Gpu.Registers
