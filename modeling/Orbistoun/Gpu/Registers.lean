import Orbistoun.Gpu.Cp.Basic

/-! # Register writes, and the tables some are loaded from

A submission's registers are set by its packets, some of them from tables in guest memory.
The tables are read once when the stream is submitted and kept, and every later preparation
reads them through what was kept, so that a guest that writes its tables over for the next
frame changes no register of this one.
-/

namespace Orbistoun.Gpu.Registers

open Orbistoun.Gpu.Cp

structure RegisterWrite where
  packetOffset : Nat
  register : Nat
  value : Nat
  deriving DecidableEq, Repr

/-- The register-writing opcodes, each with its base. -/
structure Vocabulary where
  registerBases : List (Nat × Nat)

def Vocabulary.registerBase (v : Vocabulary) (opcode : Nat) : Option Nat :=
  v.registerBases.lookup opcode

/-- What reads a range of guest memory, where all of it is mapped. -/
abbrev Reader := Nat → Nat → Option (List Byte)

/-- Guest memory: its bytes, and which ranges are mapped. -/
structure GuestMemory where
  byte : Nat → Byte
  mapped : Nat → Nat → Bool

def GuestMemory.read (m : GuestMemory) : Reader := fun address length =>
  if m.mapped address length then some ((List.range length).map (fun i => m.byte (address + i)))
  else none

/-! ## Reading packet bodies -/

def readWords (body : List Byte) (start length : Nat) : Option (List Byte) :=
  getRange body start (start + length)

def wordAt (words : List Byte) (index : Nat) : Option Nat :=
  (getRange words (index * 4) (index * 4 + 4)).map fromLeBytes

/-- The indirect register loads, each with the direct opcode whose base it reaches. -/
def INDIRECT_LOADS : List (Nat × Nat) :=
  [(SET_CONTEXT_REG_INDIRECT, SET_CONTEXT_REG), (SET_SH_REG_INDIRECT, SET_SH_REG),
    (SET_UCONFIG_REG_INDIRECT, SET_UCONFIG_REG)]

/-- The table is offset and value pairs, not values. -/
def OFFSET_AND_DATA : Nat := 1 <<< 31

def u32 (x : Nat) : Nat := x % (u32Max + 1)

def indirectLoad (words : List Byte) (base : Nat) (tables : Reader) : List (Nat × Nat) :=
  match wordAt words 0, wordAt words 1, wordAt words 2, wordAt words 3 with
  | some low, some high, some format, some count =>
      if low &&& 3 ≠ 0 then []
      else
        let address := low ||| (high <<< 32)
        let count := count &&& 0x3fff
        let pairs := format &&& OFFSET_AND_DATA != 0
        let length := count * if pairs then 8 else 4
        match tables address length with
        | none => []
        | some table =>
            (List.range count).filterMap (fun i =>
              if pairs then
                match wordAt table (2 * i), wordAt table (2 * i + 1) with
                | some offset, some value => some (u32 (base + (offset &&& 0xffff)), value)
                | _, _ => none
              else
                (wordAt table i).map (fun value => (u32 (base + (format &&& 0xffff) + i), value)))
  | _, _, _, _ => []

def packetWrites (body : List Byte) (v : Vocabulary) (tables : Option Reader) (p : Packet) :
    List RegisterWrite :=
  match readWords body p.bodyOffset p.bodyLength with
  | none => []
  | some words =>
      match p.kind with
      | .registerWrite baseRegister =>
          (wordsOf words).zipIdx.map (fun e => ⟨p.offset, baseRegister + e.2, e.1⟩)
      | .command opcode =>
          match INDIRECT_LOADS.lookup opcode with
          | some direct =>
              match tables, v.registerBase direct with
              | some tables, some base =>
                  (indirectLoad words base tables).map (fun e => ⟨p.offset, e.1, e.2⟩)
              | _, _ => []
          | none =>
              match v.registerBase opcode, wordAt words 0 with
              | some base, some offset =>
                  ((wordsOf words).drop 1).zipIdx.map
                    (fun e => ⟨p.offset, u32 (u32 (base + (offset &&& 0xffff)) + e.2), e.1⟩)
              | _, _ => []
      | _ => []

def registerWritesReading (walk : PacketWalk) (body : List Byte) (v : Vocabulary)
    (tables : Option Reader) : List RegisterWrite :=
  walk.packets.flatMap (packetWrites body v tables)

/-! ## The snapshot -/

/-- The tables of a submission, each with where it lies. -/
structure TableSnapshot where
  tables : List (Nat × List Byte)

namespace TableSnapshot

def tableOf (body : List Byte) (memory : Reader) (p : Packet) : Option (Nat × List Byte) :=
  match p.kind with
  | .command opcode =>
      if !INDIRECT_LOADS.any (fun e => e.1 == opcode) then none
      else
        match readWords body p.bodyOffset p.bodyLength with
        | none => none
        | some words =>
            match wordAt words 0, wordAt words 1, wordAt words 2, wordAt words 3 with
            | some low, some high, some format, some count =>
                let address := (low &&& (u32Max - 3)) ||| (high <<< 32)
                let length := (count &&& 0x3fff) * if format &&& OFFSET_AND_DATA != 0 then 8 else 4
                (memory address length).map (fun bytes => (address, bytes))
            | _, _, _, _ => none
  | _ => none

def of (walk : PacketWalk) (body : List Byte) (memory : Reader) : TableSnapshot :=
  ⟨walk.packets.filterMap (tableOf body memory)⟩

def readOver (s : TableSnapshot) (memory : Reader) : Reader := fun address length =>
  (s.tables.findSome? (fun e =>
    if e.1 ≤ address then getRange e.2 (address - e.1) (address - e.1 + length) else none)).or
    (memory address length)

end TableSnapshot

/-! ## What is read through the snapshot -/

/-- The table an indirect load names: its address and its bytes. -/
def namedTable (words : List Byte) : Option (Nat × Nat) :=
  match wordAt words 0, wordAt words 1, wordAt words 2, wordAt words 3 with
  | some low, some high, some format, some count =>
      if low &&& 3 ≠ 0 then none
      else
        some (low ||| (high <<< 32),
          (count &&& 0x3fff) * if format &&& OFFSET_AND_DATA != 0 then 8 else 4)
  | _, _, _, _ => none

def LoadsFrom (body : List Byte) (p : Packet) (table : Nat × Nat) : Prop :=
  ∃ opcode direct words, p.kind = .command opcode ∧ INDIRECT_LOADS.lookup opcode = some direct ∧
    readWords body p.bodyOffset p.bodyLength = some words ∧ namedTable words = some table

def GuestMemory.bytes (m : GuestMemory) (address length : Nat) : List Byte :=
  (List.range length).map (fun i => m.byte (address + i))

theorem getRange_bytes (m : GuestMemory) {address length start stop : Nat} {found : List Byte}
    (h : getRange (m.bytes address length) start stop = some found) :
    found = m.bytes (address + start) (stop - start) := by
  unfold getRange at h
  split at h
  · next hin =>
    cases h
    unfold GuestMemory.bytes at hin ⊢
    rw [List.length_map, List.length_range] at hin
    apply List.ext_getElem
    · simp
      omega
    · intro i _ hi
      simp [Nat.add_assoc]
  · cases h

theorem readOver_kept {s : TableSnapshot} {m : GuestMemory}
    (hheld : ∀ e ∈ s.tables, ∃ length, e.2 = m.bytes e.1 length) {address length : Nat}
    (hkept : (address, m.bytes address length) ∈ s.tables) (later : Reader) :
    s.readOver later address length = some (m.bytes address length) := by
  have hlength : (m.bytes address length).length = length := by simp [GuestMemory.bytes]
  have hcovered : (getRange (m.bytes address length) (address - address)
      (address - address + length)).isSome = true := by
    unfold getRange
    rw [if_pos (by omega)]
    rfl
  unfold TableSnapshot.readOver
  cases hfound : s.tables.findSome? (fun e =>
      if e.1 ≤ address then getRange e.2 (address - e.1) (address - e.1 + length) else none) with
  | none =>
      have hnone := List.findSome?_eq_none_iff.mp hfound _ hkept
      rw [if_pos (Nat.le_refl _)] at hnone
      rw [hnone] at hcovered
      cases hcovered
  | some found =>
      obtain ⟨e, he, hanswer⟩ := List.exists_of_findSome?_eq_some hfound
      split at hanswer
      · next hle =>
        obtain ⟨length', heq⟩ := hheld e he
        rw [heq] at hanswer
        have hbytes := getRange_bytes m hanswer
        rw [Nat.add_sub_cancel' hle, Nat.add_sub_cancel_left] at hbytes
        rw [hbytes]
        rfl
      · cases hanswer

theorem read_mapped {m : GuestMemory} {address length : Nat} (h : m.mapped address length = true) :
    m.read address length = some (m.bytes address length) :=
  if_pos h

theorem read_eq_some {m : GuestMemory} {address length : Nat} {bytes : List Byte}
    (h : m.read address length = some bytes) : bytes = m.bytes address length := by
  unfold GuestMemory.read at h
  split at h
  · cases h
    rfl
  · cases h

theorem of_held (walk : PacketWalk) (body : List Byte) (m : GuestMemory) :
    ∀ e ∈ (TableSnapshot.of walk body m.read).tables, ∃ length, e.2 = m.bytes e.1 length := by
  intro e he
  obtain ⟨p, -, htable⟩ := List.mem_filterMap.mp he
  unfold TableSnapshot.tableOf at htable
  split at htable
  · split at htable
    · cases htable
    · split at htable
      · cases htable
      · split at htable
        · obtain ⟨bytes, hread, rfl⟩ := Option.map_eq_some_iff.mp htable
          exact ⟨_, read_eq_some hread⟩
        · cases htable
  · cases htable

theorem any_of_lookup {loads : List (Nat × Nat)} {opcode direct : Nat}
    (h : loads.lookup opcode = some direct) : loads.any (fun e => e.1 == opcode) = true := by
  induction loads with
  | nil => cases h
  | cons e loads ih =>
      rw [List.any_cons]
      cases heq : opcode == e.1 with
      | true =>
          rw [beq_iff_eq] at heq
          simp [heq]
      | false =>
          rw [List.lookup_cons, heq] at h
          simp [ih h]

theorem fromLeBytes_lt (bytes : List Byte) : fromLeBytes bytes < 256 ^ bytes.length := by
  induction bytes with
  | nil => exact Nat.one_pos
  | cons b bytes ih =>
      have hb := b.toNat_lt
      rw [fromLeBytes, List.length_cons, Nat.pow_succ]
      omega

theorem wordAt_le {words : List Byte} {index value : Nat} (h : wordAt words index = some value) :
    value ≤ u32Max := by
  obtain ⟨bytes, hrange, rfl⟩ := Option.map_eq_some_iff.mp h
  have hlength : bytes.length ≤ 4 := by
    unfold getRange at hrange
    split at hrange
    · cases hrange
      rw [List.length_take]
      omega
    · cases hrange
  have hlt := fromLeBytes_lt bytes
  have hpow := Nat.pow_le_pow_right (show 0 < 256 by decide) hlength
  have hmax : u32Max + 1 = 256 ^ 4 := rfl
  omega

/-- An address whose low two bits are clear is not changed by clearing them. -/
theorem and_not_three {low : Nat} (hlow : low ≤ u32Max) (h : low &&& 3 = 0) :
    low &&& (u32Max - 3) = low := by
  have hmod : low % 4 = 0 := by
    rw [← h]
    exact (Nat.and_two_pow_sub_one_eq_mod low 2).symm
  have hshift : low = (low / 4) <<< 2 := by
    rw [Nat.shiftLeft_eq]
    omega
  have hmask : u32Max - 3 = (2 ^ 30 - 1) <<< 2 := by decide
  have hquarter : low / 4 < 2 ^ 30 := by
    unfold u32Max at hlow
    omega
  rw [hmask, hshift, ← Nat.shiftLeft_and_distrib, Nat.and_two_pow_sub_one_eq_mod,
    ← hshift, Nat.mod_eq_of_lt hquarter]
  exact hshift.symm

theorem of_kept {walk : PacketWalk} {body : List Byte} {m : GuestMemory} {p : Packet}
    (hp : p ∈ walk.packets) {table : Nat × Nat} (hload : LoadsFrom body p table)
    (hmapped : m.mapped table.1 table.2 = true) :
    (table.1, m.bytes table.1 table.2) ∈ (TableSnapshot.of walk body m.read).tables := by
  obtain ⟨opcode, direct, words, hkind, hlookup, hwords, hnamed⟩ := hload
  apply List.mem_filterMap.mpr
  refine ⟨p, hp, ?_⟩
  unfold TableSnapshot.tableOf
  rw [hkind]
  dsimp only
  rw [any_of_lookup hlookup, hwords, if_neg (by decide)]
  dsimp only
  unfold namedTable at hnamed
  split at hnamed
  · next low high format count hlow hhigh hformat hcount =>
    split at hnamed
    · cases hnamed
    · next haligned =>
      cases hnamed
      rw [and_not_three (wordAt_le hlow) (not_not.mp haligned), read_mapped hmapped]
      rfl
  · cases hnamed

/-! ## The submission's registers -/

theorem indirectLoad_congr {words : List Byte} (base : Nat) {first second : Reader}
    (h : ∀ table, namedTable words = some table → first table.1 table.2 = second table.1 table.2) :
    indirectLoad words base first = indirectLoad words base second := by
  unfold indirectLoad
  split
  · next low high format count hlow hhigh hformat hcount =>
    split
    · rfl
    · next haligned =>
      have hnamed : namedTable words = some (low ||| (high <<< 32),
          (count &&& 0x3fff) * if format &&& OFFSET_AND_DATA != 0 then 8 else 4) := by
        unfold namedTable
        rw [hlow, hhigh, hformat, hcount]
        exact if_neg haligned
      dsimp only
      rw [h _ hnamed]
  · rfl

theorem packetWrites_congr {body : List Byte} (v : Vocabulary) {p : Packet} {first second : Reader}
    (h : ∀ table, LoadsFrom body p table → first table.1 table.2 = second table.1 table.2) :
    packetWrites body v (some first) p = packetWrites body v (some second) p := by
  unfold packetWrites
  cases hwords : readWords body p.bodyOffset p.bodyLength with
  | none => rfl
  | some words =>
      cases hkind : p.kind with
      | registerWrite => rfl
      | filler => rfl
      | reserved => rfl
      | command opcode =>
          dsimp only
          cases hlookup : INDIRECT_LOADS.lookup opcode with
          | none => rfl
          | some direct =>
              dsimp only
              cases v.registerBase direct with
              | none => rfl
              | some base =>
                  dsimp only
                  rw [indirectLoad_congr base (fun table hnamed =>
                    h table ⟨opcode, direct, words, hkind, hlookup, hwords, hnamed⟩)]

/-- The walk of a part of a stream from its start comes to the packets the whole walk comes
to first. -/
theorem walkLoop_take {turns turns' : Nat} (hturns : turns ≤ turns') (offset : Nat)
    (rest : List Byte) (n : Nat) :
    (walkLoop turns offset (rest.take n)).1 <+: (walkLoop turns' offset rest).1 := by
  induction turns generalizing turns' offset rest n with
  | zero => simp [walkLoop]
  | succ turns ih =>
      obtain ⟨turns', rfl⟩ : ∃ more, turns' = more + 1 := ⟨turns' - 1, by omega⟩
      rcases hrest : rest.take n with _ | ⟨a, _ | ⟨b, _ | ⟨c, _ | ⟨d, tail⟩⟩⟩⟩
      iterate 4
        · simp [walkLoop]
      · -- the header the part has is the one the whole has
        obtain ⟨tail', hwhole⟩ : ∃ tail', rest = a :: b :: c :: d :: tail' := by
          have hprefix := List.take_prefix n rest
          rw [hrest] at hprefix
          obtain ⟨more, hmore⟩ := hprefix
          exact ⟨tail ++ more, hmore.symm⟩
        have hlength : (a :: b :: c :: d :: tail).length ≤ rest.length := by
          rw [← hrest, List.length_take]
          exact Nat.min_le_right _ _
        rw [walkLoop_succ, hwhole, walkLoop_succ, ← hwhole, ← hrest]
        dsimp only
        generalize packetAt offset (fromLeBytes [a, b, c, d]) = p
        rw [← hrest] at hlength
        by_cases hover : (rest.take n).length < p.length
        · rw [if_pos hover]
          split
          · exact List.prefix_rfl
          · exact List.cons_prefix_cons.mpr ⟨rfl, List.nil_prefix⟩
        · rw [if_neg hover, if_neg (by omega), List.drop_take]
          exact List.cons_prefix_cons.mpr ⟨rfl, ih (by omega) _ _ _⟩

theorem walk_take (stream : List Byte) (n : Nat) :
    (walk (stream.take n)).packets <+: (walk stream).packets := by
  apply walkLoop_take
  rw [List.length_take]
  exact Nat.min_le_right _ _

theorem readWords_take {stream words : List Byte} {n start length : Nat}
    (h : readWords (stream.take n) start length = some words) :
    readWords stream start length = some words := by
  unfold readWords getRange at h ⊢
  split at h
  · next hin =>
    rw [List.length_take] at hin
    cases h
    rw [if_pos (by omega), List.drop_take, List.take_take]
    congr 2
    omega
  · cases h

/-- Through the tables kept when a stream was submitted, the registers of the stream and of
any part of it from its start are those memory gave then, whatever memory holds later. -/
theorem registers_of_submission (stream : List Byte) (n : Nat) (v : Vocabulary)
    (memory later : GuestMemory)
    (hmapped : ∀ p ∈ (walk stream).packets, ∀ table, LoadsFrom stream p table →
      memory.mapped table.1 table.2 = true) :
    registerWritesReading (walk (stream.take n)) (stream.take n) v
        (some ((TableSnapshot.of (walk stream) stream memory.read).readOver later.read)) =
      registerWritesReading (walk (stream.take n)) (stream.take n) v (some memory.read) := by
  have heach : ∀ p ∈ (walk (stream.take n)).packets,
      packetWrites (stream.take n) v
          (some ((TableSnapshot.of (walk stream) stream memory.read).readOver later.read)) p =
        packetWrites (stream.take n) v (some memory.read) p := by
    intro p hp
    have hwhole : p ∈ (walk stream).packets := (walk_take stream n).subset hp
    apply packetWrites_congr
    intro table hload
    obtain ⟨opcode, direct, words, hkind, hlookup, hwords, hnamed⟩ := hload
    have hload : LoadsFrom stream p table :=
      ⟨opcode, direct, words, hkind, hlookup, readWords_take hwords, hnamed⟩
    have hread := hmapped p hwhole table hload
    rw [readOver_kept (of_held _ _ _) (of_kept hwhole hload hread), read_mapped hread]
  unfold registerWritesReading
  rw [List.flatMap_def, List.flatMap_def, List.map_congr_left heach]

def oneLoad : List Byte :=
  [commandHeader SET_CONTEXT_REG_INDIRECT 4, 0x1000, 0, 8, 2].flatMap (toLeBytes 4)

/-- Memory that holds each address's low byte, all of it mapped. -/
def countingMemory : GuestMemory := ⟨UInt8.ofNat, fun _ _ => true⟩

theorem registers_of_one_load :
    registerWritesReading (walk (oneLoad.take 20)) (oneLoad.take 20) ⟨[(SET_CONTEXT_REG, 0xA000)]⟩
        (some ((TableSnapshot.of (walk oneLoad) oneLoad countingMemory.read).readOver
          (GuestMemory.read ⟨fun _ => 0, fun _ _ => true⟩))) =
      registerWritesReading (walk (oneLoad.take 20)) (oneLoad.take 20) ⟨[(SET_CONTEXT_REG, 0xA000)]⟩
        (some countingMemory.read) :=
  registers_of_submission oneLoad 20 ⟨[(SET_CONTEXT_REG, 0xA000)]⟩ countingMemory
    ⟨fun _ => 0, fun _ _ => true⟩ (fun _ _ _ _ => rfl)

end Orbistoun.Gpu.Registers
