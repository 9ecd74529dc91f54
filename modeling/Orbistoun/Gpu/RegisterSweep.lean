import Mathlib.Data.Nat.Bitwise
import Orbistoun.Gpu.Registers
import Orbistoun.Lib.Latest

/-! # The latest write to each register, kept as a stream is walked

A sweep takes a submission's register writes in as the packets asked about move on, and keeps
the position of each register's latest. Asked about an earlier packet it starts again. While
reads are recorded it watches the registers read, and says later whether one of them has been
given another value.
-/

namespace Orbistoun.Gpu.Registers

open Orbistoun.Gpu.Cp Lib.Latest

/-- Registers the sweep's table covers directly. -/
def SWEEP_REGISTERS : Nat := 1 <<< 16

/-- A sweep that has taken nothing in. -/
def NOT_REACHED : Nat := u32Max

/-- No write to a register yet, in a `SweepTable`. -/
def UNWRITTEN : Nat := u32Max

/-- Whether a write is made in the packet at a byte or in an earlier one. -/
def inForceAt (write : RegisterWrite) (packet : Nat) : Bool := write.packetOffset ≤ packet

/-! ## The registers noted -/

/-- The registers read while reads were recorded, and whether one has changed since. -/
structure Noted where
  recording : Bool := false
  keyed : Bool := false
  changed : Bool := false
  /-- One bit per register in the table's range, once a register is noted. -/
  bits : Option (Vector Nat (SWEEP_REGISTERS / 64)) := none
  registers : List Nat := []

namespace Noted

def holds (n : Noted) (register : Nat) : Bool :=
  match n.bits.bind (fun bits => bits[register / 64]?) with
  | some word => word &&& (1 <<< (register % 64)) != 0
  | none => false

def note (n : Noted) (register : Nat) : Noted :=
  -- past the table no write is watched, so the reads count as changed every time
  if SWEEP_REGISTERS ≤ register then { n with keyed := false }
  else
    let bits := n.bits.getD (Vector.replicate (SWEEP_REGISTERS / 64) 0)
    let word := bits[register / 64]?.getD 0
    if word &&& (1 <<< (register % 64)) = 0 then
      { n with
        bits := some (bits.setIfInBounds (register / 64) (word ||| (1 <<< (register % 64))))
        registers := n.registers ++ [register] }
    else { n with bits := some bits }

def forget (n : Noted) : Noted :=
  { n with
    bits := n.bits.map
      (fun bits => n.registers.foldl (fun bits register => bits.setIfInBounds (register / 64) 0)
        bits)
    registers := [] }

end Noted

/-! ## The table -/

structure SweepTable where
  latest : Vector Nat SWEEP_REGISTERS
  touched : List Nat

namespace SweepTable

def fresh : SweepTable := ⟨Vector.replicate SWEEP_REGISTERS UNWRITTEN, []⟩

def clear (t : SweepTable) : SweepTable :=
  ⟨t.touched.foldl (fun latest register => latest.setIfInBounds register UNWRITTEN) t.latest, []⟩

end SweepTable

/-! ## The sweep -/

structure RegisterSweep where
  writes : List RegisterWrite
  next : Nat
  reached : Nat
  table : SweepTable
  /-- The writes the table has no place for. -/
  beyond : Nat → Option Nat
  noted : Noted

namespace RegisterSweep

def new (writes : List RegisterWrite) (table : SweepTable) : RegisterSweep :=
  { writes, next := 0, reached := NOT_REACHED, table, beyond := fun _ => none, noted := {} }

/-- The table a sweep gives back when it is dropped. -/
def drop (s : RegisterSweep) : SweepTable := s.table.clear

def indexOf (s : RegisterSweep) (register : Nat) : Option Nat :=
  match s.table.latest[register]? with
  | some index => if index ≠ UNWRITTEN then some index else s.beyond register
  | none => s.beyond register

def valueOf (s : RegisterSweep) (register : Nat) : Option Nat :=
  (s.indexOf register).bind (fun index => s.writes[index]?.map (·.value))

def takeIn (s : RegisterSweep) (write : RegisterWrite) : RegisterSweep :=
  let changed := s.noted.changed ||
    (s.noted.keyed && s.noted.holds write.register && s.valueOf write.register != some write.value)
  let noted := { s.noted with changed }
  match s.table.latest[write.register]?, decide (s.next < UNWRITTEN) with
  | some slot, true =>
      { s with
        noted
        table :=
          { latest := s.table.latest.setIfInBounds write.register s.next
            touched :=
              if slot = UNWRITTEN then s.table.touched ++ [write.register] else s.table.touched }
        next := s.next + 1 }
  | _, _ =>
      { s with
        noted
        -- the table's older write is no longer the latest
        table := { s.table with latest := s.table.latest.setIfInBounds write.register UNWRITTEN }
        beyond := fun register => if register = write.register then some s.next else s.beyond register
        next := s.next + 1 }

def takeInForce (before : Nat) : List RegisterWrite → RegisterSweep → RegisterSweep
  | [], s => s
  | write :: rest, s =>
      if inForceAt write before then takeInForce before rest (s.takeIn write) else s

/-- A sweep that has to walk from the start again. -/
def rewound (s : RegisterSweep) : RegisterSweep :=
  { s with
    next := 0
    table := s.table.clear
    beyond := fun _ => none
    noted := { s.noted with changed := true } }

def advance (s : RegisterSweep) (before : Nat) : RegisterSweep :=
  if before = s.reached then s
  else
    let s := if s.reached ≠ NOT_REACHED ∧ before < s.reached then s.rewound else s
    takeInForce before (s.writes.drop s.next) { s with reached := before }

def recordReads (s : RegisterSweep) : RegisterSweep :=
  { s with noted := { s.noted.forget with recording := true, keyed := true, changed := false } }

def stopRecording (s : RegisterSweep) : RegisterSweep :=
  { s with noted := { s.noted with recording := false } }

def notedChanged (s : RegisterSweep) (before : Nat) : Bool × RegisterSweep :=
  let s := s.advance before
  (!s.noted.keyed || s.noted.changed, s)

def beforeAmong (s : RegisterSweep) (before : Nat) (registers : List Nat) :
    List RegisterWrite × RegisterSweep :=
  let s := s.advance before
  let indices := (registers.filterMap s.indexOf).mergeSort (fun a b => decide (a ≤ b))
  (indices.filterMap (fun index => s.writes[index]?), s)

def latest (s : RegisterSweep) (before register : Nat) : Option Nat × RegisterSweep :=
  let s := s.advance before
  let s := if s.noted.recording then { s with noted := s.noted.note register } else s
  (s.valueOf register, s)

end RegisterSweep

/-! ## Calls -/

/-- A call on a sweep; what is read unnoted makes calls of its own. -/
inductive SweepCall where
  | latest (before register : Nat)
  | beforeAmong (before : Nat) (registers : List Nat)
  | recordReads
  | stopRecording
  | unnoted (read : List SweepCall)
  | notedChanged (before : Nat)

inductive SweepAnswer where
  | value (value : Option Nat)
  | among (writes : List RegisterWrite)
  | changed (changed : Bool)

mutual

/-- What a call answers, those made inside it included, and the sweep after it. -/
def SweepCall.perform : SweepCall → RegisterSweep → List SweepAnswer × RegisterSweep
  | .latest before register, s =>
      let (value, s) := s.latest before register
      ([.value value], s)
  | .beforeAmong before registers, s =>
      let (writes, s) := s.beforeAmong before registers
      ([.among writes], s)
  | .recordReads, s => ([], s.recordReads)
  | .stopRecording, s => ([], s.stopRecording)
  | .unnoted read, s =>
      let (answers, after) :=
        SweepCall.performAll read { s with noted := { s.noted with recording := false } }
      (answers, { after with noted := { after.noted with recording := s.noted.recording } })
  | .notedChanged before, s =>
      let (changed, s) := s.notedChanged before
      ([.changed changed], s)

def SweepCall.performAll : List SweepCall → RegisterSweep → List SweepAnswer × RegisterSweep
  | [], s => ([], s)
  | call :: calls, s =>
      let (first, s) := call.perform s
      let (rest, s) := SweepCall.performAll calls s
      (first ++ rest, s)

end

/-- The tables a sweep may take: a new one, or one an earlier sweep gave back. -/
inductive Spare : SweepTable → Prop
  | fresh : Spare .fresh
  | dropped {table : SweepTable} (h : Spare table) (writes : List RegisterWrite)
      (calls : List SweepCall) :
      Spare (SweepCall.performAll calls (.new writes table)).2.drop

/-! ## What a plain scan answers -/

def lastIndex (writes : List RegisterWrite) (before register : Nat) : Option Nat :=
  lastBelow (fun i => writes[i]?.any (fun w => inForceAt w before && w.register == register))
    writes.length

def scanned (writes : List RegisterWrite) (before register : Nat) : Option Nat :=
  (lastIndex writes before register).bind (fun i => writes[i]?.map (·.value))

/-- The reads recorded so far, kept by whoever makes the calls. -/
structure Record where
  recording : Bool := false
  reads : List (Nat × Option Nat) := []

/-- What a scan says of an answer. -/
inductive Scan where
  | value (before register : Nat)
  | among (before : Nat) (registers : List Nat)
  | changed (before : Nat) (reads : List (Nat × Option Nat))

mutual

def SweepCall.scan (writes : List RegisterWrite) : SweepCall → Record → List Scan × Record
  | .latest before register, r =>
      ([.value before register],
        if r.recording then
          { r with reads := r.reads ++ [(register, scanned writes before register)] }
        else r)
  | .beforeAmong before registers, r => ([.among before registers], r)
  | .recordReads, _ => ([], { recording := true, reads := [] })
  | .stopRecording, r => ([], { r with recording := false })
  | .unnoted read, r =>
      let (scans, after) := SweepCall.scanAll writes read { r with recording := false }
      (scans, { after with recording := r.recording })
  | .notedChanged before, r => ([.changed before r.reads], r)

def SweepCall.scanAll (writes : List RegisterWrite) : List SweepCall → Record → List Scan × Record
  | [], r => ([], r)
  | call :: calls, r =>
      let (first, r) := call.scan writes r
      let (rest, r) := SweepCall.scanAll writes calls r
      (first ++ rest, r)

end

/-- An answer is what a scan says: a read gives the value of the last write in force, the
writes listed are the last of each register named, in the order they were made, and where no
change is reported every register recorded holds the value it was read with. -/
def SweepAnswer.Meets (writes : List RegisterWrite) : SweepAnswer → Scan → Prop
  | .value found, .value before register => found = scanned writes before register
  | .among listed, .among before registers =>
      ∃ indices : List Nat, indices.Perm (registers.filterMap (lastIndex writes before)) ∧
        indices.Pairwise (· ≤ ·) ∧ listed = indices.filterMap (fun i => writes[i]?)
  | .changed answered, .changed before reads =>
      answered = false → ∀ read ∈ reads, scanned writes before read.1 = read.2
  | _, _ => False

/-- A call is made at packet offsets, multiples of four below `NOT_REACHED`. -/
def PacketOffset (before : Nat) : Prop := before % 4 = 0 ∧ before ≤ u32Max

mutual

def SweepCall.AtPackets : SweepCall → Prop
  | .latest before _ | .beforeAmong before _ | .notedChanged before => PacketOffset before
  | .recordReads | .stopRecording => True
  | .unnoted read => SweepCall.AllAtPackets read

def SweepCall.AllAtPackets : List SweepCall → Prop
  | [] => True
  | call :: calls => call.AtPackets ∧ SweepCall.AllAtPackets calls

end

/-! ## The bits -/

theorem and_one_shiftLeft_ne_zero {word k : Nat} :
    (word &&& (1 <<< k) != 0) = word.testBit k := by
  rw [Nat.one_shiftLeft, Nat.and_two_pow]
  cases word.testBit k <;> simp

namespace Noted

variable {n : Noted}

theorem holds_eq_true {register : Nat} :
    n.holds register = true ↔
      ∃ bits word, n.bits = some bits ∧ bits[register / 64]? = some word ∧
        word.testBit (register % 64) = true := by
  unfold holds
  cases hbits : n.bits with
  | none => simp
  | some bits =>
      rw [Option.bind_some]
      cases hword : bits[register / 64]? with
      | none => simp [hword]
      | some word => simp [hword, and_one_shiftLeft_ne_zero]

theorem holds_note {register other : Nat} (h : n.holds other = true) :
    (n.note register).holds other = true := by
  obtain ⟨bits, word, hbits, hword, htest⟩ := holds_eq_true.mp h
  unfold note
  split
  · exact holds_eq_true.mpr ⟨bits, word, hbits, hword, htest⟩
  · rw [hbits, Option.getD_some]
    dsimp only
    split
    · apply holds_eq_true.mpr
      refine ⟨_, if register / 64 = other / 64 then word ||| (1 <<< (register % 64)) else word, rfl,
        ?_, ?_⟩
      · rw [Vector.getElem?_setIfInBounds]
        split
        · next heq =>
          rw [heq, hword, if_pos (Vector.getElem?_eq_some_iff.mp hword).1]
          rfl
        · exact hword
      · split
        · rw [Nat.testBit_or, htest, Bool.true_or]
        · exact htest
    · exact holds_eq_true.mpr ⟨bits, word, rfl, hword, htest⟩

theorem holds_note_self {register : Nat} (h : (n.note register).keyed = true) :
    (n.note register).holds register = true := by
  unfold note at h ⊢
  split
  · next hpast =>
    rw [if_pos hpast] at h
    cases h
  · next hin =>
    have hslot : register / 64 < SWEEP_REGISTERS / 64 := by
      rw [show SWEEP_REGISTERS = 65536 from rfl] at hin ⊢
      omega
    generalize n.bits.getD (Vector.replicate (SWEEP_REGISTERS / 64) 0) = bits
    have hword : bits[register / 64]? = some bits[register / 64] :=
      Vector.getElem?_eq_getElem hslot
    dsimp only
    rw [hword, Option.getD_some]
    split
    · apply holds_eq_true.mpr
      refine ⟨_, _, rfl, Vector.getElem?_setIfInBounds_self_of_lt hslot, ?_⟩
      rw [Nat.testBit_or, Nat.one_shiftLeft, Nat.testBit_two_pow_self, Bool.or_true]
    · next hset =>
      apply holds_eq_true.mpr
      refine ⟨_, _, rfl, hword, ?_⟩
      rw [← and_one_shiftLeft_ne_zero]
      exact bne_iff_ne.mpr hset

@[simp] theorem note_recording (register : Nat) : (n.note register).recording = n.recording := by
  unfold note
  split
  · rfl
  · dsimp only
    split <;> rfl

@[simp] theorem note_changed (register : Nat) : (n.note register).changed = n.changed := by
  unfold note
  split
  · rfl
  · dsimp only
    split <;> rfl

theorem keyed_of_note {register : Nat} (h : (n.note register).keyed = true) : n.keyed = true := by
  unfold note at h
  split at h
  · cases h
  · dsimp only at h
    split at h <;> exact h

end Noted

/-! ## The table given back -/

/-- Every entry filled in is among the registers touched. -/
def SweepTable.Tracked (t : SweepTable) : Prop :=
  ∀ register index : Nat, t.latest[register]? = some index → index ≠ UNWRITTEN →
    register ∈ t.touched

def SweepTable.Empty (t : SweepTable) : Prop :=
  ∀ register index : Nat, t.latest[register]? = some index → index = UNWRITTEN

theorem SweepTable.Empty.tracked {t : SweepTable} (h : t.Empty) : t.Tracked :=
  fun register index hindex hne => absurd (h register index hindex) hne

theorem SweepTable.fresh_empty : SweepTable.fresh.Empty := by
  intro register index h
  obtain ⟨hlt, heq⟩ := Vector.getElem?_eq_some_iff.mp h
  rw [← heq]
  exact Vector.getElem_replicate hlt

theorem SweepTable.clearing {touched : List Nat} {latest : Vector Nat SWEEP_REGISTERS}
    (h : ∀ register index : Nat, latest[register]? = some index → index ≠ UNWRITTEN →
      register ∈ touched) (register index : Nat)
    (hindex : (touched.foldl (fun latest register => latest.setIfInBounds register UNWRITTEN)
      latest)[register]? = some index) : index = UNWRITTEN := by
  induction touched generalizing latest with
  | nil =>
      apply Decidable.byContradiction
      intro hne
      exact absurd (h register index hindex hne) List.not_mem_nil
  | cons first touched ih =>
      apply ih _ hindex
      intro other i hi hne
      rw [Vector.getElem?_setIfInBounds] at hi
      split at hi
      · split at hi
        · cases hi
          exact absurd rfl hne
        · cases hi
      · next hother =>
        rcases List.mem_cons.mp (h other i hi hne) with heq | hmem
        · exact absurd heq.symm hother
        · exact hmem

theorem SweepTable.Tracked.clear_empty {t : SweepTable} (h : t.Tracked) : t.clear.Empty :=
  fun register index hindex => SweepTable.clearing h register index hindex

/-! ## Taking a write in -/

def writesTo (writes : List RegisterWrite) (register : Nat) (i : Nat) : Bool :=
  writes[i]?.any (fun w => w.register == register)

namespace RegisterSweep

variable {s : RegisterSweep} {write : RegisterWrite} {before : Nat}

@[simp] theorem takeIn_writes : (s.takeIn write).writes = s.writes := by
  unfold takeIn
  dsimp only
  split <;> rfl

@[simp] theorem takeIn_next : (s.takeIn write).next = s.next + 1 := by
  unfold takeIn
  dsimp only
  split <;> rfl

@[simp] theorem takeIn_reached : (s.takeIn write).reached = s.reached := by
  unfold takeIn
  dsimp only
  split <;> rfl

theorem takeIn_noted : (s.takeIn write).noted =
    { s.noted with
      changed := s.noted.changed ||
        (s.noted.keyed && s.noted.holds write.register &&
          s.valueOf write.register != some write.value) } := by
  unfold takeIn
  dsimp only
  split <;> rfl

/-- The write taken in is its register's latest, and no other register's changes. -/
theorem indexOf_takeIn (register : Nat) :
    (s.takeIn write).indexOf register =
      if register = write.register then some s.next else s.indexOf register := by
  have hset (value : Nat) : (s.table.latest.setIfInBounds write.register value)[register]? =
      if register = write.register then (s.table.latest[write.register]?).map (fun _ => value)
      else s.table.latest[register]? := by
    rw [Vector.getElem?_setIfInBounds]
    by_cases heq : register = write.register
    · subst heq
      rw [if_pos rfl, if_pos rfl]
      by_cases hin : write.register < SWEEP_REGISTERS
      · rw [if_pos hin, Vector.getElem?_eq_getElem hin]
        rfl
      · rw [if_neg hin, Vector.getElem?_eq_none (Nat.le_of_not_lt hin)]
        rfl
    · rw [if_neg (fun h => heq h.symm), if_neg heq]
  by_cases heq : register = write.register
  · rw [if_pos heq]
    unfold takeIn
    dsimp only
    split
    · next slot hslot hsmall =>
      unfold indexOf
      dsimp only
      rw [hset, if_pos heq, hslot]
      exact if_pos (Nat.ne_of_lt (of_decide_eq_true hsmall))
    · unfold indexOf
      dsimp only
      rw [hset, if_pos heq, if_pos heq]
      cases s.table.latest[write.register]? with
      | none => rfl
      | some slot => exact if_neg (not_not.mpr rfl)
  · rw [if_neg heq]
    unfold takeIn
    dsimp only
    split
    · unfold indexOf
      dsimp only
      rw [hset, if_neg heq]
    · unfold indexOf
      dsimp only
      rw [hset, if_neg heq, if_neg heq]

theorem tracked_takeIn (h : s.table.Tracked) : (s.takeIn write).table.Tracked := by
  unfold takeIn
  dsimp only
  split
  · next slot hslot hsmall =>
    intro register index hindex hne
    dsimp only at hindex ⊢
    rw [Vector.getElem?_setIfInBounds] at hindex
    split at hindex
    · next heq =>
      split
      · exact List.mem_append_right _ (List.mem_singleton.mpr heq.symm)
      · next hwritten => exact h register slot (heq ▸ hslot) hwritten
    · have hmem := h register index hindex hne
      split
      · exact List.mem_append_left _ hmem
      · exact hmem
  · intro register index hindex hne
    dsimp only at hindex
    rw [Vector.getElem?_setIfInBounds] at hindex
    split at hindex
    · split at hindex
      · cases hindex
        exact absurd rfl hne
      · cases hindex
    · exact h register index hindex hne

/-- The index of each register is that of the last write to it among those taken in. -/
def Indexed (s : RegisterSweep) : Prop :=
  ∀ register, s.indexOf register = lastBelow (writesTo s.writes register) s.next

theorem indexed_takeIn (h : s.Indexed) (hwrite : s.writes[s.next]? = some write) :
    (s.takeIn write).Indexed := by
  intro register
  have hto : writesTo s.writes register s.next = (write.register == register) := by
    unfold writesTo
    rw [hwrite]
    rfl
  rw [indexOf_takeIn, takeIn_writes, takeIn_next, lastBelow_succ, hto, h register]
  by_cases heq : register = write.register
  · rw [if_pos heq, heq, beq_self_eq_true, if_pos rfl]
  · rw [if_neg heq, beq_false_of_ne (fun h => heq h.symm), if_neg (by decide)]

/-- While reads are watched and no change is seen, each register read is noted and still holds
the value it was read with. -/
def Watches (s : RegisterSweep) (reads : List (Nat × Option Nat)) : Prop :=
  s.noted.keyed = true → s.noted.changed = false →
    ∀ read ∈ reads, s.noted.holds read.1 = true ∧ s.valueOf read.1 = read.2

theorem watches_takeIn {reads : List (Nat × Option Nat)} (h : s.Watches reads)
    (hwrite : s.writes[s.next]? = some write) : (s.takeIn write).Watches reads := by
  intro hkeyed hsame read hread
  rw [takeIn_noted] at hkeyed hsame ⊢
  dsimp only at hkeyed hsame ⊢
  obtain ⟨hbefore, hvalue⟩ := Bool.or_eq_false_iff.mp hsame
  obtain ⟨hheld, hread⟩ := h hkeyed hbefore read hread
  refine ⟨hheld, ?_⟩
  by_cases heq : read.1 = write.register
  · -- the value written is the one the register held
    rw [hkeyed, ← heq, hheld, Bool.true_and, Bool.true_and, bne_eq_false_iff_eq, hread] at hvalue
    unfold valueOf
    rw [indexOf_takeIn, if_pos heq, takeIn_writes, Option.bind_some, hwrite, hvalue]
    rfl
  · rw [← hread]
    unfold valueOf
    rw [indexOf_takeIn, if_neg heq, takeIn_writes]

/-! ## Advancing -/

/-- The writes taken in are those in force at the packet reached. -/
def Reaches (s : RegisterSweep) : Prop :=
  if s.reached = NOT_REACHED then s.next = 0
  else ∀ i w, s.writes[i]? = some w → (i < s.next ↔ inForceAt w s.reached = true)

/-- What a walk over the writes that follow does. -/
structure Took (before : Nat) (s after : RegisterSweep) : Prop where
  writes : after.writes = s.writes
  reached : after.reached = s.reached
  recording : after.noted.recording = s.noted.recording
  le : s.next ≤ after.next
  taken : ∀ i w, s.next ≤ i → i < after.next → s.writes[i]? = some w → inForceAt w before = true
  stopped : ∀ w, s.writes[after.next]? = some w → inForceAt w before = false

theorem takeInForce_took {rest : List RegisterWrite} (hrest : s.writes.drop s.next = rest) :
    Took before s (takeInForce before rest s) := by
  induction rest generalizing s with
  | nil =>
      refine ⟨rfl, rfl, rfl, Nat.le_refl _, fun i w hle hlt => absurd hle (Nat.not_le_of_lt hlt),
        ?_⟩
      intro w hw
      have hlong := List.drop_eq_nil_iff.mp hrest
      rw [takeInForce, List.getElem?_eq_none hlong] at hw
      cases hw
  | cons write rest ih =>
      have hwrite : s.writes[s.next]? = some write := by
        rw [← List.head?_drop, hrest, List.head?_cons]
      rw [takeInForce]
      split
      · next hforce =>
        have hnext : (s.takeIn write).writes.drop (s.takeIn write).next = rest := by
          rw [takeIn_writes, takeIn_next, ← List.tail_drop, hrest, List.tail_cons]
        have hrest := ih hnext
        refine ⟨?_, ?_, ?_, ?_, ?_, ?_⟩
        · rw [hrest.writes, takeIn_writes]
        · rw [hrest.reached, takeIn_reached]
        · rw [hrest.recording, takeIn_noted]
        · have hle := hrest.le
          rw [takeIn_next] at hle
          omega
        · intro i w hle hlt hw
          rcases Nat.eq_or_lt_of_le hle with heq | hlater
          · rw [← heq, hwrite] at hw
            cases hw
            exact hforce
          · apply hrest.taken i w _ hlt
            · rw [takeIn_writes]
              exact hw
            · rw [takeIn_next]
              exact hlater
        · intro w hw
          apply hrest.stopped
          rw [takeIn_writes]
          exact hw
      · next hlater =>
        refine ⟨rfl, rfl, rfl, Nat.le_refl _,
          fun i w hle hlt => absurd hle (Nat.not_le_of_lt hlt), ?_⟩
        intro w hw
        rw [hwrite] at hw
        cases hw
        exact Bool.eq_false_iff.mpr hlater

/-- What holds of every sweep is kept by a walk that keeps it over each write. -/
theorem takeInForce_induction {P : RegisterSweep → Prop}
    (hstep : ∀ s write, P s → s.writes[s.next]? = some write → P (s.takeIn write))
    {rest : List RegisterWrite} (hrest : s.writes.drop s.next = rest) (h : P s) :
    P (takeInForce before rest s) := by
  induction rest generalizing s with
  | nil => exact h
  | cons write rest ih =>
      rw [takeInForce]
      split
      · have hwrite : s.writes[s.next]? = some write := by
          rw [← List.head?_drop, hrest, List.head?_cons]
        apply ih
        · rw [takeIn_writes, takeIn_next, ← List.tail_drop, hrest, List.tail_cons]
        · exact hstep s write h hwrite
      · exact h

structure Sound (s : RegisterSweep) (reads : List (Nat × Option Nat)) : Prop where
  sorted : s.writes.Pairwise (fun a b => a.packetOffset ≤ b.packetOffset)
  tracked : s.table.Tracked
  indexed : s.Indexed
  watches : s.Watches reads
  reaches : s.Reaches

theorem indexOf_empty (htable : s.table.Empty) (hbeyond : s.beyond = fun _ => none)
    (register : Nat) : s.indexOf register = none := by
  unfold indexOf
  rw [hbeyond]
  split
  · next index hindex => exact if_neg (not_not.mpr (htable register index hindex))
  · rfl

theorem indexed_of_empty (htable : s.table.Empty) (hbeyond : s.beyond = fun _ => none)
    (hnext : s.next = 0) : s.Indexed := by
  intro register
  rw [indexOf_empty htable hbeyond, hnext, lastBelow_zero]

theorem new_sound {writes : List RegisterWrite} {table : SweepTable}
    (hsorted : writes.Pairwise (fun a b => a.packetOffset ≤ b.packetOffset))
    (htable : table.Empty) : (new writes table).Sound [] where
  sorted := hsorted
  tracked := htable.tracked
  indexed := indexed_of_empty htable rfl rfl
  watches := fun _ _ _ hread => absurd hread List.not_mem_nil
  reaches := by
    have hreached : (new writes table).reached = NOT_REACHED := rfl
    rw [Reaches, if_pos hreached]
    rfl

theorem inForceAt_of_le {i j : Nat} {w v : RegisterWrite}
    (hsorted : s.writes.Pairwise (fun a b => a.packetOffset ≤ b.packetOffset)) (hij : i ≤ j)
    (hw : s.writes[i]? = some w) (hv : s.writes[j]? = some v) (h : inForceAt v before = true) :
    inForceAt w before = true := by
  have hle : w.packetOffset ≤ v.packetOffset := by
    rcases Nat.eq_or_lt_of_le hij with heq | hlt
    · subst heq
      rw [hw] at hv
      cases hv
      exact Nat.le_refl _
    · obtain ⟨hi, rfl⟩ := List.getElem?_eq_some_iff.mp hw
      obtain ⟨hj, rfl⟩ := List.getElem?_eq_some_iff.mp hv
      exact List.pairwise_iff_getElem.mp hsorted i j hi hj hlt
  exact decide_eq_true (Nat.le_trans hle (of_decide_eq_true h))

theorem rewound_watches (reads : List (Nat × Option Nat)) : s.rewound.Watches reads := by
  intro _ hsame
  cases hsame

/-- A sweep with nothing taken in that is not in force at a packet, about to walk on to it. -/
theorem walked_sound {reads : List (Nat × Option Nat)}
    (hsorted : s.writes.Pairwise (fun a b => a.packetOffset ≤ b.packetOffset))
    (htracked : s.table.Tracked) (hindexed : s.Indexed) (hwatches : s.Watches reads)
    (hbefore : s.reached ≠ NOT_REACHED)
    (htaken : ∀ i w, i < s.next → s.writes[i]? = some w → inForceAt w s.reached = true) :
    (takeInForce s.reached (s.writes.drop s.next) s).Sound reads := by
  have htook := @takeInForce_took s s.reached _ rfl
  refine ⟨?_, ?_, ?_, ?_, ?_⟩
  · rw [htook.writes]
    exact hsorted
  · exact takeInForce_induction (P := fun s => s.table.Tracked)
      (fun _ _ h _ => tracked_takeIn h) rfl htracked
  · exact takeInForce_induction (P := Indexed) (fun _ _ h hw => indexed_takeIn h hw) rfl hindexed
  · exact takeInForce_induction (P := fun s => s.Watches reads)
      (fun _ _ h hw => watches_takeIn h hw) rfl hwatches
  · rw [Reaches, htook.reached, if_neg hbefore, htook.writes]
    intro i w hw
    constructor
    · intro hlt
      rcases Nat.lt_or_ge i s.next with hold | hnew
      · exact htaken i w hold hw
      · exact htook.taken i w hnew hlt hw
    · intro hforce
      apply Nat.lt_of_not_le
      intro hle
      -- were the first one not taken in there, it would be in force as this one is
      have hin : (takeInForce s.reached (s.writes.drop s.next) s).next < s.writes.length :=
        Nat.lt_of_le_of_lt hle (List.getElem?_eq_some_iff.mp hw).1
      have hfirst := List.getElem?_eq_getElem hin
      have hstopped := htook.stopped _ hfirst
      rw [inForceAt_of_le hsorted hle hfirst hw hforce] at hstopped
      cases hstopped

/-- The sweep a walk to the packet at `before` begins from. -/
def start (s : RegisterSweep) (before : Nat) : RegisterSweep :=
  { if s.reached ≠ NOT_REACHED ∧ before < s.reached then s.rewound else s with reached := before }

theorem advance_eq (h : before ≠ s.reached) : s.advance before =
    takeInForce before ((s.start before).writes.drop (s.start before).next) (s.start before) := by
  rw [advance, if_neg h, start]

theorem start_writes : (s.start before).writes = s.writes := by
  unfold start
  dsimp only
  split <;> rfl

theorem start_recording : (s.start before).noted.recording = s.noted.recording := by
  unfold start
  dsimp only
  split <;> rfl

theorem start_tracked (h : s.table.Tracked) : (s.start before).table.Tracked := by
  unfold start
  dsimp only
  split
  · exact h.clear_empty.tracked
  · exact h

theorem advance_writes : (s.advance before).writes = s.writes := by
  by_cases heq : before = s.reached
  · rw [advance, if_pos heq]
  · rw [advance_eq heq, (takeInForce_took rfl).writes, start_writes]

theorem advance_recording : (s.advance before).noted.recording = s.noted.recording := by
  by_cases heq : before = s.reached
  · rw [advance, if_pos heq]
  · rw [advance_eq heq, (takeInForce_took rfl).recording, start_recording]

theorem advance_reached : (s.advance before).reached = before := by
  by_cases heq : before = s.reached
  · rw [advance, if_pos heq, heq]
  · rw [advance_eq heq, (takeInForce_took rfl).reached, start]

theorem advance_tracked (h : s.table.Tracked) : (s.advance before).table.Tracked := by
  by_cases heq : before = s.reached
  · rw [advance, if_pos heq]
    exact h
  · rw [advance_eq heq]
    exact @takeInForce_induction _ _ (fun s => s.table.Tracked)
      (fun _ _ h _ => tracked_takeIn h) _ rfl (start_tracked h)

theorem advance_sound {reads : List (Nat × Option Nat)} (h : s.Sound reads)
    (hbefore : before ≠ NOT_REACHED) : (s.advance before).Sound reads := by
  by_cases heq : before = s.reached
  · rw [advance, if_pos heq]
    exact h
  · rw [advance_eq heq]
    unfold start
    split
    · have hempty : s.rewound.table.Empty := h.tracked.clear_empty
      exact @walked_sound { s.rewound with reached := before } _ h.sorted hempty.tracked
        (indexed_of_empty hempty rfl rfl) (rewound_watches reads) hbefore
        (fun i w hlt => absurd hlt (Nat.not_lt_zero i))
    · next hforward =>
      refine @walked_sound { s with reached := before } _ h.sorted h.tracked h.indexed
        h.watches hbefore ?_
      intro i w hlt hw
      have hreaches := h.reaches
      unfold Reaches at hreaches
      split at hreaches
      · dsimp only at hlt
        rw [hreaches] at hlt
        exact absurd hlt (Nat.not_lt_zero i)
      · next hreached =>
        have hforce := (hreaches i w hw).mp hlt
        have hle : s.reached ≤ before := Nat.le_of_not_lt (fun hlt => hforward ⟨hreached, hlt⟩)
        exact decide_eq_true (Nat.le_trans (of_decide_eq_true hforce) hle)

/-! ## What a sweep answers -/

theorem indexOf_reached {reads : List (Nat × Option Nat)} (h : s.Sound reads)
    (hreached : s.reached ≠ NOT_REACHED) (register : Nat) :
    s.indexOf register = lastIndex s.writes s.reached register := by
  have hreaches := h.reaches
  rw [Reaches, if_neg hreached] at hreaches
  rw [h.indexed register]
  unfold lastIndex
  generalize hk : min s.next s.writes.length = k
  have hpast : lastBelow (writesTo s.writes register) s.next =
      lastBelow (writesTo s.writes register) k := by
    apply lastBelow_of_le (by omega)
    intro i hle hlt
    unfold writesTo
    rw [List.getElem?_eq_none (by omega)]
    rfl
  have hrest : lastBelow (fun i => s.writes[i]?.any
      (fun w => inForceAt w s.reached && w.register == register)) s.writes.length =
      lastBelow (fun i => s.writes[i]?.any
        (fun w => inForceAt w s.reached && w.register == register)) k := by
    apply lastBelow_of_le (by omega)
    intro i hle hlt
    have hforce : inForceAt s.writes[i] s.reached = false := by
      apply Bool.eq_false_iff.mpr
      intro hforce
      have := (hreaches i _ (List.getElem?_eq_getElem hlt)).mpr hforce
      omega
    rw [List.getElem?_eq_getElem hlt, Option.any_some, hforce, Bool.false_and]
  rw [hpast, hrest]
  apply lastBelow_congr
  intro i hi
  have hin : i < s.writes.length := by omega
  have hforce := (hreaches i _ (List.getElem?_eq_getElem hin)).mp (by omega)
  unfold writesTo
  rw [List.getElem?_eq_getElem hin, Option.any_some, Option.any_some, hforce, Bool.true_and]

theorem valueOf_reached {reads : List (Nat × Option Nat)} (h : s.Sound reads)
    (hreached : s.reached ≠ NOT_REACHED) (register : Nat) :
    s.valueOf register = scanned s.writes s.reached register := by
  unfold valueOf scanned
  rw [indexOf_reached h hreached]

theorem latest_answers {reads : List (Nat × Option Nat)} (h : s.Sound reads)
    (hbefore : before ≠ NOT_REACHED) (register : Nat) :
    (s.latest before register).1 = scanned s.writes before register := by
  have hsound := advance_sound h hbefore
  have hvalue := valueOf_reached hsound (by rw [advance_reached]; exact hbefore) register
  rw [advance_reached, advance_writes] at hvalue
  unfold latest
  dsimp only
  split
  · exact hvalue
  · exact hvalue

theorem latest_sound {reads : List (Nat × Option Nat)} (h : s.Sound reads)
    (hbefore : before ≠ NOT_REACHED) (register : Nat) :
    (s.latest before register).2.Sound
      (if s.noted.recording then reads ++ [(register, scanned s.writes before register)]
      else reads) := by
  have hsound := advance_sound h hbefore
  have hvalue := valueOf_reached hsound (by rw [advance_reached]; exact hbefore) register
  rw [advance_reached, advance_writes] at hvalue
  unfold latest
  dsimp only
  rw [advance_recording]
  split
  · refine ⟨hsound.sorted, hsound.tracked, hsound.indexed, ?_, hsound.reaches⟩
    intro hkeyed hsame read hread
    have hwas := Noted.keyed_of_note hkeyed
    rw [Noted.note_changed] at hsame
    rcases List.mem_append.mp hread with hold | hnew
    · obtain ⟨hheld, heq⟩ := hsound.watches hwas hsame read hold
      exact ⟨Noted.holds_note hheld, heq⟩
    · rw [List.mem_singleton.mp hnew]
      exact ⟨Noted.holds_note_self hkeyed, hvalue⟩
  · exact hsound

theorem latest_recording (register : Nat) :
    (s.latest before register).2.noted.recording = s.noted.recording := by
  unfold latest
  dsimp only
  split
  · exact (Noted.note_recording register).trans advance_recording
  · exact advance_recording

theorem latest_writes (register : Nat) : (s.latest before register).2.writes = s.writes := by
  unfold latest
  dsimp only
  split
  · exact advance_writes
  · exact advance_writes

theorem beforeAmong_answers {reads : List (Nat × Option Nat)} (h : s.Sound reads)
    (hbefore : before ≠ NOT_REACHED) (registers : List Nat) :
    (SweepAnswer.among (s.beforeAmong before registers).1).Meets s.writes
      (.among before registers) := by
  have hsound := advance_sound h hbefore
  have hindex : (s.advance before).indexOf = lastIndex s.writes before := by
    funext register
    have hindex := indexOf_reached hsound (by rw [advance_reached]; exact hbefore) register
    rw [advance_reached, advance_writes] at hindex
    exact hindex
  refine ⟨(registers.filterMap (lastIndex s.writes before)).mergeSort
    (fun a b => decide (a ≤ b)), List.mergeSort_perm _ _, ?_, ?_⟩
  · have htrans (a b c : Nat) (hab : decide (a ≤ b) = true) (hbc : decide (b ≤ c) = true) :
        decide (a ≤ c) = true :=
      decide_eq_true (Nat.le_trans (of_decide_eq_true hab) (of_decide_eq_true hbc))
    have htotal (a b : Nat) : (decide (a ≤ b) || decide (b ≤ a)) = true := by
      simp [Nat.le_total]
    have hsorted := List.pairwise_mergeSort htrans htotal
      (registers.filterMap (lastIndex s.writes before))
    exact hsorted.imp (fun h => of_decide_eq_true h)
  · unfold beforeAmong
    dsimp only
    rw [hindex, advance_writes]

theorem notedChanged_answers {reads : List (Nat × Option Nat)} (h : s.Sound reads)
    (hbefore : before ≠ NOT_REACHED) :
    (SweepAnswer.changed (s.notedChanged before).1).Meets s.writes (.changed before reads) := by
  have hsound := advance_sound h hbefore
  intro hsame read hread
  obtain ⟨hkeyed, hsame⟩ := Bool.or_eq_false_iff.mp hsame
  rw [Bool.not_eq_false'] at hkeyed
  have hvalue := valueOf_reached hsound (by rw [advance_reached]; exact hbefore) read.1
  rw [advance_reached, advance_writes] at hvalue
  rw [← hvalue]
  exact (hsound.watches hkeyed hsame read hread).2

theorem recordReads_sound {reads : List (Nat × Option Nat)} (h : s.Sound reads) :
    s.recordReads.Sound [] where
  sorted := h.sorted
  tracked := h.tracked
  indexed := h.indexed
  watches := fun _ _ _ hread => absurd hread List.not_mem_nil
  reaches := h.reaches

/-- Whether reads are recorded from here on changes nothing of what was. -/
theorem Sound.recording {reads : List (Nat × Option Nat)} (h : s.Sound reads) (recording : Bool) :
    ({ s with noted := { s.noted with recording } } : RegisterSweep).Sound reads where
  sorted := h.sorted
  tracked := h.tracked
  indexed := h.indexed
  watches := h.watches
  reaches := h.reaches

end RegisterSweep

/-- A sweep and the record of its caller that agree. -/
structure Agrees (writes : List RegisterWrite) (s : RegisterSweep) (r : Record) : Prop where
  writes : s.writes = writes
  recording : s.noted.recording = r.recording
  sound : s.Sound r.reads

theorem PacketOffset.ne {before : Nat} (h : PacketOffset before) : before ≠ NOT_REACHED := by
  obtain ⟨hfour, -⟩ := h
  intro heq
  rw [heq] at hfour
  exact absurd hfour (by decide)

open RegisterSweep in
mutual

theorem perform_meets {writes : List RegisterWrite} :
    ∀ (call : SweepCall) {s : RegisterSweep} {r : Record}, Agrees writes s r → call.AtPackets →
      List.Forall₂ (SweepAnswer.Meets writes) (call.perform s).1 (call.scan writes r).1 ∧
        Agrees writes (call.perform s).2 (call.scan writes r).2
  | .latest before register, s, r, h, hat => by
      have hbefore := PacketOffset.ne hat
      have hsound := latest_sound h.sound hbefore register
      rw [h.recording] at hsound
      rw [SweepCall.perform, SweepCall.scan, ← h.writes]
      refine ⟨List.Forall₂.cons (latest_answers h.sound hbefore register) List.Forall₂.nil,
        latest_writes register, ?_, ?_⟩
      · refine ((latest_recording register).trans h.recording).trans ?_
        dsimp only
        split <;> rfl
      · split at hsound
        · next hrecording =>
          rw [if_pos hrecording]
          exact hsound
        · next hidle =>
          rw [if_neg hidle]
          exact hsound
  | .beforeAmong before registers, s, r, h, hat => by
      have hbefore := PacketOffset.ne hat
      rw [SweepCall.perform, SweepCall.scan, ← h.writes]
      exact ⟨List.Forall₂.cons (beforeAmong_answers h.sound hbefore registers) List.Forall₂.nil,
        advance_writes, advance_recording.trans h.recording, advance_sound h.sound hbefore⟩
  | .recordReads, s, r, h, _ => by
      rw [SweepCall.perform, SweepCall.scan]
      exact ⟨List.Forall₂.nil, h.writes, rfl, recordReads_sound h.sound⟩
  | .stopRecording, s, r, h, _ => by
      rw [SweepCall.perform, SweepCall.scan]
      exact ⟨List.Forall₂.nil, h.writes, rfl, h.sound.recording false⟩
  | .unnoted read, s, r, h, hat => by
      have hinside := performAll_meets read
        (s := { s with noted := { s.noted with recording := false } })
        (r := { r with recording := false }) ⟨h.writes, rfl, h.sound.recording false⟩ hat
      rw [SweepCall.perform, SweepCall.scan]
      exact ⟨hinside.1, hinside.2.writes, h.recording, hinside.2.sound.recording _⟩
  | .notedChanged before, s, r, h, hat => by
      have hbefore := PacketOffset.ne hat
      rw [SweepCall.perform, SweepCall.scan, ← h.writes]
      exact ⟨List.Forall₂.cons (notedChanged_answers h.sound hbefore) List.Forall₂.nil,
        advance_writes, advance_recording.trans h.recording, advance_sound h.sound hbefore⟩

theorem performAll_meets {writes : List RegisterWrite} :
    ∀ (calls : List SweepCall) {s : RegisterSweep} {r : Record}, Agrees writes s r →
      SweepCall.AllAtPackets calls →
      List.Forall₂ (SweepAnswer.Meets writes) (SweepCall.performAll calls s).1
          (SweepCall.scanAll writes calls r).1 ∧
        Agrees writes (SweepCall.performAll calls s).2 (SweepCall.scanAll writes calls r).2
  | [], s, r, h, _ => by
      rw [SweepCall.performAll, SweepCall.scanAll]
      exact ⟨List.Forall₂.nil, h⟩
  | call :: calls, s, r, h, hat => by
      have hfirst := perform_meets call h hat.1
      have hrest := performAll_meets calls hfirst.2 hat.2
      rw [SweepCall.performAll, SweepCall.scanAll]
      exact ⟨List.rel_append hfirst.1 hrest.1, hrest.2⟩

end

open RegisterSweep in
mutual

theorem perform_tracked : ∀ (call : SweepCall) {s : RegisterSweep}, s.table.Tracked →
    (call.perform s).2.table.Tracked
  | .latest before register, s, h => by
      rw [SweepCall.perform]
      dsimp only
      unfold RegisterSweep.latest
      dsimp only
      split
      · exact advance_tracked h
      · exact advance_tracked h
  | .beforeAmong before registers, s, h => by
      rw [SweepCall.perform]
      exact advance_tracked h
  | .recordReads, s, h => by
      rw [SweepCall.perform]
      exact h
  | .stopRecording, s, h => by
      rw [SweepCall.perform]
      exact h
  | .unnoted read, s, h => by
      rw [SweepCall.perform]
      exact performAll_tracked read (s := { s with noted := { s.noted with recording := false } }) h
  | .notedChanged before, s, h => by
      rw [SweepCall.perform]
      exact advance_tracked h

theorem performAll_tracked : ∀ (calls : List SweepCall) {s : RegisterSweep}, s.table.Tracked →
    (SweepCall.performAll calls s).2.table.Tracked
  | [], s, h => by
      rw [SweepCall.performAll]
      exact h
  | call :: calls, s, h => by
      rw [SweepCall.performAll]
      exact performAll_tracked calls (perform_tracked call h)

end

/-- A table a sweep may take has every entry unwritten. -/
theorem Spare.empty {table : SweepTable} (h : Spare table) : table.Empty := by
  induction h with
  | fresh => exact SweepTable.fresh_empty
  | dropped _ writes calls ih =>
      exact (performAll_tracked calls (s := .new writes _) ih.tracked).clear_empty

/-- Whatever is asked of a sweep, in whatever order, on a new table or one given back, its
answers are those of a scan over the writes: the value of the last write in force, the last
writes in order, and no change only where every register recorded holds what it was read with. -/
theorem sweep_scans {writes : List RegisterWrite} {table : SweepTable} {calls : List SweepCall}
    (hsorted : writes.Pairwise (fun a b => a.packetOffset ≤ b.packetOffset)) (htable : Spare table)
    (hat : SweepCall.AllAtPackets calls) :
    List.Forall₂ (SweepAnswer.Meets writes)
      (SweepCall.performAll calls (.new writes table)).1 (SweepCall.scanAll writes calls {}).1 :=
  (@performAll_meets writes calls (.new writes table) {}
    ⟨rfl, rfl, RegisterSweep.new_sound hsorted htable.empty⟩ hat).1

/-- Two writes of one register and one past the table, read there and back and watched. -/
theorem sweep_scans_small :
    let writes : List RegisterWrite := [⟨0, 5, 1⟩, ⟨8, 70000, 2⟩, ⟨16, 5, 3⟩]
    let calls : List SweepCall := [.recordReads, .latest 8 5, .unnoted [.latest 8 70000],
      .stopRecording, .notedChanged 12, .beforeAmong 16 [70000, 5], .notedChanged 16, .latest 0 5]
    List.Forall₂ (SweepAnswer.Meets writes)
      (SweepCall.performAll calls (.new writes .fresh)).1 (SweepCall.scanAll writes calls {}).1 :=
  sweep_scans (by decide) .fresh
    (by simp [SweepCall.AllAtPackets, SweepCall.AtPackets, PacketOffset, u32Max])

end Orbistoun.Gpu.Registers
