import Orbistoun.Lib.Spirv
import Orbistoun.Translate.Blocks.Basic

/-! # Lane masks of the predicated strategy

What `predicated.rs` emits to keep a guest lane mask in a subgroup, one flag an invocation, and
to read it back as two words. Each function appends instructions to the module it is given and
answers with the ids of their results.
-/

namespace Orbistoun.Translate

open Std (TreeMap)
open Orbistoun.Lib.Spirv

inductive Width where
  | wave32
  | wave64
  deriving DecidableEq, Repr

def Width.lanes : Width → Nat
  | .wave32 => 32
  | .wave64 => 64

theorem Width.lanes_le (w : Width) : w.lanes ≤ 64 := by cases w <;> decide

theorem Width.lanes_pos (w : Width) : 0 < w.lanes := by cases w <;> decide

/-- What a wave of this width has of a mask. -/
def Width.restrict (w : Width) (m : BitVec 64) : BitVec 64 := (m.setWidth w.lanes).setWidth 64

/-- The flags and the inputs a mask is kept in. -/
structure Mask where
  active : Nat
  condition : Nat
  lane : Nat
  scope : Nat
  ballotType : Nat
  deriving DecidableEq, Repr

/-- The module as far as it is built; a constant on record is declared with its value. -/
structure Predicated where
  nextId : Nat
  functions : List Instr
  declarations : List (Nat × BitVec 32)
  constants : TreeMap Nat Nat
  mask : Option Mask
  u32Type : Nat
  boolType : Nat
  declared : ∀ value id : Nat, constants[value]? = some id →
    id < nextId ∧ (id, BitVec.ofNat 32 value) ∈ declarations

namespace Predicated

def emit (p : Predicated) (type : Nat) (o : Operation) : Predicated × Nat :=
  ({ p with
      nextId := p.nextId + 1
      functions := p.functions ++ [.assign type p.nextId o]
      declared := fun value id h =>
        ⟨Nat.lt_succ_of_lt (p.declared value id h).1, (p.declared value id h).2⟩ },
    p.nextId)

/-- An unsigned constant, declared once however often it is used. -/
def constant (p : Predicated) (value : Nat) : Predicated × Nat :=
  match p.constants[value]? with
  | some id => (p, id)
  | none =>
      ({ p with
          nextId := p.nextId + 1
          declarations := p.declarations ++ [(p.nextId, BitVec.ofNat 32 value)]
          constants := p.constants.insert value p.nextId
          declared := by
            intro v id h
            rw [TreeMap.getElem?_insert] at h
            split at h
            · next heq =>
              cases h
              rw [Nat.compare_eq_eq] at heq
              subst heq
              exact ⟨Nat.lt_succ_self _, List.mem_append_right _ (List.mem_singleton_self _)⟩
            · obtain ⟨hid, hmem⟩ := p.declared v id h
              exact ⟨Nat.lt_succ_of_lt hid, List.mem_append_left _ hmem⟩ },
        p.nextId)

def maskVariable (mask : Mask) (name : String) : Nat :=
  if name = "vcc_lo" then mask.condition else mask.active

/-- This invocation's lane number, from the built-in. -/
def laneIndex (p : Predicated) (mask : Mask) : Predicated × Nat := p.emit p.u32Type (.load mask.lane)

/-- Whether this invocation's lane is active. -/
def loadFlag (p : Predicated) (variable_ : Nat) : Predicated × Nat :=
  p.emit p.boolType (.load variable_)

def isNotZero (p : Predicated) (value : Nat) : Predicated × Nat :=
  let (p, zero) := p.constant 0
  p.emit p.boolType (.iNotEqual value zero)

/-- The instructions choosing a half by the lane's number and taking one bit of it. -/
def chosenBit (p : Predicated) (lane thirtyTwo one nought low high : Nat) : Predicated × Nat :=
  let (p, upper) := p.emit p.boolType (.uLessThan thirtyTwo lane)
  let (p, wrapped) := p.emit p.u32Type (.iSub lane thirtyTwo)
  let (p, index) := p.emit p.u32Type (.select upper wrapped lane)
  let (p, word) := p.emit p.u32Type (.select upper high low)
  let (p, shifted) := p.emit p.u32Type (.shiftRightLogical word index)
  let (p, bit) := p.emit p.u32Type (.bitwiseAnd shifted one)
  p.emit p.boolType (.iNotEqual bit nought)

/-- What `lane_bit` and `write_lane_mask` both emit: this invocation's bit of two halves. -/
def ownBit (p : Predicated) (mask : Mask) (low high : Nat) : Predicated × Nat :=
  let (p, lane) := p.laneIndex mask
  let (p, thirtyTwo) := p.constant 32
  let (p, one) := p.constant 1
  let (p, zero) := p.constant 0
  p.chosenBit lane thirtyTwo one zero low high

/-- One bit of a mask, for this invocation's lane; the caller's is of a loop this model does
not run. -/
def laneBit (p : Predicated) (low high : Nat) (_lane : Nat) : Predicated × Nat :=
  match p.mask with
  | none =>
      -- anything reading a mask is refused before
      let (p, zero) := p.constant 0
      p.isNotZero zero
  | some mask => p.ownBit mask low high

def noLaneMasks : TranslateError :=
  .unsupported 0 ("the lane model has no execution mask and no condition mask. Lanes " ++
    "are separate invocations here, so neither an inactive lane nor a " ++
    "per-lane comparison result can be represented - translate at wavefront fidelity instead")

def writeLaneMask (p : Predicated) (name : String) (low high : Nat) :
    Except TranslateError Predicated :=
  match p.mask with
  | none => .error noLaneMasks
  | some mask =>
      let (p, flag) := p.ownBit mask low high
      .ok { p with functions := p.functions ++ [.store (maskVariable mask name) flag] }

def readLaneMask (p : Predicated) (name : String) : Except TranslateError (Predicated × Nat × Nat) :=
  match p.mask with
  | none => .error noLaneMasks
  | some mask =>
      let (p, flag) := p.loadFlag (maskVariable mask name)
      let (p, ballot) := p.emit mask.ballotType (.groupNonUniformBallot mask.scope flag)
      let (p, low) := p.emit p.u32Type (.compositeExtract ballot 0)
      let (p, high) := p.emit p.u32Type (.compositeExtract ballot 1)
      .ok (p, low, high)

def rewrite (p : Predicated) (name : String) (low high : Nat) :
    Except TranslateError (Predicated × Nat × Nat) := do
  let p ← p.writeLaneMask name low high
  p.readLaneMask name

/-! ## What constants and instructions leave -/

section Constant

variable (p : Predicated) (value : Nat)

@[simp] theorem emit_functions (type : Nat) (o : Operation) :
    (p.emit type o).1.functions = p.functions ++ [.assign type p.nextId o] := rfl

@[simp] theorem emit_u32Type (type : Nat) (o : Operation) :
    (p.emit type o).1.u32Type = p.u32Type := rfl

@[simp] theorem emit_boolType (type : Nat) (o : Operation) :
    (p.emit type o).1.boolType = p.boolType := rfl

@[simp] theorem constant_functions : (p.constant value).1.functions = p.functions := by
  unfold constant
  split <;> rfl

@[simp] theorem constant_u32Type : (p.constant value).1.u32Type = p.u32Type := by
  unfold constant
  split <;> rfl

@[simp] theorem constant_boolType : (p.constant value).1.boolType = p.boolType := by
  unfold constant
  split <;> rfl

@[simp] theorem constant_mask : (p.constant value).1.mask = p.mask := by
  unfold constant
  split <;> rfl

theorem constant_nextId_le : p.nextId ≤ (p.constant value).1.nextId := by
  unfold constant
  split
  · exact Nat.le_refl _
  · exact Nat.le_succ _

theorem constant_lt : (p.constant value).2 < (p.constant value).1.nextId := by
  unfold constant
  split
  · next id h => exact (p.declared value id h).1
  · exact Nat.lt_succ_self _

theorem constant_mem :
    ((p.constant value).2, BitVec.ofNat 32 value) ∈ (p.constant value).1.declarations := by
  unfold constant
  split
  · next id h => exact (p.declared value id h).2
  · exact List.mem_append_right _ (List.mem_singleton_self _)

theorem constant_declarations {c : Nat × BitVec 32} (h : c ∈ p.declarations) :
    c ∈ (p.constant value).1.declarations := by
  unfold constant
  split
  · exact h
  · exact List.mem_append_left _ h

def Taken (id : Nat) : Prop :=
  id < p.nextId ∧ ∀ value : Nat, p.constants[value]? ≠ some id

theorem emit_taken (type : Nat) (o : Operation) : (p.emit type o).1.Taken p.nextId := by
  apply And.intro (Nat.lt_succ_self _)
  intro v hv
  exact Nat.lt_irrefl _ (p.declared v _ hv).1

variable {p} {id : Nat}

theorem Taken.constant (h : p.Taken id) : (p.constant value).1.Taken id := by
  apply And.intro (Nat.lt_of_lt_of_le h.1 (p.constant_nextId_le value))
  unfold Predicated.constant
  split
  · exact h.2
  · intro v hv
    rw [TreeMap.getElem?_insert] at hv
    split at hv
    · cases hv
      exact Nat.lt_irrefl _ h.1
    · exact h.2 v hv

theorem Taken.constant_ne (h : p.Taken id) : (p.constant value).2 ≠ id := by
  unfold Predicated.constant
  split
  · next c hc => exact fun heq => h.2 value (heq ▸ hc)
  · exact fun heq => Nat.lt_irrefl _ (heq ▸ h.1)

end Constant

/-! ## One invocation's bit -/

/-- The instructions of `chosenBit`, whose results start at `n`. -/
def bitCode (u32Type boolType lane thirtyTwo one nought low high n : Nat) : List Instr :=
  [.assign boolType n (.uLessThan thirtyTwo lane),
   .assign u32Type (n + 1) (.iSub lane thirtyTwo),
   .assign u32Type (n + 2) (.select n (n + 1) lane),
   .assign u32Type (n + 3) (.select n high low),
   .assign u32Type (n + 4) (.shiftRightLogical (n + 3) (n + 2)),
   .assign u32Type (n + 5) (.bitwiseAnd (n + 4) one),
   .assign boolType (n + 6) (.iNotEqual (n + 5) nought)]

theorem chosenBit_functions (p : Predicated) (lane thirtyTwo one nought low high : Nat) :
    (p.chosenBit lane thirtyTwo one nought low high).1.functions = p.functions ++
      bitCode p.u32Type p.boolType lane thirtyTwo one nought low high p.nextId := by
  show ((((((p.functions ++ [_]) ++ [_]) ++ [_]) ++ [_]) ++ [_]) ++ [_]) ++ [_] = _
  simp only [List.append_assoc, List.cons_append, List.nil_append]
  rfl

/-- What the instructions make of two halves in a lane. -/
def testLane (d : Device) (low high lane : BitVec 32) : Bool :=
  let upper := (32#32).ult lane
  let index := if upper then lane - 32#32 else lane
  let word := if upper then high else low
  d.shift word index &&& 1#32 != 0#32

theorem numbered_bitCode {u32Type boolType lane thirtyTwo one nought low high n : Nat} :
    Numbered n (bitCode u32Type boolType lane thirtyTwo one nought low high n) := by
  intro k i hk
  match k with
  | 0 | 1 | 2 | 3 | 4 | 5 | 6 => cases hk; rfl
  | k + 7 => cases hk

/-- The flag computed in each lane, from the ids the instructions read. -/
theorem bitCode_flag {d : Device} {width : Nat} {s : Nat → Lane} (u32Type boolType : Nat)
    {lane thirtyTwo one nought low high n : Nat} {l h i : Nat → BitVec 32}
    (hlane : Holds width s lane (fun k => .word (i k))) (hlane_lt : lane < n)
    (hthirtyTwo : Holds width s thirtyTwo (fun _ => .word 32#32)) (hthirtyTwo_lt : thirtyTwo < n)
    (hone : Holds width s one (fun _ => .word 1#32)) (hone_lt : one < n)
    (hzero : Holds width s nought (fun _ => .word 0#32)) (hzero_lt : nought < n)
    (hlow : Holds width s low (fun k => .word (l k))) (hlow_lt : low < n)
    (hhigh : Holds width s high (fun k => .word (h k))) (hhigh_lt : high < n) :
    Holds width (exec d width s (bitCode u32Type boolType lane thirtyTwo one nought low high n))
      (n + 6) (fun k => .flag (testLane d (l k) (h k) (i k))) := by
  let code := bitCode u32Type boolType lane thirtyTwo one nought low high n
  have hcode : Numbered n code := numbered_bitCode
  have hupper : Holds width (exec d width s (code.take 1)) n
      (fun k => .flag ((32#32).ult (i k))) := by
    rw [exec_take_succ rfl]
    exact Holds.uLessThan hthirtyTwo hlane
  have hwrapped : Holds width (exec d width s (code.take 2)) (n + 1)
      (fun k => .word (i k - 32#32)) := by
    rw [exec_take_succ rfl]
    exact Holds.iSub (Holds.later hcode (j := 0) (by omega) hlane_lt hlane)
      (Holds.later hcode (j := 0) (by omega) hthirtyTwo_lt hthirtyTwo)
  have hindex : Holds width (exec d width s (code.take 3)) (n + 2)
      (fun k => .word (if (32#32).ult (i k) then i k - 32#32 else i k)) := by
    rw [exec_take_succ rfl]
    exact Holds.select (hupper.later hcode (by omega) (by omega)) hwrapped
      (Holds.later hcode (j := 0) (by omega) hlane_lt hlane)
  have hword : Holds width (exec d width s (code.take 4)) (n + 3)
      (fun k => .word (if (32#32).ult (i k) then h k else l k)) := by
    rw [exec_take_succ rfl]
    exact Holds.select (hupper.later hcode (by omega) (by omega))
      (Holds.later hcode (j := 0) (by omega) hhigh_lt hhigh)
      (Holds.later hcode (j := 0) (by omega) hlow_lt hlow)
  have hshifted : Holds width (exec d width s (code.take 5)) (n + 4)
      (fun k => .word (d.shift (if (32#32).ult (i k) then h k else l k)
        (if (32#32).ult (i k) then i k - 32#32 else i k))) := by
    rw [exec_take_succ rfl]
    exact Holds.shiftRightLogical hword (hindex.later hcode (by omega) (by omega))
  have hbit : Holds width (exec d width s (code.take 6)) (n + 5)
      (fun k => .word (d.shift (if (32#32).ult (i k) then h k else l k)
        (if (32#32).ult (i k) then i k - 32#32 else i k) &&& 1#32)) := by
    rw [exec_take_succ rfl]
    exact Holds.bitwiseAnd hshifted (Holds.later hcode (j := 0) (by omega) hone_lt hone)
  have hflag : Holds width (exec d width s (code.take 7)) (n + 6)
      (fun k => .flag (testLane d (l k) (h k) (i k))) := by
    rw [exec_take_succ rfl]
    exact Holds.iNotEqual hbit (Holds.later hcode (j := 0) (by omega) hzero_lt hzero)
  exact hflag

/-- The flag is the lane's bit of the two halves, but in the first lane of the upper half. -/
theorem testLane_eq (d : Device) (low high : BitVec 32) {lane : Nat} (hlane : lane < 64) :
    testLane d low high (BitVec.ofNat 32 lane) =
      if lane = 32 then (d.overshift low 32#32).getLsbD 0 else (high ++ low).getLsbD lane := by
  have htest : ∀ w : BitVec 32, (w &&& 1#32 != 0#32) = w.getLsbD 0 := by
    intro w
    rw [Bool.eq_iff_iff, bne_iff_ne, ne_eq, BitVec.and_one_eq_setWidth_ofBool_getLsbD]
    cases w.getLsbD 0 <;> decide
  have htoNat : (BitVec.ofNat 32 lane).toNat = lane := by
    rw [BitVec.toNat_ofNat, Nat.mod_eq_of_lt (by omega)]
  have hupper : (32#32).ult (BitVec.ofNat 32 lane) = decide (32 < lane) := by
    rw [BitVec.ult, htoNat]
    rfl
  rw [testLane, htest, hupper]
  rcases Nat.lt_trichotomy lane 32 with hlt | heq | hgt
  · have hnot : ¬ 32 < lane := by omega
    rw [if_neg hlt.ne, BitVec.getLsbD_append, if_pos hlt]
    simp only [hnot, decide_false, Bool.false_eq_true, if_false]
    rw [Device.shift, htoNat, if_pos hlt, BitVec.getLsbD_ushiftRight, Nat.add_zero]
  · subst heq
    rfl
  · have hsub : (BitVec.ofNat 32 lane - 32#32).toNat = lane - 32 := by
      rw [BitVec.toNat_sub_of_le (by simpa [BitVec.le_def, htoNat] using hgt.le), htoNat]
      rfl
    have hnot : ¬ lane < 32 := by omega
    have hindex : lane - 32 < 32 := by omega
    rw [if_neg hgt.ne', BitVec.getLsbD_append, if_neg hnot]
    simp only [hgt, decide_true, if_true]
    rw [Device.shift, hsub, if_pos hindex, BitVec.getLsbD_ushiftRight, Nat.add_zero]

/-! ## The bit of a mask -/

/-- The finished module's constants are there in every invocation. -/
def Declares (p : Predicated) (w : Width) (s : Nat → Lane) : Prop :=
  ∀ c ∈ p.declarations, Holds w.lanes s c.1 (fun _ => .word c.2)

instance (p : Predicated) (w : Width) (s : Nat → Lane) : Decidable (p.Declares w s) :=
  inferInstanceAs (Decidable (∀ c ∈ p.declarations, _))

/-- What the code starts from: the built-in lane numbers, and a scalar pair's words. -/
structure Inputs (p : Predicated) (mask : Mask) (low high : Nat) (w : Width) (m : BitVec 64)
    (s : Nat → Lane) : Prop where
  keeps : p.mask = some mask
  lanes : ∀ k, k < w.lanes → (s k).memory mask.lane = .word (BitVec.ofNat 32 k)
  lowWord : Holds w.lanes s low (fun _ => .word (m.extractLsb' 0 32))
  highWord : Holds w.lanes s high (fun _ => .word (m.extractLsb' 32 32))
  low_lt : low < p.nextId
  high_lt : high < p.nextId

/-- What a module's code leaves from where an earlier module's ended. -/
def after (d : Device) (w : Width) (s : Nat → Lane) (p q : Predicated) : Nat → Lane :=
  exec d w.lanes s (q.functions.drop p.functions.length)

def bitRead (d : Device) (m : BitVec 64) (lane : Nat) : Bool :=
  if lane = 32 then (d.overshift (m.extractLsb' 0 32) 32#32).getLsbD 0 else m.getLsbD lane

theorem ownBit_functions (p : Predicated) (mask : Mask) (low high : Nat) :
    ∃ thirtyTwo one nought n : Nat,
      (p.ownBit mask low high).1.functions = p.functions ++
        .assign p.u32Type p.nextId (.load mask.lane) ::
          bitCode p.u32Type p.boolType p.nextId thirtyTwo one nought low high n ∧
      (p.ownBit mask low high).2 = n + 6 ∧ p.nextId < n ∧
      ∀ v id : Nat, (v, id) ∈ [(32, thirtyTwo), (1, one), (0, nought)] →
        id < n ∧ id ≠ p.nextId ∧
          (id, BitVec.ofNat 32 v) ∈ (p.ownBit mask low high).1.declarations := by
  let p₀ := (p.laneIndex mask).1
  let p₁ := (p₀.constant 32).1
  let p₂ := (p₁.constant 1).1
  let p₃ := (p₂.constant 0).1
  have h₀ : p₀.Taken p.nextId := emit_taken p p.u32Type (.load mask.lane)
  have h₁ : p₁.Taken p.nextId := h₀.constant 32
  have h₂ : p₂.Taken p.nextId := h₁.constant 1
  have h₃ : p₃.Taken p.nextId := h₂.constant 0
  have hle₁ : p₁.nextId ≤ p₂.nextId := p₁.constant_nextId_le 1
  have hle₂ : p₂.nextId ≤ p₃.nextId := p₂.constant_nextId_le 0
  apply Exists.intro (p₀.constant 32).2
  apply Exists.intro (p₁.constant 1).2
  apply Exists.intro (p₂.constant 0).2
  apply Exists.intro p₃.nextId
  apply And.intro
  · show (p₃.chosenBit ..).1.functions = _
    have hf : p₃.functions = p.functions ++ [.assign p.u32Type p.nextId (.load mask.lane)] := by
      simp only [p₃, p₂, p₁, p₀, laneIndex, constant_functions, emit_functions]
    have hu : p₃.u32Type = p.u32Type := by
      simp only [p₃, p₂, p₁, p₀, laneIndex, constant_u32Type, emit_u32Type]
    have hb : p₃.boolType = p.boolType := by
      simp only [p₃, p₂, p₁, p₀, laneIndex, constant_boolType, emit_boolType]
    rw [chosenBit_functions, hf, hu, hb, List.append_assoc]
    rfl
  apply And.intro rfl
  apply And.intro h₃.1
  intro v id h
  simp only [List.mem_cons, List.not_mem_nil, or_false, Prod.mk.injEq] at h
  rcases h with ⟨rfl, rfl⟩ | ⟨rfl, rfl⟩ | ⟨rfl, rfl⟩
  · have hlt : (p₀.constant 32).2 < p₁.nextId := p₀.constant_lt 32
    have hmem := (p₂.constant_declarations 0) ((p₁.constant_declarations 1) (p₀.constant_mem 32))
    exact ⟨by omega, h₀.constant_ne 32, hmem⟩
  · have hlt : (p₁.constant 1).2 < p₂.nextId := p₁.constant_lt 1
    have hmem := (p₂.constant_declarations 0) (p₁.constant_mem 1)
    exact ⟨by omega, h₁.constant_ne 1, hmem⟩
  · exact ⟨p₂.constant_lt 0, h₂.constant_ne 0, p₂.constant_mem 0⟩

theorem after_eq {d : Device} {w : Width} {s : Nat → Lane} {p q : Predicated} {code : List Instr}
    (h : q.functions = p.functions ++ code) : after d w s p q = exec d w.lanes s code := by
  rw [after, h, List.drop_left]

theorem after_append {d : Device} {w : Width} {s : Nat → Lane} {p q r : Predicated}
    {code code' : List Instr} (hq : q.functions = p.functions ++ code)
    (hr : r.functions = q.functions ++ code') :
    after d w s p r = exec d w.lanes (after d w s p q) code' := by
  rw [after_eq hq, ← exec_append]
  apply after_eq
  rw [hr, hq, List.append_assoc]

section Bits

variable {d : Device} {w : Width} {p q : Predicated} {mask : Mask} {low high : Nat}
  {m : BitVec 64} {s : Nat → Lane}

theorem testLane_halves {lane : Nat} (hlane : lane < 64) :
    testLane d (m.extractLsb' 0 32) (m.extractLsb' 32 32) (BitVec.ofNat 32 lane) =
      bitRead d m lane := by
  rw [testLane_eq d _ _ hlane, bitRead]
  congr 1
  rw [BitVec.getLsbD_append, BitVec.getLsbD_extractLsb', BitVec.getLsbD_extractLsb']
  split
  · next hlt => rw [decide_eq_true hlt, Nat.zero_add]; rfl
  · next hge =>
    have hhalf : lane - 32 < 32 := by omega
    have hsum : 32 + (lane - 32) = lane := by omega
    rw [decide_eq_true hhalf, hsum]
    rfl

theorem ownBit_flag (hin : Inputs p mask low high w m s)
    (hdecl : (p.ownBit mask low high).1.Declares w s) :
    Holds w.lanes (after d w s p (p.ownBit mask low high).1) (p.ownBit mask low high).2
      (fun k => .flag (bitRead d m k)) := by
  obtain ⟨thirtyTwo, one, nought, n, hfunctions, hflag, hn, hconstants⟩ :=
    ownBit_functions p mask low high
  have hconstant : ∀ v id : Nat, (v, id) ∈ [(32, thirtyTwo), (1, one), (0, nought)] →
      Holds w.lanes (step d w.lanes s (.assign p.u32Type p.nextId (.load mask.lane))) id
        (fun _ => .word (BitVec.ofNat 32 v)) := by
    intro v id h
    have hid := hconstants v id h
    exact (hdecl _ hid.2.2).assign_of_ne _ hid.2.1
  rw [after_eq hfunctions, hflag, exec_cons]
  have hbits := bitCode_flag (d := d) p.u32Type p.boolType (Holds.load hin.lanes) hn
    (hconstant 32 thirtyTwo (by simp)) (hconstants 32 thirtyTwo (by simp)).1
    (hconstant 1 one (by simp)) (hconstants 1 one (by simp)).1
    (hconstant 0 nought (by simp)) (hconstants 0 nought (by simp)).1
    (hin.lowWord.assign_of_ne _ hin.low_lt.ne) (hin.low_lt.trans hn)
    (hin.highWord.assign_of_ne _ hin.high_lt.ne) (hin.high_lt.trans hn)
  intro k hk
  rw [hbits k hk]
  dsimp only
  rw [testLane_halves (Nat.lt_of_lt_of_le hk w.lanes_le)]

/-- The instructions of `readLaneMask`, whose results start at `n`. -/
def readCode (u32Type boolType : Nat) (mask : Mask) (name : String) (n : Nat) : List Instr :=
  [.assign boolType n (.load (maskVariable mask name)),
   .assign mask.ballotType (n + 1) (.groupNonUniformBallot mask.scope n),
   .assign u32Type (n + 2) (.compositeExtract (n + 1) 0),
   .assign u32Type (n + 3) (.compositeExtract (n + 1) 1)]

theorem numbered_readCode {u32Type boolType : Nat} {mask : Mask} {name : String} {n : Nat} :
    Numbered n (readCode u32Type boolType mask name n) := by
  intro k i hk
  match k with
  | 0 | 1 | 2 | 3 => cases hk; rfl
  | k + 4 => cases hk

theorem ownBit_mask (p : Predicated) (mask : Mask) (low high : Nat) : (p.ownBit mask low high).1.mask = p.mask := by
  show ((((p.laneIndex mask).1.constant 32).1.constant 1).1.constant 0).1.mask = p.mask
  simp only [constant_mask]
  rfl

def stored (p : Predicated) (mask : Mask) (name : String) (low high : Nat) : Predicated :=
  { (p.ownBit mask low high).1 with
    functions := (p.ownBit mask low high).1.functions ++
      [.store (maskVariable mask name) (p.ownBit mask low high).2] }

theorem stored_mask {name : String} : (p.stored mask name low high).mask = p.mask :=
  ownBit_mask p mask low high

theorem rewrite_eq {name : String} (hmask : p.mask = some mask) :
    p.rewrite name low high = (p.stored mask name low high).readLaneMask name := by
  unfold rewrite writeLaneMask
  rw [hmask]
  rfl

theorem readLaneMask_ok {name : String} {lo hi : Nat} (hmask : p.mask = some mask)
    (hread : p.readLaneMask name = .ok (q, lo, hi)) :
    q.functions = p.functions ++ readCode p.u32Type p.boolType mask name p.nextId ∧
      lo = p.nextId + 2 ∧ hi = p.nextId + 3 ∧ q.declarations = p.declarations := by
  unfold readLaneMask at hread
  rw [hmask] at hread
  cases hread
  apply And.intro
  · simp only [List.append_assoc, List.cons_append, List.nil_append]
    rfl
  · exact ⟨rfl, rfl, rfl⟩

def half (w : Width) (b : Nat → Bool) (k : Nat) : BitVec 32 :=
  wordOf (fun i => decide (32 * k + i < w.lanes) && b (32 * k + i))

theorem readCode_words {u32Type boolType : Nat} {name : String} {n : Nat} {b : Nat → Bool}
    (hflags : ∀ k, k < w.lanes → (s k).memory (maskVariable mask name) = .flag (b k)) :
    Holds w.lanes (exec d w.lanes s (readCode u32Type boolType mask name n)) (n + 2)
        (fun _ => .word (half w b 0)) ∧
      Holds w.lanes (exec d w.lanes s (readCode u32Type boolType mask name n)) (n + 3)
        (fun _ => .word (half w b 1)) := by
  let code := readCode u32Type boolType mask name n
  have hcode : Numbered n code := numbered_readCode
  have hflag : Holds w.lanes (exec d w.lanes s (code.take 1)) n (fun k => .flag (b k)) := by
    rw [exec_take_succ rfl]
    exact Holds.load hflags
  have hballot : Holds w.lanes (exec d w.lanes s (code.take 2)) (n + 1)
      (fun _ => .words (ballot w.lanes b)) := by
    rw [exec_take_succ rfl]
    exact Holds.ballot hflag
  have hlow : Holds w.lanes (exec d w.lanes s (code.take 3)) (n + 2)
      (fun _ => .word (half w b 0)) := by
    rw [exec_take_succ rfl]
    exact Holds.compositeExtract hballot rfl
  have hhigh : Holds w.lanes (exec d w.lanes s (code.take 4)) (n + 3)
      (fun _ => .word (half w b 1)) := by
    rw [exec_take_succ rfl]
    exact Holds.compositeExtract (hballot.later hcode (by omega) (by omega)) rfl
  exact ⟨hlow.later hcode (k := 4) (by omega) (by omega), hhigh⟩

theorem rewrite_words {name : String} {lo hi : Nat} (hin : Inputs p mask low high w m s)
    (hread : p.rewrite name low high = .ok (q, lo, hi)) (hdecl : q.Declares w s) :
    Holds w.lanes (after d w s p q) lo (fun _ => .word (half w (bitRead d m) 0)) ∧
      Holds w.lanes (after d w s p q) hi (fun _ => .word (half w (bitRead d m) 1)) := by
  rw [rewrite_eq hin.keeps] at hread
  obtain ⟨hfunctions, rfl, rfl, hdeclarations⟩ :=
    readLaneMask_ok (stored_mask.trans hin.keeps) hread
  have hbit : Holds w.lanes (after d w s p (p.ownBit mask low high).1)
      (p.ownBit mask low high).2 (fun k => .flag (bitRead d m k)) := by
    apply ownBit_flag hin
    intro c hc
    apply hdecl c
    rw [hdeclarations]
    exact hc
  have hstored : (p.stored mask name low high).functions =
      (p.ownBit mask low high).1.functions ++
        [Instr.store (maskVariable mask name) (p.ownBit mask low high).2] := rfl
  obtain ⟨_, _, _, _, hown, -⟩ := ownBit_functions p mask low high
  rw [hstored, List.append_assoc] at hfunctions
  rw [after_append hown hfunctions, List.singleton_append, exec_cons]
  apply readCode_words
  intro k hk
  rw [step_store_self]
  exact hbit k hk

/-! ## The round trip -/

/-- When a lane's bit is read right: no lane is the first of the upper half, or the device
shifts that half's bit into place all the same. -/
def Shifts (d : Device) (w : Width) (m : BitVec 64) : Prop :=
  w = .wave32 ∨ (d.overshift (m.extractLsb' 0 32) 32#32).getLsbD 0 = m.getLsbD 32

instance : Decidable (Shifts d w m) :=
  inferInstanceAs (Decidable (_ ∨ _))

theorem bitRead_iff : (∀ k, k < w.lanes → bitRead d m k = m.getLsbD k) ↔ Shifts d w m := by
  constructor
  · intro h
    cases w with
    | wave32 => exact Or.inl rfl
    | wave64 => exact Or.inr (h 32 (by decide))
  · intro h k hk
    unfold bitRead
    split
    · next heq =>
      subst heq
      rcases h with rfl | h
      · exact absurd hk (by decide)
      · exact h
    · rfl

theorem getLsbD_half {b : Nat → Bool} {k i : Nat} (hi : i < 32) :
    (half w b k).getLsbD i = (decide (32 * k + i < w.lanes) && b (32 * k + i)) := by
  rw [half, getLsbD_wordOf, decide_eq_true hi, Bool.true_and]

theorem half_restrict (k : Nat) (hk : k < 2) :
    half w m.getLsbD k = (w.restrict m).extractLsb' (32 * k) 32 := by
  apply BitVec.eq_of_getLsbD_eq
  intro i hi
  have hlt : 32 * k + i < 64 := by omega
  rw [getLsbD_half hi, BitVec.getLsbD_extractLsb', Width.restrict, BitVec.getLsbD_setWidth,
    BitVec.getLsbD_setWidth, decide_eq_true hi, decide_eq_true hlt, Bool.true_and, Bool.true_and]

/-- Two flags of every lane are alike when both words of them are. -/
theorem half_eq_iff {b c : Nat → Bool} :
    (half w b 0 = half w c 0 ∧ half w b 1 = half w c 1) ↔ ∀ k, k < w.lanes → b k = c k := by
  constructor
  · intro h k hk
    have hbits : ∀ j i, i < 32 → k = 32 * j + i → half w b j = half w c j → b k = c k := by
      intro j i hi hkj heq
      have hbit := congrArg (fun v : BitVec 32 => v.getLsbD i) heq
      rw [getLsbD_half hi, getLsbD_half hi, ← hkj, decide_eq_true hk] at hbit
      exact hbit
    have hle := w.lanes_le
    by_cases hlt : k < 32
    · exact hbits 0 k hlt (by omega) h.1
    · exact hbits 1 (k - 32) (by omega) (by omega) h.2
  · intro h
    have heq : ∀ j, half w b j = half w c j := by
      intro j
      apply BitVec.eq_of_getLsbD_eq
      intro i hi
      rw [getLsbD_half hi, getLsbD_half hi]
      by_cases hlane : 32 * j + i < w.lanes
      · rw [h _ hlane]
      · rw [decide_eq_false hlane]
        rfl
    exact ⟨heq 0, heq 1⟩

/-- A written mask reads back as itself, restricted to the wave, in every lane. -/
def ReadsBack (w : Width) (t : Nat → Lane) (lo hi : Nat) (m : BitVec 64) : Prop :=
  Holds w.lanes t lo (fun _ => .word ((w.restrict m).extractLsb' 0 32)) ∧
    Holds w.lanes t hi (fun _ => .word ((w.restrict m).extractLsb' 32 32))

def TakesBits (w : Width) (t : Nat → Lane) (flag : Nat) (m : BitVec 64) : Prop :=
  Holds w.lanes t flag (fun k => .flag (m.getLsbD k))

instance (t : Nat → Lane) (lo hi : Nat) : Decidable (ReadsBack w t lo hi m) :=
  inferInstanceAs (Decidable (_ ∧ _))

instance (t : Nat → Lane) (flag : Nat) : Decidable (TakesBits w t flag m) :=
  inferInstanceAs (Decidable (Holds ..))

theorem readsBack_iff {t : Nat → Lane} {lo hi : Nat}
    (hlo : Holds w.lanes t lo (fun _ => .word (half w (bitRead d m) 0)))
    (hhi : Holds w.lanes t hi (fun _ => .word (half w (bitRead d m) 1))) :
    ReadsBack w t lo hi m ↔ Shifts d w m := by
  have hword : ∀ u v : BitVec 32, (∀ k, k < w.lanes → Value.word u = Value.word v) ↔ u = v := by
    intro u v
    constructor
    · intro h
      exact Value.word.inj (h 0 w.lanes_pos)
    · intro h _ _
      rw [h]
  rw [ReadsBack, Holds.unique hlo, Holds.unique hhi, hword, hword, ← half_restrict 0 (by decide),
    ← half_restrict 1 (by decide), half_eq_iff, bitRead_iff]

theorem takesBits_iff {t : Nat → Lane} {flag : Nat}
    (hflag : Holds w.lanes t flag (fun k => .flag (bitRead d m k))) :
    TakesBits w t flag m ↔ Shifts d w m := by
  rw [TakesBits, Holds.unique hflag, ← bitRead_iff]
  constructor
  · intro h k hk
    exact Value.flag.inj (h k hk)
  · intro h k hk
    rw [h k hk]

/-- A mask reads back as it was written, and `laneBit` takes its bits, exactly when the first
lane of the upper half has its bit from the shift that is left undefined. -/
theorem lane_mask_iff {name : String} {lo hi : Nat} {r : Predicated} {flag : Nat} (lane : Nat)
    (hin : Inputs p mask low high w m s)
    (hread : p.rewrite name low high = .ok (q, lo, hi)) (hq : q.Declares w s)
    (hbit : p.laneBit low high lane = (r, flag)) (hr : r.Declares w s) :
    (ReadsBack w (after d w s p q) lo hi m ↔ Shifts d w m) ∧
      (TakesBits w (after d w s p r) flag m ↔ Shifts d w m) := by
  have hown : p.ownBit mask low high = (r, flag) := by
    unfold laneBit at hbit
    rw [hin.keeps] at hbit
    exact hbit
  have hflag : _ → Holds w.lanes (after d w s p (p.ownBit mask low high).1) _ _ := ownBit_flag hin
  rw [hown] at hflag
  have hwords := rewrite_words (d := d) hin hread hq
  exact ⟨readsBack_iff hwords.1 hwords.2, takesBits_iff (hflag hr)⟩

end Bits

/-! ## A subgroup of one module -/

/-- A module with a mask and nothing in it yet. -/
def subgroup : Predicated where
  nextId := 10
  functions := []
  declarations := []
  constants := ∅
  mask := some { active := 1, condition := 2, lane := 3, scope := 4, ballotType := 5 }
  u32Type := 6
  boolType := 7
  declared := by simp

/-- Invocations with a mask's words in ids 8 and 9, and the constants of a lane's bit. -/
def invocations (m : BitVec 64) (lane : Nat) : Lane where
  values := fun id =>
    if id = 8 then .word (m.extractLsb' 0 32)
    else if id = 9 then .word (m.extractLsb' 32 32)
    else if id = 11 then .word 32#32
    else if id = 12 then .word 1#32
    else if id = 13 then .word 0#32
    else .undefined
  memory := fun id => if id = 3 then .word (BitVec.ofNat 32 lane) else .undefined

/-- Hardware that takes a shift's amount by its low five bits. -/
def wrapping : Device where
  overshift := fun base shift => base >>> (shift.toNat % 32)

theorem lane_mask_iff_wave64 :
    ∃ q r : Predicated, ∃ lo hi flag : Nat,
      subgroup.rewrite "exec_lo" 8 9 = .ok (q, lo, hi) ∧
      subgroup.laneBit 8 9 0 = (r, flag) ∧
      (ReadsBack .wave64 (after wrapping .wave64 (invocations 0x100000001#64) subgroup q) lo hi
          0x100000001#64 ↔ Shifts wrapping .wave64 0x100000001#64) ∧
      (TakesBits .wave64 (after wrapping .wave64 (invocations 0x100000001#64) subgroup r) flag
          0x100000001#64 ↔ Shifts wrapping .wave64 0x100000001#64) :=
  ⟨_, _, _, _, _, rfl, rfl,
    lane_mask_iff 0
      ⟨rfl, by decide +kernel, by decide +kernel, by decide +kernel, by decide, by decide⟩
      rfl (by decide +kernel) rfl (by decide +kernel)⟩

/-- Lane 32 of a wave of 64, alone in a mask, is lost by hardware that wraps shifts. -/
theorem lane32_lost :
    ∃ q r : Predicated, ∃ lo hi flag : Nat,
      subgroup.rewrite "exec_lo" 8 9 = .ok (q, lo, hi) ∧
      subgroup.laneBit 8 9 0 = (r, flag) ∧
      Inputs subgroup { active := 1, condition := 2, lane := 3, scope := 4, ballotType := 5 } 8 9
        .wave64 0x100000000#64 (invocations 0x100000000#64) ∧
      q.Declares .wave64 (invocations 0x100000000#64) ∧
      r.Declares .wave64 (invocations 0x100000000#64) ∧
      ¬ ReadsBack .wave64 (after wrapping .wave64 (invocations 0x100000000#64) subgroup q) lo hi
          0x100000000#64 ∧
      ¬ TakesBits .wave64 (after wrapping .wave64 (invocations 0x100000000#64) subgroup r) flag
          0x100000000#64 :=
  ⟨_, _, _, _, _, rfl, rfl,
    ⟨rfl, by decide +kernel, by decide +kernel, by decide +kernel, by decide, by decide⟩,
    by decide +kernel, by decide +kernel, by decide +kernel, by decide +kernel⟩

end Predicated

end Orbistoun.Translate
