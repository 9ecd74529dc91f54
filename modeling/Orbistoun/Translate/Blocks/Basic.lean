import Mathlib.Data.List.Basic
import Mathlib.Tactic
import Std.Data.TreeSet
import Std.Data.TreeMap

/-! # Splitting a decoded shader into basic blocks

The model of `blocks.rs`, and of what `control.rs` reads of a block: which
instructions its arm leaves out and which block its terminator goes to. Offsets and
lengths are the decoder's `u32`s; `Decode` carries what its walk gives every list,
so that no sum of them wraps.
-/

namespace Orbistoun.Translate

inductive Operand where
  | scalar (n : Nat)
  | vector (n : Nat)
  | named (name : String)
  | integer (v : Int)
  | literal (v : Nat)
  | immediate (v : Int)
  | unrecognised (code : Nat)
  deriving DecidableEq, Repr

structure Instruction where
  offset : Nat
  length : Nat
  word : Nat
  encoding : Option Nat
  opcode : Nat
  operands : List Operand
  deriving DecidableEq, Repr, Inhabited

/-- Instructions laid end to end from `start`, as the decoder's walk leaves them. -/
def Laid (start : Nat) : List Instruction → Prop
  | [] => True
  | i :: rest =>
      i.offset = start ∧ 0 < i.length ∧ start + i.length < 2 ^ 32 ∧ Laid (start + i.length) rest

instance Laid.decidable : (start : Nat) → (l : List Instruction) → Decidable (Laid start l)
  | _, [] => inferInstanceAs (Decidable True)
  | start, i :: rest =>
      have := Laid.decidable (start + i.length) rest
      inferInstanceAs (Decidable (_ ∧ _ ∧ _ ∧ _))

structure Decode where
  instructions : List Instruction
  laid : Laid 0 instructions

inductive TranslateError where
  | unsupported (offset : Nat) (detail : String)
  | notTranslated (offset : Nat) (mnemonic detail : String)
  deriving DecidableEq, Repr

inductive Terminator where
  | ended
  | jump (target : Nat)
  | branch (target fallthrough : Nat)
  | fallthrough (next : Nat)
  deriving DecidableEq, Repr

structure Block where
  start : Nat
  first : Nat
  stop : Nat
  terminator : Terminator
  deriving DecidableEq, Repr

inductive Condition where
  | always
  | scalarConditionClear
  | scalarConditionSet
  | conditionMaskZero
  | conditionMaskNonZero
  | executionMaskZero
  | executionMaskNonZero
  deriving DecidableEq, Repr

def barrier : Nat := 10

def endpgm : Nat := 1

def branches : List (Nat × Condition) :=
  [(2, .always), (4, .scalarConditionClear), (5, .scalarConditionSet), (6, .conditionMaskZero),
    (7, .conditionMaskNonZero), (8, .executionMaskZero), (9, .executionMaskNonZero)]

def isBarrier (i : Instruction) (family : String) : Bool :=
  family == "SOPP" && i.opcode == barrier

def branchCondition (i : Instruction) (family : String) : Option Condition :=
  if family != "SOPP" then none
  else (branches.find? (fun b => b.1 == i.opcode)).map (·.2)

def signExtend16 (raw : Int) : Int :=
  let low := raw % 65536
  if low < 32768 then low else Int.bmod raw 65536

def branchTarget (i : Instruction) : Except TranslateError Nat :=
  match i.operands.head? with
  | some (.immediate raw) =>
      let after : Int := i.offset + i.length
      let target := after + signExtend16 raw * 4
      if 0 ≤ target ∧ target < 2 ^ 32 then .ok target.toNat
      else .error (.unsupported i.offset "a branch target falls outside the shader")
  | _ =>
      .error (.unsupported i.offset
        ("a branch carries no target - the operand layout for this opcode is " ++
          "missing, so where it goes is not known"))

/-! ## Where blocks start -/

section Split

variable (familyOf : Instruction → Option String)

def conditionOf (i : Instruction) : Option Condition := familyOf i >>= branchCondition i

def isEnd (i : Instruction) : Bool := familyOf i == some "SOPP" && i.opcode == endpgm

def indexOf (l : List Instruction) : Std.TreeMap Nat Nat :=
  l.zipIdx.foldl (fun m p => m.insert p.1.offset p.2) ∅

/-- `{:#x}`. -/
def hex (n : Nat) : String := "0x" ++ String.ofList (Nat.toDigits 16 n)

/-- `{:#010x}`. -/
def hex8 (n : Nat) : String :=
  let digits := Nat.toDigits 16 n
  "0x" ++ String.ofList (List.replicate (8 - digits.length) '0' ++ digits)

def inside (l : List Instruction) (target : Nat) : String :=
  match (l.takeWhile (fun i => i.offset < target)).getLast? with
  | none => ""
  | some i =>
      ", inside " ++ (familyOf i).getD "" ++ " opcode " ++ toString i.opcode ++ " at " ++
        hex i.offset ++ " (first word " ++ hex8 i.word ++ ") read as " ++ toString i.length ++ " bytes"

def leaders (l : List Instruction) (atBarriers : Bool) (i : Instruction) (n : Nat) :
    Except TranslateError (List Nat) :=
  let next := if n + 1 < l.length then [n + 1] else []
  match familyOf i with
  | none => .ok []
  | some family =>
      if atBarriers && isBarrier i family then .ok next
      else if (branchCondition i family).isNone then .ok []
      else do
        let target ← branchTarget i
        match (indexOf l)[target]? with
        | none =>
            .error (.notTranslated i.offset ("a branch to " ++ hex target ++ inside familyOf l target)
              ("the target is not the start of any instruction - the stream is not " ++
                "what it appears to be, and moving the target to a nearby boundary " ++
                "would run a program the guest did not write"))
        | some at_ => .ok (at_ :: next)

def starts (l : List Instruction) (atBarriers : Bool) : Except TranslateError (Std.TreeSet Nat) :=
  l.zipIdx.foldlM (fun s p => do
    let new ← leaders familyOf l atBarriers p.1 p.2
    return new.foldl (·.insert ·) s) (Std.TreeSet.empty.insert 0)

def terminatorAt (l : List Instruction) (stop : Nat) : Except TranslateError Terminator :=
  let final := l.getD (stop - 1) default
  match conditionOf familyOf final with
  | some .always => do return .jump (← branchTarget final)
  | some _ => do return .branch (← branchTarget final) (final.offset + final.length)
  | none =>
      if isEnd familyOf final then .ok .ended
      -- Runs off the end with no terminator: treated as ending.
      else if stop = l.length then .ok .ended
      else .ok (.fallthrough (final.offset + final.length))

/-- One block from each boundary up to the next, the last up to the end of the list. -/
def cut (l : List Instruction) : List Nat → Except TranslateError (List Block)
  | [] => .ok []
  | first :: rest => do
      let stop := rest.head?.getD l.length
      let terminator ← terminatorAt familyOf l stop
      let blocks ← cut l rest
      return ⟨(l.getD first default).offset, first, stop, terminator⟩ :: blocks

def splitAtBarriers (d : Decode) (atBarriers : Bool) : Except TranslateError (List Block) :=
  if d.instructions.isEmpty then .ok []
  else do
    let boundaries ← starts familyOf d.instructions atBarriers
    cut familyOf d.instructions boundaries.toList

def blockAt (blocks : List Block) (offset : Nat) : Option Nat :=
  blocks.findIdx? (fun b => b.start == offset)

/-! ## What the dispatch loop reads of a block -/

def isTerminator (i : Instruction) : Bool := (conditionOf familyOf i).isSome || isEnd familyOf i

/-- Where a block's terminator can leave for, as counter values. -/
inductive Successor where
  | always (counter : Nat)
  | select (taken notTaken : Nat)
  deriving DecidableEq, Repr

def successor (block : Block) (all : List Block) : Except TranslateError Successor :=
  let indexOf (offset : Nat) : Except TranslateError Nat :=
    match blockAt all offset with
    | some n => .ok n
    | none => .error (.unsupported block.start "a successor is not the start of any block")
  match block.terminator with
  | .ended => .ok (.always all.length)
  | .jump target | .fallthrough target => do return .always (← indexOf target)
  | .branch target fallthrough => do return .select (← indexOf target) (← indexOf fallthrough)

end Split

end Orbistoun.Translate
