import Mathlib.Tactic

/-! # Straight-line SPIR-V over a subgroup

The instructions of one block, executed by the invocations of a subgroup in step. Ids are
numbers, and a result is an id's value in each invocation; a ballot reads the same id in all of
them. Where SPIR-V leaves a value undefined the device says what it is, or nothing does.
-/

namespace Orbistoun.Lib.Spirv

inductive Value where
  | undefined
  | word (w : BitVec 32)
  | flag (b : Bool)
  | words (l : List (BitVec 32))
  deriving DecidableEq, Repr

/-- What an instruction with a result computes. -/
inductive Operation where
  | load (pointer : Nat)
  | uLessThan (a b : Nat)
  | iSub (a b : Nat)
  | select (condition a b : Nat)
  | shiftRightLogical (base shift : Nat)
  | bitwiseAnd (a b : Nat)
  | iNotEqual (a b : Nat)
  | groupNonUniformBallot (scope predicate : Nat)
  | compositeExtract (composite index : Nat)
  deriving DecidableEq, Repr

inductive Instr where
  | assign (type result : Nat) (o : Operation)
  | store (pointer value : Nat)
  deriving DecidableEq, Repr

/-- One invocation: the values of its ids and what its variables hold. -/
structure Lane where
  values : Nat → Value
  memory : Nat → Value

/-- What a device makes of a shift by the word's width or more. -/
structure Device where
  overshift : BitVec 32 → BitVec 32 → BitVec 32

def Device.shift (d : Device) (base shift : BitVec 32) : BitVec 32 :=
  if shift.toNat < 32 then base >>> shift.toNat else d.overshift base shift

def wordOf (bits : Nat → Bool) : BitVec 32 :=
  (BitVec.ofBoolListLE ((List.range 32).map bits)).setWidth 32

theorem getLsbD_wordOf (bits : Nat → Bool) (i : Nat) :
    (wordOf bits).getLsbD i = (decide (i < 32) && bits i) := by
  rw [wordOf, BitVec.getLsbD_setWidth, BitVec.getLsbD_ofBoolListLE, List.getD_eq_getElem?_getD,
    List.getElem?_map]
  by_cases hi : i < 32
  · rw [List.getElem?_range hi]
    rfl
  · rw [decide_eq_false hi]
    rfl

/-- The four words a ballot answers with: bit `i` is the flag of invocation `i`. -/
def ballot (width : Nat) (flags : Nat → Bool) : List (BitVec 32) :=
  (List.range 4).map (fun k =>
    wordOf (fun i => decide (32 * k + i < width) && flags (32 * k + i)))

def Value.isSet : Value → Bool
  | .flag b => b
  | _ => false

/-- What an operation gives in invocation `lane` of a subgroup. -/
def Operation.eval (d : Device) (width : Nat) (s : Nat → Lane) (lane : Nat) : Operation → Value
  | .load pointer => (s lane).memory pointer
  | .uLessThan a b =>
      match (s lane).values a, (s lane).values b with
      | .word x, .word y => .flag (x.ult y)
      | _, _ => .undefined
  | .iSub a b =>
      match (s lane).values a, (s lane).values b with
      | .word x, .word y => .word (x - y)
      | _, _ => .undefined
  | .select condition a b =>
      match (s lane).values condition with
      | .flag c => if c then (s lane).values a else (s lane).values b
      | _ => .undefined
  | .shiftRightLogical base shift =>
      match (s lane).values base, (s lane).values shift with
      | .word x, .word y => .word (d.shift x y)
      | _, _ => .undefined
  | .bitwiseAnd a b =>
      match (s lane).values a, (s lane).values b with
      | .word x, .word y => .word (x &&& y)
      | _, _ => .undefined
  | .iNotEqual a b =>
      match (s lane).values a, (s lane).values b with
      | .word x, .word y => .flag (x != y)
      | _, _ => .undefined
  | .groupNonUniformBallot _ predicate =>
      .words (ballot width (fun i => ((s i).values predicate).isSet))
  | .compositeExtract composite index =>
      match (s lane).values composite with
      | .words l => (l[index]?).elim .undefined .word
      | _ => .undefined

def step (d : Device) (width : Nat) (s : Nat → Lane) : Instr → Nat → Lane
  | .assign _ result o => fun lane =>
      { s lane with values := Function.update (s lane).values result (o.eval d width s lane) }
  | .store pointer value => fun lane =>
      { s lane with memory := Function.update (s lane).memory pointer ((s lane).values value) }

/-- The invocations after a block of instructions. -/
def exec (d : Device) (width : Nat) (s : Nat → Lane) (code : List Instr) : Nat → Lane :=
  code.foldl (step d width) s

section Exec

variable {d : Device} {width : Nat} {s : Nat → Lane} {lane : Nat}

@[simp] theorem exec_nil : exec d width s [] = s := rfl

@[simp] theorem exec_cons (i : Instr) (code : List Instr) :
    exec d width s (i :: code) = exec d width (step d width s i) code := rfl

theorem exec_append (code code' : List Instr) :
    exec d width s (code ++ code') = exec d width (exec d width s code) code' :=
  List.foldl_append

@[simp] theorem step_assign_self (type result : Nat) (o : Operation) :
    (step d width s (.assign type result o) lane).values result = o.eval d width s lane := by
  simp [step]

@[simp] theorem step_assign_memory (type result : Nat) (o : Operation) :
    (step d width s (.assign type result o) lane).memory = (s lane).memory := rfl

theorem step_assign_of_ne {type result id : Nat} {o : Operation} (h : id ≠ result) :
    (step d width s (.assign type result o) lane).values id = (s lane).values id := by
  simp [step, h]

def Instr.result? : Instr → Option Nat
  | .assign _ result _ => some result
  | .store _ _ => none

@[simp] theorem step_store_values (pointer value : Nat) :
    (step d width s (.store pointer value) lane).values = (s lane).values := rfl

@[simp] theorem step_store_self (pointer value : Nat) :
    (step d width s (.store pointer value) lane).memory pointer = (s lane).values value := by
  simp [step]

/-- An id no instruction of a block assigns keeps its value over the block. -/
theorem exec_values_of_ne {id : Nat} (code : List Instr) (h : ∀ i ∈ code, i.result? ≠ some id) :
    (exec d width s code lane).values id = (s lane).values id := by
  induction code generalizing s with
  | nil => rfl
  | cons i code ih =>
    rw [exec_cons, ih (fun j hj => h j (List.mem_cons_of_mem i hj))]
    have hi := h i List.mem_cons_self
    cases i with
    | assign type result o => exact step_assign_of_ne (fun heq => hi (congrArg some heq.symm))
    | store pointer value => rfl

theorem exec_take_succ {code : List Instr} {k : Nat} {i : Instr} (h : code[k]? = some i) :
    exec d width s (code.take (k + 1)) = step d width (exec d width s (code.take k)) i := by
  rw [List.take_succ, h, exec_append]
  rfl

end Exec

def Numbered (n : Nat) (code : List Instr) : Prop :=
  ∀ k i, code[k]? = some i → i.result? = some (n + k)

/-! ## Values in step -/

/-- An id has a value in every invocation of the subgroup. -/
def Holds (width : Nat) (s : Nat → Lane) (id : Nat) (f : Nat → Value) : Prop :=
  ∀ lane, lane < width → (s lane).values id = f lane

instance (width : Nat) (s : Nat → Lane) (id : Nat) (f : Nat → Value) :
    Decidable (Holds width s id f) :=
  inferInstanceAs (Decidable (∀ lane, lane < width → (s lane).values id = f lane))

section Holds

variable {d : Device} {width : Nat} {s : Nat → Lane} {type result id a b c : Nat}

theorem Holds.unique {f g : Nat → Value} (hf : Holds width s id f) :
    Holds width s id g ↔ ∀ lane, lane < width → f lane = g lane := by
  constructor
  · intro hg lane hlane
    rw [← hf lane hlane, hg lane hlane]
  · intro heq lane hlane
    rw [hf lane hlane, heq lane hlane]

theorem Holds.assign_of_ne {f : Nat → Value} (h : Holds width s id f) (o : Operation)
    (hne : id ≠ result) : Holds width (step d width s (.assign type result o)) id f := by
  intro lane hlane
  rw [step_assign_of_ne hne]
  exact h lane hlane

theorem Holds.exec {f : Nat → Value} (h : Holds width s id f) (code : List Instr)
    (hcode : ∀ i ∈ code, i.result? ≠ some id) : Holds width (Spirv.exec d width s code) id f := by
  intro lane hlane
  rw [exec_values_of_ne code hcode]
  exact h lane hlane

/-- In a block with numbered results, a value stays once its number has passed. -/
theorem Holds.later {f : Nat → Value} {n j k : Nat} {code : List Instr} (hcode : Numbered n code)
    (hjk : j ≤ k) (hid : id < n + j) (h : Holds width (Spirv.exec d width s (code.take j)) id f) :
    Holds width (Spirv.exec d width s (code.take k)) id f := by
  obtain ⟨m, rfl⟩ := Nat.exists_eq_add_of_le hjk
  rw [List.take_add, exec_append]
  apply h.exec
  intro i hi heq
  obtain ⟨r, hr⟩ := List.mem_iff_getElem?.mp (List.mem_of_mem_take hi)
  rw [List.getElem?_drop] at hr
  rw [hcode _ i hr] at heq
  cases heq
  omega

variable {x y : Nat → BitVec 32} {p : Nat → Bool}

theorem Holds.uLessThan (ha : Holds width s a (fun lane => .word (x lane)))
    (hb : Holds width s b (fun lane => .word (y lane))) :
    Holds width (step d width s (.assign type result (.uLessThan a b))) result
      (fun lane => .flag ((x lane).ult (y lane))) := by
  intro lane hlane
  rw [step_assign_self, Operation.eval, ha lane hlane, hb lane hlane]

theorem Holds.iSub (ha : Holds width s a (fun lane => .word (x lane)))
    (hb : Holds width s b (fun lane => .word (y lane))) :
    Holds width (step d width s (.assign type result (.iSub a b))) result
      (fun lane => .word (x lane - y lane)) := by
  intro lane hlane
  rw [step_assign_self, Operation.eval, ha lane hlane, hb lane hlane]

theorem Holds.select (hc : Holds width s c (fun lane => .flag (p lane)))
    (ha : Holds width s a (fun lane => .word (x lane)))
    (hb : Holds width s b (fun lane => .word (y lane))) :
    Holds width (step d width s (.assign type result (.select c a b))) result
      (fun lane => .word (if p lane then x lane else y lane)) := by
  intro lane hlane
  rw [step_assign_self, Operation.eval, hc lane hlane, ha lane hlane, hb lane hlane]
  dsimp only
  split <;> rfl

theorem Holds.shiftRightLogical (ha : Holds width s a (fun lane => .word (x lane)))
    (hb : Holds width s b (fun lane => .word (y lane))) :
    Holds width (step d width s (.assign type result (.shiftRightLogical a b))) result
      (fun lane => .word (d.shift (x lane) (y lane))) := by
  intro lane hlane
  rw [step_assign_self, Operation.eval, ha lane hlane, hb lane hlane]

theorem Holds.bitwiseAnd (ha : Holds width s a (fun lane => .word (x lane)))
    (hb : Holds width s b (fun lane => .word (y lane))) :
    Holds width (step d width s (.assign type result (.bitwiseAnd a b))) result
      (fun lane => .word (x lane &&& y lane)) := by
  intro lane hlane
  rw [step_assign_self, Operation.eval, ha lane hlane, hb lane hlane]

theorem Holds.iNotEqual (ha : Holds width s a (fun lane => .word (x lane)))
    (hb : Holds width s b (fun lane => .word (y lane))) :
    Holds width (step d width s (.assign type result (.iNotEqual a b))) result
      (fun lane => .flag (x lane != y lane)) := by
  intro lane hlane
  rw [step_assign_self, Operation.eval, ha lane hlane, hb lane hlane]

theorem Holds.load {pointer : Nat} {f : Nat → Value}
    (h : ∀ lane, lane < width → (s lane).memory pointer = f lane) :
    Holds width (step d width s (.assign type result (.load pointer))) result f := by
  intro lane hlane
  rw [step_assign_self, Operation.eval, h lane hlane]

theorem Holds.ballot {scope : Nat} (h : Holds width s a (fun lane => .flag (p lane))) :
    Holds width (step d width s (.assign type result (.groupNonUniformBallot scope a))) result
      (fun _ => .words (Spirv.ballot width p)) := by
  intro lane hlane
  rw [step_assign_self, Operation.eval]
  congr 1
  apply List.map_congr_left
  intro k hk
  congr 1
  funext i
  dsimp only
  by_cases hi : 32 * k + i < width
  · rw [h _ hi]
    rfl
  · rw [decide_eq_false hi]
    rfl

theorem Holds.compositeExtract {l : List (BitVec 32)} {index : Nat} {w : BitVec 32}
    (h : Holds width s a (fun _ => .words l)) (hw : l[index]? = some w) :
    Holds width (step d width s (.assign type result (.compositeExtract a index))) result
      (fun _ => .word w) := by
  intro lane hlane
  rw [step_assign_self, Operation.eval, h lane hlane]
  dsimp only
  rw [hw]
  rfl

end Holds

end Orbistoun.Lib.Spirv
