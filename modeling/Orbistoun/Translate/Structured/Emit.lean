import Orbistoun.Lib.Constructs
import Orbistoun.Translate.Structured.Plan

/-! # Emitting a plan

The model of `structured.rs`'s `emit` and its `Emitter`. Ids are taken in order. What a block's own
instructions write is one word, which names labels of its own alone; a constant is its value.
-/

namespace Orbistoun.Translate.Structured

/-- `NEUTRAL`: no block's index, and not the program's end. -/
def neutral : Nat := 2 ^ 32 - 1

/-- What the emitter writes. `load` and `store` are of the program counter. -/
inductive Word where
  | label (id : Nat)
  | branch (target : Nat)
  | branchConditional (condition taken fall : Nat)
  | selectionMerge (merge : Nat)
  | loopMerge (merge cont : Nat)
  | unreachable
  | load (result : Nat)
  | store (value : Nat)
  | equal (result current value : Nat)
  | notEqual (result current value : Nat)
  | block (index : Nat)
  | condition (result source : Nat)
  | loadBudget (result : Nat)
  | increment (result before : Nat)
  | storeBudget (value : Nat)
  | overCap (result after : Nat)
  | observe (branch : Nat)
  deriving DecidableEq, Repr

/-- A construct being emitted. -/
inductive Frame where
  | loop (merge cont : Nat) (exited : Bool)
  | selection (merge : Nat)
  deriving DecidableEq, Repr

/-- The next id the builder gives, and the constructs being emitted, the innermost first. -/
structure Emission where
  next : Nat
  frames : List Frame

inductive Fault where
  | refused (e : TranslateError)
  | panics (why : String)
  deriving DecidableEq, Repr

/-- What the emitter is given. A block's instructions, the condition a block ends in and the record
of a cut loop each take ids; the condition's own id is answered too, told the next one. -/
structure Emitter where
  exit : Nat
  budgeted : Bool
  block : Nat → Except TranslateError Nat
  condition : Nat → Nat → Except TranslateError (Nat × Nat)
  observe : Nat → Nat

def refusing {α : Type} : Except TranslateError α → Except Fault α
  | .error e => .error (.refused e)
  | .ok a => .ok a

/-- Whether control runs on, what is written, and what follows. -/
abbrev Written := Except Fault (Bool × List Word × Emission)

/-! ## Jumps -/

def innermostLoop : List Frame → Option (Nat × Nat)
  | [] => none
  | .loop merge cont _ :: _ => some (merge, cont)
  | .selection _ :: rest => innermostLoop rest

def markExited : List Frame → List Frame
  | [] => []
  | .loop merge cont _ :: rest => .loop merge cont true :: rest
  | .selection merge :: rest => .selection merge :: markExited rest

namespace Emitter

variable (P : Emitter) (done : Nat)

/-- `Jump::Exit`: to the innermost loop's merge, else to the segment's end. -/
def emitExit (s : Emission) : List Word × Emission :=
  ([.store P.exit, .branch (((innermostLoop s.frames).map Prod.fst).getD done)],
    { s with frames := markExited s.frames })

/-- `count_jump`, and `note_loop_cut` for the cut it answers; the ids from `n`. -/
def countJump (branch n : Nat) : List Word :=
  [.loadBudget n, .increment (n + 1) n, .storeBudget (n + 1), .overCap (n + 2) (n + 1),
    .selectionMerge (n + 4), .branchConditional (n + 2) (n + 3) (n + 4), .label (n + 3),
    .observe branch, .branch (n + 4), .label (n + 4)]

/-- A continue's own part: with a budget, the jump is counted and the program ends past the cap. -/
def emitCount (branch : Nat) (s : Emission) : List Word × Emission :=
  if P.budgeted then
    let n := s.next
    let stop := n + 5 + P.observe branch
    let on := stop + 1
    let exit := P.emitExit done { s with next := on + 1 }
    (countJump branch n ++ ([.selectionMerge on, .branchConditional (n + 2) stop on, .label stop] ++
      exit.1 ++ [.label on]), exit.2)
  else ([], s)

def emitJump (s : Emission) : Jump → Except Fault (List Word × Emission)
  | .continues branch =>
      let counted := P.emitCount done branch s
      match innermostLoop counted.2.frames with
      | none => .error (.panics "a continue sits inside a loop")
      | some (_, cont) => .ok (counted.1 ++ [.branch cont], counted.2)
  | .breaks code next =>
      match innermostLoop s.frames with
      | none => .error (.panics "a break sits inside a loop")
      | some (merge, _) => .ok ((if next then [] else [.store code]) ++ [.branch merge], s)
  | .exit => .ok (P.emitExit done s)
  | .leave => .ok ([.branch done], s)
  | .escape code =>
      match s.frames with
      | .selection merge :: _ => .ok ([.store code, .branch merge], s)
      | _ => .error (.panics "an escape sits directly inside a selection")

/-- The routing of a loop's merge. The last route is taken whatever the counter says, where nothing
follows the loop. -/
def emitRoutes (next : Bool) : List (Nat × Jump) → Emission → Written
  | [], s => .ok (if next then (true, [], s) else (false, [.unreachable], s))
  | (code, jump) :: rest, s =>
      if rest.isEmpty && !next then do
        let last ← P.emitJump done s jump
        .ok (false, last.1, last.2)
      else do
        let n := s.next
        let after := n + 3
        let arm ← P.emitJump done ⟨n + 4, .selection after :: s.frames⟩ jump
        let others ← emitRoutes next rest { arm.2 with frames := arm.2.frames.tail }
        .ok (others.1,
          [.load n, .equal (n + 1) n code, .selectionMerge after,
            .branchConditional (n + 1) (n + 2) after, .label (n + 2)] ++ arm.1 ++
            [.label after] ++ others.2.1, others.2.2)

end Emitter

/-! ## A sequence -/

/-- The label an arm starts at, and the next id: an empty arm is its selection's merge. -/
def armLabel (arm : List Node) (merge next : Nat) : Nat × Nat :=
  if arm.isEmpty then (merge, next) else (next, next + 1)

def emitArm (empty : Bool) (label merge : Nat) (s : Emission) (body : Emission → Written) :
    Except Fault (List Word × Emission) :=
  if empty then .ok ([], s)
  else do
    let inside ← body s
    .ok (.label label :: inside.2.1 ++ (if inside.1 then [.branch merge] else []), inside.2.2)

def exitedOf : List Frame → Bool
  | .loop _ _ exited :: _ => exited
  | _ => false

def resetWords (reset : Bool) : List Word := if reset then [.store neutral] else []

namespace Emitter

variable (P : Emitter) (done : Nat)

mutual

def emitSeq : List Node → Emission → Written
  | [], s => .ok (true, [], s)
  | node :: rest, s => do
      let first ← emitNode node s
      if first.1 then
        let others ← emitSeq rest first.2.2
        .ok (others.1, first.2.1 ++ others.2.1, others.2.2)
      else .ok first

def emitNode : Node → Emission → Written
  | .block index, s => do
      let ids ← refusing (P.block index)
      .ok (true, [.block index], { s with next := s.next + ids })
  | .branch source taken fall merged reset, s => do
      let condition ← refusing (P.condition source s.next)
      let merge := s.next + condition.2
      let onTaken := armLabel taken merge (merge + 1)
      let onFall := armLabel fall merge onTaken.2
      let inside : Emission := ⟨onFall.2, .selection merge :: s.frames⟩
      let first ← emitArm taken.isEmpty onTaken.1 merge inside (emitSeq taken)
      let second ← emitArm fall.isEmpty onFall.1 merge first.2 (emitSeq fall)
      .ok (merged,
        resetWords reset ++ [.condition condition.1 source, .selectionMerge merge,
          .branchConditional condition.1 onTaken.1 onFall.1] ++ first.1 ++ second.1 ++
          [.label merge] ++ (if merged then [] else [.unreachable]),
        { second.2 with frames := second.2.frames.tail })
  | .guard code body, s => do
      let n := s.next
      let merge := n + 3
      let inside : Emission := ⟨n + 4, .selection merge :: s.frames⟩
      let held ← emitArm false (n + 2) merge inside (emitSeq body)
      .ok (true,
        [.load n, .notEqual (n + 1) n code, .selectionMerge merge,
          .branchConditional (n + 1) (n + 2) merge] ++ held.1 ++ [.label merge],
        { held.2 with frames := held.2.frames.tail })
  | .loop body routes next reset, s => do
      let header := s.next
      let start := header + 1
      let cont := header + 2
      let merge := header + 3
      let inside : Emission := ⟨header + 4, .loop merge cont false :: s.frames⟩
      let around ← emitSeq body inside
      let all := (if exitedOf around.2.2.frames then [(P.exit, .exit)] else []) ++ routes
      let routed ← P.emitRoutes done next all
        { around.2.2 with frames := around.2.2.frames.tail }
      .ok (routed.1,
        resetWords reset ++ [.branch header, .label header, .loopMerge merge cont, .branch start,
          .label start] ++ around.2.1 ++ (if around.1 then [.branch cont] else []) ++
          [.label cont, .branch header, .label merge] ++ routed.2.1, routed.2.2)
  | .select arms otherwise merged, s =>
      emitSelect arms (emitSeq otherwise) otherwise.isEmpty merged s
  | .jump jump, s => do
      let ended ← P.emitJump done s jump
      .ok (false, ended.1, ended.2)

/-- One selection inside the other, for each of the arms; `otherwise` writes what is left. -/
def emitSelect : List (Nat × List Node) → (otherwise : Emission → Written) →
    (otherwiseEmpty merged : Bool) → Emission → Written
  | [], otherwise, _, _, s => otherwise s
  | (code, arm) :: rest, otherwise, otherwiseEmpty, merged, s => do
      let n := s.next
      let merge := n + 2
      let onHit := armLabel arm merge (n + 3)
      let nothing := rest.isEmpty && otherwiseEmpty
      let onMiss := if nothing then merge else onHit.2
      let inside : Emission :=
        ⟨if nothing then onHit.2 else onHit.2 + 1, .selection merge :: s.frames⟩
      let first ← emitArm arm.isEmpty onHit.1 merge inside (emitSeq arm)
      let second ← emitArm nothing onMiss merge first.2
        (emitSelect rest otherwise otherwiseEmpty merged)
      .ok (merged,
        [.load n, .equal (n + 1) n code, .selectionMerge merge,
          .branchConditional (n + 1) onHit.1 onMiss] ++ first.1 ++ second.1 ++ [.label merge] ++
          (if merged then [] else [.unreachable]),
        { second.2 with frames := second.2.frames.tail })

end

end Emitter

/-! ## The wrapper -/

mutual

/-- Whether a node holds a jump to the program's end, at any depth. -/
def Node.exits : Node → Bool
  | .jump j => j == .exit
  | .block _ => false
  | .branch _ taken fall _ _ => seqExits taken || seqExits fall
  | .select arms otherwise _ => armsExit arms || seqExits otherwise
  | .guard _ body => seqExits body
  | .loop body _ _ _ => seqExits body

def seqExits : List Node → Bool
  | [] => false
  | node :: rest => node.exits || seqExits rest

def armsExit : List (Nat × List Node) → Bool
  | [] => false
  | (_, arm) :: rest => seqExits arm || armsExit rest

end

mutual

def Node.needsWrapper (tail budgeted : Bool) : Node → Bool
  | .jump j => (j == .exit || j == .leave) && !tail
  | .block _ => false
  | .branch _ taken fall _ _ => needsWrapper taken false budgeted || needsWrapper fall false budgeted
  | .select arms otherwise _ =>
      armsNeedWrapper arms budgeted || needsWrapper otherwise false budgeted
  | .guard _ body => needsWrapper body false budgeted
  | .loop body _ next _ => (budgeted || seqExits body) && (next || !tail)

/-- Whether a jump to the segment's end sits inside a construct of the top level. -/
def needsWrapper : List Node → (tail budgeted : Bool) → Bool
  | [], _, _ => false
  | node :: rest, tail, budgeted =>
      node.needsWrapper (tail && rest.isEmpty) budgeted || needsWrapper rest tail budgeted

def armsNeedWrapper : List (Nat × List Node) → (budgeted : Bool) → Bool
  | [], _ => false
  | (_, arm) :: rest, budgeted => needsWrapper arm false budgeted || armsNeedWrapper rest budgeted

end

/-- A segment as it is written: the label of its end, the words before and after that label, and
the next id. -/
structure Emitted where
  done : Nat
  before : List Word
  after : List Word
  next : Nat

def Emitted.words (e : Emitted) : List Word := e.before ++ .label e.done :: e.after

/-- The selection around a segment that is not the program's first, and the next id. -/
def Emitter.emitSkip (P : Emitter) (first : Bool) (n : Nat) : List Word × Nat :=
  if first then ([], n)
  else
    ([.load n, .notEqual (n + 1) n P.exit, .selectionMerge (n + 3),
      .branchConditional (n + 1) (n + 2) (n + 3), .label (n + 2)], n + 4)

def Emitter.emit (P : Emitter) (plan : Plan) (first : Bool) (n : Nat) : Except Fault Emitted := do
  let skip := P.emitSkip first n
  let done := skip.2
  let wrapped := needsWrapper plan.seq true P.budgeted
  let header := done + 1
  let cont := done + 3
  let opening : List Word :=
    if wrapped then
      [.branch header, .label header, .loopMerge done cont, .branch (done + 2), .label (done + 2)]
    else []
  let body ← P.emitSeq done plan.seq ⟨if wrapped then done + 4 else done + 1, []⟩
  let closing : List Word := if wrapped then [.label cont, .branch header] else []
  .ok ⟨done, skip.1 ++ opening ++ body.2.1 ++ (if body.1 then [.branch done] else []) ++ closing,
    if first then [] else [.branch (n + 3), .label (n + 3)], body.2.2.next⟩

end Orbistoun.Translate.Structured
