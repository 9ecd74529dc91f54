import Orbistoun.Translate.Blocks.Basic
import Orbistoun.Translate.Structured.Flow

/-! # A segment's plan

The model of how `structured.rs` lays a segment's blocks out as selections and loops: `region` and
what it calls, `guard_after`, and `shape`. The recursion is given its turns, and a plan is what it
comes to with any number of them.
-/

namespace Orbistoun.Translate.Structured

inductive Jump where
  | continues (branch : Nat)
  | breaks (code : Nat) (next : Bool)
  | exit
  | leave
  | escape (code : Nat)
  deriving DecidableEq, Repr

/-- One element of a structured sequence. -/
inductive Node where
  | block (index : Nat)
  | branch (source : Nat) (taken fall : List Node) (merged reset : Bool)
  | guard (code : Nat) (body : List Node)
  | loop (body : List Node) (routes : List (Nat × Jump)) (next reset : Bool)
  | select (arms : List (Nat × List Node)) (otherwise : List Node) (merged : Bool)
  | jump (j : Jump)
  deriving Repr

/-- Where a target falls, seen from inside a region. -/
inductive Class where
  | stop
  | inRegion (v : Nat)
  | jump (j : Jump)
  deriving DecidableEq, Repr

/-- Why there is no plan: a jump that does not nest, or what the source says. `stuck` is turns run
out, or where the source would panic. -/
inductive Refusal where
  | stuck
  | nests
  | because (why : String)
  deriving DecidableEq, Repr

/-- What is known of a segment's shape before its blocks are placed. -/
structure Shaper where
  base : Nat
  flow : Flow
  branchAt : Nat → Nat
  dominators : Flow.Dominators
  post : Flow.Dominators.PostDominators

/-- The blocks placed so far, and for each loop being placed the block its merge runs on into. -/
structure Placing where
  placed : Nat → Nat
  nextOf : Nat → Option Nat

def Placing.start : Placing := ⟨fun _ => 0, fun _ => none⟩

def orElse {α : Type} (refusal : Refusal) : Option α → Except Refusal α
  | none => .error refusal
  | some a => .ok a

namespace Shaper

variable (sh : Shaper)

def len : Nat := sh.flow.len

/-- `u32::try_from(self.base + v)`. -/
def codeOf (v : Nat) : Option Nat := if sh.base + v < 2 ^ 32 then some (sh.base + v) else none

def forward (context : Option Nat) (node : Nat) : List Nat :=
  (sh.flow.nodeSuccessors node).filter (fun target =>
    (match context with
    | none => true
    | some h => target != h && sh.dominators.inBody h target) &&
    !sh.dominators.isBackEdge sh.flow node target)

/-- Turns enough to look at every edge once. -/
def searchTurns : Nat :=
  ((List.range sh.len).map (fun v => (sh.flow.nodeSuccessors v).length)).sum + 1

def reachesFuel (next : Nat → List Nat) (target : Nat) : Nat → List Nat → (Nat → Bool) → Bool
  | fuel + 1, node :: work, seen =>
      if node = target then true
      else if seen node then reachesFuel next target fuel work seen
      else
        reachesFuel next target fuel ((next node).reverse ++ work) (Function.update seen node true)
  | _, _, _ => false

def reaches (source target : Nat) (context : Option Nat) : Bool :=
  reachesFuel (sh.forward context) target sh.searchTurns [source] (fun _ => false)

def classify (nextOf : Nat → Option Nat) (escapes : List Nat) (target : To)
    (context stop : Option Nat) (branch : Nat) : Option Class :=
  match target with
  | .ended => some (.jump .exit)
  | .leave => if context.isNone then some (.jump .leave) else none
  | .node v =>
      if some v = stop then some .stop
      else
        match context with
        | none =>
            if escapes.contains v then (sh.codeOf v).map (fun code => .jump (.escape code))
            else some (.inRegion v)
        | some header =>
            if v = header then some (.jump (.continues branch))
            else if !sh.dominators.inBody header v then
              (sh.codeOf v).map (fun code => .jump (.breaks code (nextOf header == some v)))
            else if escapes.contains v then (sh.codeOf v).map (fun code => .jump (.escape code))
            else some (.inRegion v)

def place (s : Placing) (node : Nat) : Except Refusal Placing :=
  let times := s.placed node + 1
  if times = 1 then .ok { s with placed := Function.update s.placed node times }
  else
    .error (.because ("block " ++ toString (sh.base + node) ++ " is reached from two places"))

/-- Where a branch merges inside its region. `m` is the immediate post-dominator of the place in the
acyclic graph whose paths start at `sources`. -/
def mergeFrom (s : Placing) (escapes : List Nat) (m : Option Nat) (sources : List Nat)
    (context stop : Option Nat) : Option Nat :=
  let reachesStop := match stop with
    | none => false
    | some t => sources.any (fun source => sh.reaches source t context)
  let inside := m.filter (fun m => m < sh.len &&
    (match sh.classify s.nextOf escapes (.node m) context stop 0 with
    | some (.inRegion _) | some .stop => true
    | _ => false))
  match inside with
  | some m =>
      match stop with
      | some t =>
          if m ≠ t && sh.reaches t m context then if reachesStop then some t else none else some m
      | none => some m
  | none => if reachesStop then stop else none

def mergeOf (s : Placing) (escapes : List Nat) (node : Nat) (context stop : Option Nat) :
    Option Nat :=
  sh.mergeFrom s escapes (sh.post.ipdom node) [node] context stop

def spread (next : Nat → List Nat) : Nat → List Nat → (Nat → Bool) → Nat → Bool
  | fuel + 1, node :: work, seen =>
      if seen node then spread next fuel work seen
      else spread next fuel ((next node).reverse ++ work) (Function.update seen node true)
  | _, _, seen => seen

/-- What an arm of a branch reaches inside its region without passing `merge`. -/
def reach (s : Placing) (escapes : List Nat) (target : To) (merge context stop : Option Nat) :
    Nat → Bool :=
  match sh.classify s.nextOf escapes target context stop 0 with
  | some (.inRegion v) =>
      if some v = merge then fun _ => false
      else
        let next := fun node => (sh.forward context node).filter (fun target =>
          decide (some target ≠ stop) && decide (some target ≠ merge) && !escapes.contains target)
        spread next sh.searchTurns [v] (fun _ => false)
  | _ => fun _ => false

/-- The first block, in reverse postorder, that both of a branch's arms reach. -/
def joinOf (s : Placing) (escapes : List Nat) (taken fall : To) (merge context stop : Option Nat) :
    Option Nat :=
  let a := sh.reach s escapes taken merge context stop
  let b := sh.reach s escapes fall merge context stop
  ((List.range sh.len).filter (fun v => a v && b v)).foldl
    (fun best v =>
      match best with
      | none => some v
      | some w => if sh.flow.rpoIndex v < sh.flow.rpoIndex w then some v else some w) none

/-- The edges that leave a header's loop, with the blocks they leave from. -/
def leaving (header : Nat) : List (Nat × Nat) :=
  ((List.range sh.len).filter (fun node =>
    sh.flow.reachable node && sh.dominators.inBody header node)).flatMap (fun node =>
      ((sh.flow.nodeSuccessors node).filter (fun v => !sh.dominators.inBody header v)).map
        (fun v => (node, v)))

/-- A loop's exits as its region sees them: the region's blocks it leaves for, and the jumps its
merge routes. -/
abbrev Exits := List Nat × List (Nat × Jump)

def exitOne (s : Placing) (escapes : List Nat) (context stop : Option Nat) (exits : Exits)
    (edge : Nat × Nat) : Option Exits :=
  match sh.classify s.nextOf escapes (.node edge.2) context stop (sh.branchAt edge.1) with
  | none => none
  | some .stop | some (.inRegion _) =>
      some (if exits.1.contains edge.2 then exits else (exits.1 ++ [edge.2], exits.2))
  | some (.jump jump) =>
      (sh.codeOf edge.2).map (fun code =>
        if exits.2.any (fun route => route.1 == code) then exits
        else (exits.1, exits.2 ++ [(code, jump)]))

def exits (s : Placing) (escapes : List Nat) (header : Nat) (context stop : Option Nat) :
    Option Exits :=
  (sh.leaving header).foldlM (sh.exitOne s escapes context stop) ([], [])

end Shaper

/-! ## Guards -/

mutual

def Node.escapesTo (code : Nat) : Node → Bool
  | .jump j => j == .escape code
  | .block _ => false
  | .branch _ taken fall _ _ => seqEscapesTo code taken || seqEscapesTo code fall
  | .select arms otherwise _ => armsEscapeTo code arms || seqEscapesTo code otherwise
  | .guard _ body => seqEscapesTo code body
  | .loop _ routes _ _ => routes.any (fun route => route.2 == .escape code)

def seqEscapesTo (code : Nat) : List Node → Bool
  | [] => false
  | node :: rest => node.escapesTo code || seqEscapesTo code rest

def armsEscapeTo (code : Nat) : List (Nat × List Node) → Bool
  | [] => false
  | (_, arm) :: rest => seqEscapesTo code arm || armsEscapeTo code rest

end

mutual

def Node.guarded (code : Nat) : Node → Node
  | .branch source taken fall merged reset =>
      .branch source (guardAfter code taken) (guardAfter code fall) merged reset
  | .select arms otherwise merged =>
      .select (armsGuarded code arms) (guardAfter code otherwise) merged
  | .guard own body => .guard own (guardAfter code body)
  | .block index => .block index
  | .loop body routes next reset => .loop body routes next reset
  | .jump j => .jump j

/-- What follows each element that may escape to the block `code` indexes is held under a guard for
it. -/
def guardAfter (code : Nat) : List Node → List Node
  | [] => []
  | node :: rest =>
      let node' := node.guarded code
      if node'.escapesTo code then
        node' :: (if rest.isEmpty then [] else [.guard code (guardAfter code rest)])
      else node' :: guardAfter code rest

def armsGuarded (code : Nat) : List (Nat × List Node) → List (Nat × List Node)
  | [] => []
  | (c, arm) :: rest => (c, guardAfter code arm) :: armsGuarded code rest

end

/-! ## Regions -/

namespace Shaper

variable (sh : Shaper)

mutual

/-- The structure from `current` until control reaches `stop`, after `seq`. -/
def region : Nat → Placing → List Nat → Nat → (stop context : Option Nat) → List Node →
    Except Refusal (List Node × Placing)
  | 0, _, _, _, _, _, _ => .error .stuck
  | fuel + 1, s, escapes, current, stop, context, seq => do
      let placed ←
        if sh.dominators.isHeader current && decide (context ≠ some current) then
          placeLoop fuel s escapes current context stop seq
        else placeBlock fuel s escapes current context stop seq
      match placed.1 with
      | none => .ok placed.2
      | some next =>
          if some next = stop then .ok placed.2
          else region fuel placed.2.2 escapes next stop context placed.2.1

/-- Places a loop and what its merge chooses among; answers the block run on into after it, if
any. -/
def placeLoop : Nat → Placing → List Nat → Nat → (context stop : Option Nat) → List Node →
    Except Refusal (Option Nat × List Node × Placing)
  | 0, _, _, _, _, _, _ => .error .stuck
  | fuel + 1, s, escapes, header, context, stop, seq => do
      let exits ← orElse .nests (sh.exits s escapes header context stop)
      let locals := exits.1
      let routes := exits.2
      let next := locals.min?
      let inside : Placing := { s with nextOf := Function.update s.nextOf header next }
      let body ← region fuel inside escapes header none (some header) []
      let reset := (!routes.isEmpty && (next.isSome || decide (1 < routes.length))) ||
        decide (1 < locals.length)
      let seq := seq ++ [.loop body.1 routes next.isSome reset]
      if locals.length < 2 then .ok (next, seq, body.2)
      else
        let node := (sh.post.loopNode header).bind sh.post.ipdom
        let merge := sh.mergeFrom body.2 escapes node locals context stop
        let others := locals.filter (fun v => decide (some v ≠ next))
        let arms ← armsOf fuel body.2 escapes others merge context
        let target ← orElse .nests next
        let otherwise ← arm fuel arms.2 escapes (.node target) merge context 0
        .ok (merge, seq ++ [.select arms.1 otherwise.1 merge.isSome], otherwise.2)

def armsOf : Nat → Placing → List Nat → List Nat → (merge context : Option Nat) →
    Except Refusal (List (Nat × List Node) × Placing)
  | 0, _, _, _, _, _ => .error .stuck
  | _ + 1, s, _, [], _, _ => .ok ([], s)
  | fuel + 1, s, escapes, v :: rest, merge, context => do
      let code ← orElse .nests (sh.codeOf v)
      let first ← arm fuel s escapes (.node v) merge context 0
      let others ← armsOf fuel first.2 escapes rest merge context
      .ok ((code, first.1) :: others.1, others.2)

/-- Places a block and how it ends; answers the block run on into after it, if any. -/
def placeBlock : Nat → Placing → List Nat → Nat → (context stop : Option Nat) → List Node →
    Except Refusal (Option Nat × List Node × Placing)
  | 0, _, _, _, _, _, _ => .error .stuck
  | fuel + 1, s, escapes, node, context, stop, seq => do
      let s ← sh.place s node
      let seq := seq ++ [.block (sh.base + node)]
      match sh.flow.ends[node]? with
      | none => .error .nests
      | some (.goto target) =>
          match sh.classify s.nextOf escapes target context stop (sh.branchAt node) with
          | none => .error .nests
          | some .stop => .ok (none, seq, s)
          | some (.jump jump) => .ok (none, seq ++ [.jump jump], s)
          | some (.inRegion v) => .ok (some v, seq, s)
      | some (.branch taken fall) => placeBranch fuel s escapes node taken fall context stop seq

def placeBranch : Nat → Placing → List Nat → Nat → To → To → (context stop : Option Nat) →
    List Node → Except Refusal (Option Nat × List Node × Placing)
  | 0, _, _, _, _, _, _, _, _ => .error .stuck
  | fuel + 1, s, escapes, node, taken, fall, context, stop, seq =>
      let offset := sh.branchAt node
      let merge := sh.mergeOf s escapes node context stop
      let join := (sh.joinOf s escapes taken fall merge context stop).filter
        (fun join => decide (some join ≠ merge))
      match join with
      | none => do
          let taken ← arm fuel s escapes taken merge context offset
          let fall ← arm fuel taken.2 escapes fall merge context offset
          .ok (merge, seq ++ [.branch (sh.base + node) taken.1 fall.1 merge.isSome false], fall.2)
      | some join => do
          -- The arms may escape past where they join.
          let within := merge.toList ++ escapes
          let taken ← arm fuel s within taken (some join) context offset
          let fall ← arm fuel taken.2 within fall (some join) context offset
          match merge with
          | none =>
              .ok (some join, seq ++ [.branch (sh.base + node) taken.1 fall.1 true false], fall.2)
          | some target =>
              let code ← orElse .nests (sh.codeOf target)
              let selection := Node.branch (sh.base + node) (guardAfter code taken.1)
                (guardAfter code fall.1) true true
              let body ← region fuel fall.2 escapes join (some target) context []
              .ok (some target, seq ++ [selection, .guard code body.1], body.2)

def arm : Nat → Placing → List Nat → To → (merge context : Option Nat) → Nat →
    Except Refusal (List Node × Placing)
  | 0, _, _, _, _, _, _ => .error .stuck
  | fuel + 1, s, escapes, target, merge, context, branch =>
      match sh.classify s.nextOf escapes target context merge branch with
      | none => .error .nests
      | some .stop => .ok ([], s)
      | some (.jump jump) => .ok ([.jump jump], s)
      | some (.inRegion v) => region fuel s escapes v merge context []

end

end Shaper

/-! ## A segment -/

def endsOf (all : List Block) (low high : Nat) (block : Block) : Except TranslateError Ends :=
  let to? (offset : Nat) : Except TranslateError To :=
    match blockAt all offset with
    | none => .error (.unsupported block.start "a successor is not the start of any block")
    | some index => .ok (if low ≤ index ∧ index < high then .node (index - low) else .leave)
  match block.terminator with
  | .ended => .ok (.goto .ended)
  | .jump target | .fallthrough target => do return .goto (← to? target)
  | .branch target fallthrough => do
      let taken ← to? target
      let fall ← to? fallthrough
      return if taken = fall then .goto taken else .branch taken fall

def Flow.of? (ends : List Ends) : Option Flow :=
  if h : 0 < ends.length ∧
      ∀ e ∈ ends, ∀ v ∈ e.successors.filterMap To.node?, v < ends.length then
    some ⟨ends, h.1, h.2⟩
  else none

/-- A segment's structure, ready to emit. -/
structure Plan where
  seq : List Node

def shapeFlow (fuel base : Nat) (branchAt : Nat → Nat) (f : Flow) : Except Refusal Plan :=
  match f.dominators with
  | none => .error .stuck
  | some none => .error (.because "a cycle is entered at more than one block")
  | some (some d) =>
      match d.postDominators f with
      | none => .error .stuck
      | some none => .error (.because "a cycle is not a natural loop")
      | some (some p) =>
          match (Shaper.mk base f branchAt d p).region fuel .start [] 0 none none [] with
          | .error e => .error e
          | .ok (seq, s) =>
              match (List.range f.len).find? (fun node =>
                s.placed node != if f.reachable node then 1 else 0) with
              | some node =>
                  .error (.because ("block " ++ toString (base + node) ++ " is not placed"))
              | none => .ok ⟨seq⟩

def shape (fuel : Nat) (d : Decode) (all : List Block) (low high : Nat) :
    Except TranslateError (Except Refusal Plan) := do
  let segment := (all.take high).drop low
  let ends ← segment.mapM (endsOf all low high)
  let branchAt := fun node =>
    (d.instructions.getD ((segment.map Block.stop).getD node 0 - 1) default).offset
  match Flow.of? ends with
  | none => return .error .stuck
  | some f => return shapeFlow fuel low branchAt f

end Orbistoun.Translate.Structured
