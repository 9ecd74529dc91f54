import Mathlib.Data.List.Destutter
import Orbistoun.Lib.Walk

/-! # A segment's blocks as a graph

The model of what `structured.rs` knows of a segment's flow: the edges of its blocks, and
`dominators` and `post_dominators` over them. A `while` of the source is a recursion with turns
enough, and `usize::MAX` for a place not set yet is `none`. An outer `none` is a loop whose turns
ran out or a place read before it was set, where the source would not end or would panic.
-/

namespace Orbistoun.Translate.Structured

open Orbistoun.Lib

/-- Where an edge goes, among a segment's blocks. -/
inductive To where
  | node (v : Nat)
  | ended
  | leave
  deriving DecidableEq, Repr

inductive Ends where
  | goto (target : To)
  | branch (taken fall : To)
  deriving DecidableEq, Repr

def Ends.successors : Ends → List To
  | .goto target => [target]
  | .branch taken fall => [taken, fall]

def To.node? : To → Option Nat
  | .node v => some v
  | .ended | .leave => none

/-- The segment's blocks, the first its entry, with every edge within it or out of it. -/
structure Flow where
  ends : List Ends
  nonempty : 0 < ends.length
  inside : ∀ e ∈ ends, ∀ v ∈ e.successors.filterMap To.node?, v < ends.length

namespace Flow

variable (f : Flow)

def len : Nat := f.ends.length

def successors (node : Nat) : List To := (f.ends[node]?.map Ends.successors).getD []

def nodeSuccessors (node : Nat) : List Nat := (f.successors node).filterMap To.node?

def postorder : List Nat := (Walk.walk f.nodeSuccessors (List.range f.len) 0).postorder

def retreating : List (Nat × Nat) := (Walk.walk f.nodeSuccessors (List.range f.len) 0).retreating

def rpo : List Nat := f.postorder.reverse

def reachable (node : Nat) : Bool := f.postorder.contains node

def unset : Nat := 2 ^ 64 - 1

def rpoIndex (node : Nat) : Nat := if f.reachable node then f.rpo.idxOf node else unset

def predecessors (node : Nat) : List Nat :=
  f.rpo.flatMap (fun u => ((f.nodeSuccessors u).filter (· == node)).map (fun _ => u))

/-! ## Dominators -/

/-- Turns enough for a walk up the pointers. -/
def turns : Nat := 2 * f.len + 2

/-- `while rpo_index[a] > rpo_index[b] { a = idom[a] }`. -/
def climb (idom : Nat → Option Nat) (b : Nat) : Nat → Nat → Option Nat
  | 0, _ => none
  | fuel + 1, a =>
      if f.rpoIndex b < f.rpoIndex a then (idom a).bind (climb idom b fuel) else some a

def intersectFuel (idom : Nat → Option Nat) : Nat → Nat → Nat → Option Nat
  | 0, _, _ => none
  | fuel + 1, a, b =>
      if a = b then some a
      else
        match f.climb idom b f.turns a with
        | none => none
        | some a =>
            match f.climb idom a f.turns b with
            | none => none
            | some b => intersectFuel idom fuel a b

def intersect (idom : Nat → Option Nat) (a b : Nat) : Option Nat :=
  f.intersectFuel idom f.turns a b

/-- One predecessor of a node taken into where they meet. -/
def meetOne (idom : Nat → Option Nat) (new : Option Nat) (p : Nat) : Option (Option Nat) :=
  match idom p, new with
  | none, _ => some new
  | some _, none => some (some p)
  | some _, some m => (f.intersect idom p m).map some

def meet (idom : Nat → Option Nat) (node : Nat) : Option (Option Nat) :=
  (f.predecessors node).foldlM (f.meetOne idom) none

def sweepOne (s : (Nat → Option Nat) × Bool) (node : Nat) : Option ((Nat → Option Nat) × Bool) :=
  (f.meet s.1 node).map (fun new =>
    if new ≠ s.1 node then (Function.update s.1 node new, true) else s)

/-- One pass over the reverse postorder, and whether it changed anything. -/
def sweep (idom : Nat → Option Nat) : Option ((Nat → Option Nat) × Bool) :=
  (f.rpo.drop 1).foldlM f.sweepOne (idom, false)

def settle : Nat → (Nat → Option Nat) → Option (Nat → Option Nat)
  | 0, _ => none
  | fuel + 1, idom =>
      match f.sweep idom with
      | none => none
      | some (idom, changed) => if changed then settle fuel idom else some idom

def startIdom : Nat → Option Nat := Function.update (fun _ => none) 0 (some 0)

def dominatesFuel (idom : Nat → Option Nat) (a : Nat) : Nat → Nat → Bool
  | 0, _ => false
  | fuel + 1, b =>
      if a = b then true
      else
        match idom b with
        | none => false
        | some up => if up = b then false else dominatesFuel idom a fuel up

def dominates (idom : Nat → Option Nat) (a b : Nat) : Bool := dominatesFuel idom a f.turns b

/-- `while let Some(node) = work.pop()`, marking what reaches the work. -/
def flood : Nat → List Nat → (Nat → Bool) → Option (Nat → Bool)
  | _, [], body => some body
  | 0, _ :: _, _ => none
  | fuel + 1, node :: work, body =>
      if body node then flood fuel work body
      else flood fuel ((f.predecessors node).reverse ++ work) (Function.update body node true)

def floodTurns : Nat := ((List.range f.len).map (fun v => (f.predecessors v).length)).sum + 1

/-- One back edge's blocks joined to its header's natural loop. -/
def bodyOne (bodies : Nat → Option (Nat → Bool)) (edge : Nat × Nat) :
    Option (Nat → Option (Nat → Bool)) :=
  let body := (bodies edge.2).getD (Function.update (fun _ => false) edge.2 true)
  (f.flood f.floodTurns [edge.1] body).map (fun body => Function.update bodies edge.2 (some body))

/-- What `dominators` leaves in the shaper. -/
structure Dominators where
  idom : Nat → Option Nat
  body : Nat → Option (Nat → Bool)

def dominators : Option (Option Dominators) :=
  match f.settle (f.len + 2) startIdom with
  | none => none
  | some idom =>
      if f.retreating.any (fun edge => !f.dominates idom edge.2 edge.1) then some none
      else (f.retreating.foldlM f.bodyOne (fun _ => none)).map (fun body => some ⟨idom, body⟩)

end Flow

namespace Flow.Dominators

variable (f : Flow) (d : Dominators)

def inBody (header node : Nat) : Bool :=
  match d.body header with
  | none => false
  | some body => body node

def isHeader (node : Nat) : Bool := (d.body node).isSome

def isBackEdge (source target : Nat) : Bool := d.isHeader target && f.dominates d.idom target source

/-! ## The acyclic graph -/

/-- The node every end is sent to. -/
def sink : Nat := f.len

def loopHeaders : List Nat :=
  (List.range f.len).filter (fun h => d.isHeader h && f.reachable h)

/-- A header's own node, numbered after the sink, which stands for its loop's whole run. -/
def loopNode (h : Nat) : Option Nat :=
  if h ∈ d.loopHeaders f then some (f.len + 1 + (d.loopHeaders f).idxOf h) else none

def count : Nat := f.len + 1 + (d.loopHeaders f).length

/-- Where an edge goes there: a back edge to its loop's node. -/
def mapTo (source : Nat) : To → Nat
  | .ended | .leave => sink f
  | .node v => if d.isBackEdge f source v then (d.loopNode f v).getD unset else v

def blockOut (node : Nat) : List Nat :=
  ((f.successors node).map (d.mapTo f node)).destutter (· ≠ ·)

def exitEdges (header : Nat) : List Nat :=
  ((List.range f.len).filter (fun node => f.reachable node && d.inBody header node)).flatMap
    (fun node => (f.successors node).filterMap (fun target =>
      match target with
      | .node v => if d.inBody header v then none else some (d.mapTo f node target)
      | .ended | .leave => none))

def exits (header : Nat) : List Nat :=
  let found := (d.exitEdges f header).foldl
    (fun exits mapped => if exits.contains mapped then exits else exits ++ [mapped]) []
  if found.isEmpty then [sink f] else found

/-- The graph with each loop's back edges sent to a node of its own, which goes on to the loop's
exits, and every end to one sink. -/
def collapsed (node : Nat) : List Nat :=
  if node < f.len then if f.reachable node then d.blockOut f node else []
  else
    match (d.loopHeaders f).find? (fun h => d.loopNode f h == some node) with
    | some header => d.exits f header
    | none => []

/-! ## Post-dominators -/

/-- What has been found of each node: its immediate post-dominator, and its depth. -/
structure Found where
  ipdom : Nat → Option Nat
  depth : Nat → Nat

/-- Two nodes walked up to where they meet. -/
def joinFuel (s : Found) : Nat → Nat → Nat → Option Nat
  | 0, _, _ => none
  | fuel + 1, a, b =>
      if a = b then some a
      else if s.depth b ≤ s.depth a then (s.ipdom a).bind (fun a => joinFuel s fuel a b)
      else (s.ipdom b).bind (fun b => joinFuel s fuel a b)

def joinOne (s : Found) (met : Option Nat) (target : Nat) : Option (Option Nat) :=
  match met with
  | none => some (some target)
  | some a => (joinFuel s (s.depth a + s.depth target + 1) a target).map some

def postOne (s : Found) (node : Nat) : Option Found :=
  if node = sink f then some s
  else
    ((d.collapsed f node).foldlM (joinOne s) none).map (fun joined =>
      let met := joined.getD (sink f)
      { ipdom := Function.update s.ipdom node (some met)
        depth := Function.update s.depth node (s.depth met + 1) })

/-- What `post_dominators` leaves in the shaper. -/
structure PostDominators where
  ipdom : Nat → Option Nat
  loopNode : Nat → Option Nat

def startFound : Found := ⟨Function.update (fun _ => none) (sink f) (some (sink f)), fun _ => 0⟩

/-- The source gives up at the first edge back to a node on the walk's stack. -/
def postDominators : Option (Option PostDominators) :=
  let walked := Walk.walk (d.collapsed f) (List.range (d.count f)) 0
  if !walked.retreating.isEmpty then some none
  else
    (walked.postorder.foldlM (d.postOne f) (startFound f)).map
      (fun found => some ⟨found.ipdom, d.loopNode f⟩)

end Flow.Dominators

end Orbistoun.Translate.Structured
