import Orbistoun.Translate.Structured.Plan

/-! # Where a plan's jumps sit

What `region` and the rest of the planner keep: nothing leaves the segment from inside a loop, no
loop's merge routes to the segment's end, and a loop of the top level routes nothing.
-/

namespace Orbistoun.Translate.Structured

theorem bind_eq_ok {ε α β : Type} {x : Except ε α} {f : α → Except ε β} {b : β} :
    x >>= f = .ok b ↔ ∃ a, x = .ok a ∧ f a = .ok b := by
  cases x with
  | error e => simp [bind, Except.bind]
  | ok a => simp [bind, Except.bind]

/-- A jump a loop's merge may route: not to the segment's end. -/
def Jump.Routable (j : Jump) : Prop := j ≠ .exit ∧ j ≠ .leave

mutual

def Node.Sound (inLoop : Bool) : Node → Prop
  | .jump j => j = .leave → inLoop = false
  | .block _ => True
  | .branch _ taken fall _ _ => SeqSound inLoop taken ∧ SeqSound inLoop fall
  | .select arms otherwise _ => ArmsSound inLoop arms ∧ SeqSound inLoop otherwise
  | .guard _ body => SeqSound inLoop body
  | .loop body routes _ _ => SeqSound true body ∧ ∀ route ∈ routes, route.2.Routable

/-- The segment is left only outside a loop, and no loop's merge routes to the segment's end. -/
def SeqSound (inLoop : Bool) : List Node → Prop
  | [] => True
  | node :: rest => node.Sound inLoop ∧ SeqSound inLoop rest

def ArmsSound (inLoop : Bool) : List (Nat × List Node) → Prop
  | [] => True
  | (_, arm) :: rest => SeqSound inLoop arm ∧ ArmsSound inLoop rest

end

def Node.Unrouted : Node → Prop
  | .loop _ routes _ _ => routes = []
  | _ => True

section
variable {inLoop : Bool}

@[simp] theorem seqSound_append (a b : List Node) :
    SeqSound inLoop (a ++ b) ↔ SeqSound inLoop a ∧ SeqSound inLoop b := by
  induction a with
  | nil => simp [SeqSound]
  | cons node a ih => simp [SeqSound, ih, and_assoc]

theorem seqSound_singleton (node : Node) : SeqSound inLoop [node] ↔ node.Sound inLoop := by
  simp [SeqSound]

mutual

theorem guarded_sound (code : Nat) :
    ∀ node : Node, node.Sound inLoop → (node.guarded code).Sound inLoop
  | .jump _, h => h
  | .block _, h => h
  | .loop _ _ _ _, h => h
  | .branch _ taken fall _ _, h => ⟨guardAfter_sound code taken h.1, guardAfter_sound code fall h.2⟩
  | .select arms otherwise _, h =>
      ⟨armsGuarded_sound code arms h.1, guardAfter_sound code otherwise h.2⟩
  | .guard _ body, h => guardAfter_sound code body h

theorem guardAfter_sound (code : Nat) :
    ∀ seq : List Node, SeqSound inLoop seq → SeqSound inLoop (guardAfter code seq)
  | [], h => h
  | node :: rest, h => by
      have hnode := guarded_sound code node h.1
      have hrest := guardAfter_sound code rest h.2
      simp only [guardAfter]
      split
      · constructor
        · exact hnode
        · split
          · trivial
          · exact ⟨hrest, trivial⟩
      · exact ⟨hnode, hrest⟩

theorem armsGuarded_sound (code : Nat) :
    ∀ arms : List (Nat × List Node), ArmsSound inLoop arms →
      ArmsSound inLoop (armsGuarded code arms)
  | [], h => h
  | (_, arm) :: rest, h => ⟨guardAfter_sound code arm h.1, armsGuarded_sound code rest h.2⟩

end

end

namespace Shaper

variable {sh : Shaper} {nextOf : Nat → Option Nat} {escapes : List Nat}
  {context stop : Option Nat} {branch : Nat}

/-! ## Where a target falls -/

theorem context_none_of_leave {target : To}
    (h : sh.classify nextOf escapes target context stop branch = some (.jump .leave)) :
    context = none := by
  cases target with
  | ended => cases h
  | leave =>
      cases context with
      | none => rfl
      | some header => cases h
  | node v =>
      simp only [classify] at h
      split at h
      · cases h
      · split at h
        · rfl
        · split at h
          · cases h
          · split at h
            · rw [Option.map_eq_some_iff] at h
              obtain ⟨_, _, h⟩ := h
              cases h
            · split at h
              · rw [Option.map_eq_some_iff] at h
                obtain ⟨_, _, h⟩ := h
                cases h
              · cases h

/-- A jump to a block is no jump to the segment's end, and outside every loop it is an escape. -/
theorem classify_node_jump {v : Nat} {j : Jump}
    (h : sh.classify nextOf escapes (.node v) context stop branch = some (.jump j)) :
    j.Routable ∧ (context = none → escapes ≠ []) := by
  have escape : ∀ {code}, (sh.codeOf v).map (fun code => Class.jump (.escape code)) = some code →
      code = .jump j → j.Routable := by
    intro code hcode hj
    rw [Option.map_eq_some_iff] at hcode
    obtain ⟨_, _, rfl⟩ := hcode
    cases hj
    constructor <;> intro h <;> cases h
  simp only [classify] at h
  split at h
  · cases h
  · split at h
    · split at h
      · rename_i hin
        constructor
        · exact escape h rfl
        · intro _ hnil
          rw [hnil] at hin
          cases hin
      · cases h
    · constructor
      · split at h
        · cases h
          constructor <;> intro h <;> cases h
        · split at h
          · rw [Option.map_eq_some_iff] at h
            obtain ⟨_, _, h⟩ := h
            cases h
            constructor <;> intro h <;> cases h
          · split at h
            · exact escape h rfl
            · cases h
      · intro hnone
        cases hnone

/-! ## A loop's exits -/

/-- What a loop's merge is given to route. -/
structure RoutesOk (context : Option Nat) (escapes : List Nat) (routes : List (Nat × Jump)) :
    Prop where
  routable : ∀ route ∈ routes, route.2.Routable
  top : context = none → escapes = [] → routes = []

theorem exitOne_ok {s : Placing} {exits out : Exits} {edge : Nat × Nat}
    (hexits : RoutesOk context escapes exits.2)
    (h : sh.exitOne s escapes context stop exits edge = some out) :
    RoutesOk context escapes out.2 := by
  have hinner : ∀ locals : Exits, some (if exits.1.contains edge.2 then exits
      else (exits.1 ++ [edge.2], exits.2)) = some locals → RoutesOk context escapes locals.2 := by
    intro locals hlocals
    cases hlocals
    split <;> exact hexits
  rw [exitOne] at h
  cases hclass : sh.classify s.nextOf escapes (.node edge.2) context stop (sh.branchAt edge.1) with
  | none =>
      rw [hclass] at h
      cases h
  | some place =>
      rw [hclass] at h
      cases place with
      | stop => exact hinner out h
      | inRegion v => exact hinner out h
      | jump j =>
          have hj := classify_node_jump hclass
          simp only [Option.map_eq_some_iff] at h
          obtain ⟨code, _, hout⟩ := h
          subst hout
          split
          · exact hexits
          · constructor
            · intro route hroute
              rcases List.mem_append.mp hroute with hroute | hroute
              · exact hexits.routable route hroute
              · rw [List.mem_singleton.mp hroute]
                exact hj.1
            · intro hcontext hescapes
              exact absurd hescapes (hj.2 hcontext)

theorem exits_ok {s : Placing} {header : Nat} {exits : Exits}
    (h : sh.exits s escapes header context stop = some exits) :
    RoutesOk context escapes exits.2 := by
  have hall : ∀ (edges : List (Nat × Nat)) (before : Exits),
      RoutesOk context escapes before.2 →
      edges.foldlM (sh.exitOne s escapes context stop) before = some exits →
      RoutesOk context escapes exits.2 := by
    intro edges
    induction edges with
    | nil =>
        intro before hbefore hfold
        cases hfold
        exact hbefore
    | cons edge edges ih =>
        intro before hbefore hfold
        rw [List.foldlM_cons, Option.bind_eq_bind, Option.bind_eq_some_iff] at hfold
        obtain ⟨middle, hone, hrest⟩ := hfold
        exact ih middle (exitOne_ok hbefore hone) hrest
  apply hall _ ([], []) _ h
  constructor
  · intro route hroute
    cases hroute
  · intro _ _
    rfl

/-! ## Regions -/

/-- What is kept of a region's sequence. -/
structure RegionOk (context : Option Nat) (escapes : List Nat) (seq : List Node) : Prop where
  sound : SeqSound context.isSome seq
  top : context = none → escapes = [] → ∀ node ∈ seq, node.Unrouted

namespace RegionOk
variable {seq : List Node} {node : Node}

theorem nil : RegionOk context escapes [] := by
  constructor
  · trivial
  · intro _ _ node hnode
    cases hnode

theorem snoc (h : RegionOk context escapes seq) (hsound : node.Sound context.isSome)
    (htop : context = none → escapes = [] → node.Unrouted) :
    RegionOk context escapes (seq ++ [node]) := by
  constructor
  · rw [seqSound_append, seqSound_singleton]
    exact ⟨h.sound, hsound⟩
  · intro hcontext hescapes other hother
    rcases List.mem_append.mp hother with hother | hother
    · exact h.top hcontext hescapes other hother
    · rw [List.mem_singleton.mp hother]
      exact htop hcontext hescapes

end RegionOk

theorem jump_sound {s : Placing} {target : To} {j : Jump}
    (h : sh.classify s.nextOf escapes target context stop branch = some (.jump j)) :
    (Node.jump j).Sound context.isSome := by
  intro hj
  subst hj
  rw [context_none_of_leave h]
  rfl

mutual

theorem region_ok : ∀ (fuel : Nat) {s : Placing} {escapes : List Nat} {current : Nat}
    {stop context : Option Nat} {seq : List Node} {out : List Node × Placing},
    RegionOk context escapes seq → sh.region fuel s escapes current stop context seq = .ok out →
    RegionOk context escapes out.1
  | 0, _, _, _, _, _, _, _, _, h => by
      rw [region] at h
      cases h
  | fuel + 1, s, escapes, current, stop, context, seq, out, hseq, h => by
      -- What follows the placing of `current` is the same after a loop and after a block.
      have hrest : ∀ placed : Option Nat × List Node × Placing, RegionOk context escapes placed.2.1 →
          (match placed.1 with
          | none => Except.ok placed.2
          | some next =>
              if some next = stop then Except.ok placed.2
              else sh.region fuel placed.2.2 escapes next stop context placed.2.1) = .ok out →
          RegionOk context escapes out.1 := by
        intro placed hplaced h
        split at h
        · cases h
          exact hplaced
        · split at h
          · cases h
            exact hplaced
          · exact region_ok fuel hplaced h
      rw [region] at h
      split at h
      · rw [bind_eq_ok] at h
        obtain ⟨placed, hplaced, h⟩ := h
        exact hrest placed (placeLoop_ok fuel hseq hplaced) h
      · rw [bind_eq_ok] at h
        obtain ⟨placed, hplaced, h⟩ := h
        exact hrest placed (placeBlock_ok fuel hseq hplaced) h
termination_by structural fuel => fuel

theorem placeLoop_ok : ∀ (fuel : Nat) {s : Placing} {escapes : List Nat} {header : Nat}
    {context stop : Option Nat} {seq : List Node} {out : Option Nat × List Node × Placing},
    RegionOk context escapes seq → sh.placeLoop fuel s escapes header context stop seq = .ok out →
    RegionOk context escapes out.2.1
  | 0, _, _, _, _, _, _, _, _, h => by
      rw [placeLoop] at h
      cases h
  | fuel + 1, s, escapes, header, context, stop, seq, out, hseq, h => by
      rw [placeLoop, bind_eq_ok] at h
      obtain ⟨exits, hexits, h⟩ := h
      rw [bind_eq_ok] at h
      obtain ⟨body, hbody, h⟩ := h
      have hroutes : RoutesOk context escapes exits.2 := by
        cases hsome : sh.exits s escapes header context stop with
        | none =>
            rw [hsome] at hexits
            cases hexits
        | some found =>
            rw [hsome] at hexits
            cases hexits
            exact exits_ok hsome
      have hinside : RegionOk (some header) escapes body.1 := region_ok fuel .nil hbody
      have hloop : ∀ next reset, RegionOk context escapes
          (seq ++ [.loop body.1 exits.2 next reset]) := by
        intro next reset
        apply hseq.snoc
        · exact ⟨hinside.sound, hroutes.routable⟩
        · exact hroutes.top
      split at h
      · cases h
        exact hloop _ _
      · rw [bind_eq_ok] at h
        obtain ⟨arms, harms, h⟩ := h
        rw [bind_eq_ok] at h
        obtain ⟨target, _, h⟩ := h
        rw [bind_eq_ok] at h
        obtain ⟨otherwise, hotherwise, h⟩ := h
        cases h
        apply (hloop _ _).snoc
        · exact ⟨armsOf_ok fuel harms, arm_ok fuel hotherwise⟩
        · intro _ _
          trivial
termination_by structural fuel => fuel

theorem armsOf_ok : ∀ (fuel : Nat) {s : Placing} {escapes others : List Nat}
    {merge context : Option Nat} {out : List (Nat × List Node) × Placing},
    sh.armsOf fuel s escapes others merge context = .ok out → ArmsSound context.isSome out.1
  | 0, _, _, _, _, _, _, h => by
      rw [armsOf] at h
      cases h
  | fuel + 1, s, escapes, [], merge, context, out, h => by
      rw [armsOf] at h
      cases h
      trivial
  | fuel + 1, s, escapes, v :: rest, merge, context, out, h => by
      rw [armsOf, bind_eq_ok] at h
      obtain ⟨code, _, h⟩ := h
      rw [bind_eq_ok] at h
      obtain ⟨first, hfirst, h⟩ := h
      rw [bind_eq_ok] at h
      obtain ⟨others, hothers, h⟩ := h
      cases h
      exact ⟨arm_ok fuel hfirst, armsOf_ok fuel hothers⟩
termination_by structural fuel => fuel

theorem placeBlock_ok : ∀ (fuel : Nat) {s : Placing} {escapes : List Nat} {node : Nat}
    {context stop : Option Nat} {seq : List Node} {out : Option Nat × List Node × Placing},
    RegionOk context escapes seq → sh.placeBlock fuel s escapes node context stop seq = .ok out →
    RegionOk context escapes out.2.1
  | 0, _, _, _, _, _, _, _, _, h => by
      rw [placeBlock] at h
      cases h
  | fuel + 1, s, escapes, node, context, stop, seq, out, hseq, h => by
      rw [placeBlock, bind_eq_ok] at h
      obtain ⟨s', _, h⟩ := h
      have hblock : RegionOk context escapes (seq ++ [.block (sh.base + node)]) := by
        apply hseq.snoc
        · trivial
        · intro _ _
          trivial
      split at h
      · cases h
      · split at h
        · cases h
        · cases h
          exact hblock
        · rename_i hclass
          cases h
          apply hblock.snoc
          · exact jump_sound hclass
          · intro _ _
            trivial
        · cases h
          exact hblock
      · exact placeBranch_ok fuel hblock h
termination_by structural fuel => fuel

theorem placeBranch_ok : ∀ (fuel : Nat) {s : Placing} {escapes : List Nat} {node : Nat}
    {taken fall : To} {context stop : Option Nat} {seq : List Node}
    {out : Option Nat × List Node × Placing},
    RegionOk context escapes seq →
    sh.placeBranch fuel s escapes node taken fall context stop seq = .ok out →
    RegionOk context escapes out.2.1
  | 0, _, _, _, _, _, _, _, _, _, _, h => by
      rw [placeBranch] at h
      cases h
  | fuel + 1, s, escapes, node, taken, fall, context, stop, seq, out, hseq, h => by
      have hbranch : ∀ {a b : List Node} (merged reset : Bool), SeqSound context.isSome a →
          SeqSound context.isSome b →
          RegionOk context escapes (seq ++ [.branch (sh.base + node) a b merged reset]) := by
        intro a b merged reset ha hb
        apply hseq.snoc
        · exact ⟨ha, hb⟩
        · intro _ _
          trivial
      rw [placeBranch] at h
      simp only at h
      split at h
      · rw [bind_eq_ok] at h
        obtain ⟨a, ha, h⟩ := h
        rw [bind_eq_ok] at h
        obtain ⟨b, hb, h⟩ := h
        cases h
        exact hbranch _ _ (arm_ok fuel ha) (arm_ok fuel hb)
      · rw [bind_eq_ok] at h
        obtain ⟨a, ha, h⟩ := h
        rw [bind_eq_ok] at h
        obtain ⟨b, hb, h⟩ := h
        split at h
        · cases h
          exact hbranch _ _ (arm_ok fuel ha) (arm_ok fuel hb)
        · rw [bind_eq_ok] at h
          obtain ⟨code, _, h⟩ := h
          rw [bind_eq_ok] at h
          obtain ⟨body, hbody, h⟩ := h
          cases h
          have hselection := hbranch true true
            (guardAfter_sound code _ (arm_ok fuel ha)) (guardAfter_sound code _ (arm_ok fuel hb))
          rw [List.append_cons]
          apply hselection.snoc
          · exact (region_ok fuel .nil hbody).sound
          · intro _ _
            trivial
termination_by structural fuel => fuel

theorem arm_ok : ∀ (fuel : Nat) {s : Placing} {escapes : List Nat} {target : To}
    {merge context : Option Nat} {branch : Nat} {out : List Node × Placing},
    sh.arm fuel s escapes target merge context branch = .ok out → SeqSound context.isSome out.1
  | 0, _, _, _, _, _, _, _, h => by
      rw [arm] at h
      cases h
  | fuel + 1, s, escapes, target, merge, context, branch, out, h => by
      rw [arm] at h
      split at h
      · cases h
      · cases h
        trivial
      · rename_i hclass
        cases h
        exact ⟨jump_sound hclass, trivial⟩
      · exact (region_ok fuel .nil h).sound
termination_by structural fuel => fuel

end

end Shaper

/-! ## A segment's plan -/

structure Plan.Ok (plan : Plan) : Prop where
  sound : SeqSound false plan.seq
  top : ∀ node ∈ plan.seq, node.Unrouted

theorem shapeFlow_ok {fuel base : Nat} {branchAt : Nat → Nat} {f : Flow} {plan : Plan}
    (h : shapeFlow fuel base branchAt f = .ok plan) : plan.Ok := by
  rw [shapeFlow] at h
  split at h
  · cases h
  · cases h
  · split at h
    · cases h
    · cases h
    · split at h
      · cases h
      · rename_i hregion
        split at h
        · cases h
        · cases h
          have hok := Shaper.region_ok fuel Shaper.RegionOk.nil hregion
          exact ⟨hok.sound, hok.top rfl rfl⟩

theorem shape_ok {fuel : Nat} {d : Decode} {all : List Block} {low high : Nat} {plan : Plan}
    (h : shape fuel d all low high = .ok (.ok plan)) : plan.Ok := by
  rw [shape, bind_eq_ok] at h
  obtain ⟨ends, _, h⟩ := h
  split at h
  · cases h
  · exact shapeFlow_ok (Except.ok.inj h)

end Orbistoun.Translate.Structured
