import Orbistoun.Translate.Structured.Placed
import Orbistoun.Translate.Structured.PostDominators

/-! # Planning ends

The planner's recursion is given its turns. Each region places a block before it goes on, and a block
is placed once, so turns enough for every block leave none of it stuck; what it comes to with those
turns it comes to with any more.
-/

namespace Orbistoun.Translate.Structured

/-! ## Refusals -/

/-- A result that is not for want of turns. -/
def Settled {α : Type} (r : Except Refusal α) : Prop := r ≠ .error .stuck

theorem settled_ok {α : Type} (a : α) : Settled (.ok a) := by
  intro h
  cases h

theorem settled_orElse {α : Type} (o : Option α) : Settled (orElse .nests o) := by
  intro h
  cases o <;> cases h

theorem settled_bind {α β : Type} {x : Except Refusal α} {f : α → Except Refusal β}
    (hx : Settled x) (hf : ∀ a, x = .ok a → Settled (f a)) : Settled (x >>= f) := by
  cases x with
  | error e =>
    intro h
    cases h
    exact hx rfl
  | ok a => exact hf a rfl

/-- A result that more turns leave as it is. -/
def Kept {α : Type} (r more : Except Refusal α) : Prop := Settled r → more = r

theorem kept_refl {α : Type} (r : Except Refusal α) : Kept r r := fun _ => rfl

theorem kept_bind {α β : Type} {x y : Except Refusal α} {f g : α → Except Refusal β}
    (hx : Kept x y) (hf : ∀ a, Kept (f a) (g a)) : Kept (x >>= f) (y >>= g) := by
  intro hsettled
  cases x with
  | error e =>
    have herror : y = .error e := hx (fun h => hsettled (by rw [h]; rfl))
    rw [herror]
    rfl
  | ok a =>
    have hok : y = .ok a := hx (settled_ok a)
    rw [hok]
    exact hf a hsettled

namespace Shaper

variable {sh : Shaper}

/-! ## More turns -/

mutual

/-- One more turn leaves a settled region as it is. -/
theorem region_kept : ∀ (fuel : Nat) (s : Placing) (escapes : List Nat) (current : Nat)
    (stop context : Option Nat) (seq : List Node),
    Kept (sh.region fuel s escapes current stop context seq)
      (sh.region (fuel + 1) s escapes current stop context seq)
  | 0, s, escapes, current, stop, context, seq => fun h => absurd (by rw [region]) h
  | fuel + 1, s, escapes, current, stop, context, seq => by
      have hrest : ∀ placed : Option Nat × List Node × Placing, Kept
          (match placed.1 with
          | none => Except.ok placed.2
          | some next =>
              if some next = stop then Except.ok placed.2
              else sh.region fuel placed.2.2 escapes next stop context placed.2.1)
          (match placed.1 with
          | none => Except.ok placed.2
          | some next =>
              if some next = stop then Except.ok placed.2
              else sh.region (fuel + 1) placed.2.2 escapes next stop context placed.2.1) := by
        intro placed
        split
        · exact kept_refl _
        · split
          · exact kept_refl _
          · exact region_kept fuel _ escapes _ stop context _
      rw [region, region]
      split
      · exact kept_bind (placeLoop_kept fuel s escapes current context stop seq) hrest
      · exact kept_bind (placeBlock_kept fuel s escapes current context stop seq) hrest
termination_by structural fuel => fuel

theorem placeLoop_kept : ∀ (fuel : Nat) (s : Placing) (escapes : List Nat) (header : Nat)
    (context stop : Option Nat) (seq : List Node),
    Kept (sh.placeLoop fuel s escapes header context stop seq)
      (sh.placeLoop (fuel + 1) s escapes header context stop seq)
  | 0, s, escapes, header, context, stop, seq => fun h => absurd (by rw [placeLoop]) h
  | fuel + 1, s, escapes, header, context, stop, seq => by
      rw [placeLoop, placeLoop]
      apply kept_bind (kept_refl _)
      intro exits
      apply kept_bind (region_kept fuel _ escapes header none (some header) [])
      intro body
      simp only
      split
      · exact kept_refl _
      · apply kept_bind (armsOf_kept fuel _ escapes _ _ context)
        intro arms
        apply kept_bind (kept_refl _)
        intro target
        apply kept_bind (arm_kept fuel _ escapes _ _ context 0)
        intro otherwise
        exact kept_refl _
termination_by structural fuel => fuel

theorem armsOf_kept : ∀ (fuel : Nat) (s : Placing) (escapes others : List Nat)
    (merge context : Option Nat),
    Kept (sh.armsOf fuel s escapes others merge context)
      (sh.armsOf (fuel + 1) s escapes others merge context)
  | 0, s, escapes, others, merge, context => fun h => absurd (by rw [armsOf]) h
  | fuel + 1, s, escapes, [], merge, context => by
      rw [armsOf, armsOf]
      exact kept_refl _
  | fuel + 1, s, escapes, v :: rest, merge, context => by
      rw [armsOf, armsOf]
      apply kept_bind (kept_refl _)
      intro code
      apply kept_bind (arm_kept fuel s escapes (.node v) merge context 0)
      intro first
      apply kept_bind (armsOf_kept fuel _ escapes rest merge context)
      intro others
      exact kept_refl _
termination_by structural fuel => fuel

theorem placeBlock_kept : ∀ (fuel : Nat) (s : Placing) (escapes : List Nat) (node : Nat)
    (context stop : Option Nat) (seq : List Node),
    Kept (sh.placeBlock fuel s escapes node context stop seq)
      (sh.placeBlock (fuel + 1) s escapes node context stop seq)
  | 0, s, escapes, node, context, stop, seq => fun h => absurd (by rw [placeBlock]) h
  | fuel + 1, s, escapes, node, context, stop, seq => by
      rw [placeBlock, placeBlock]
      apply kept_bind (kept_refl _)
      intro s'
      simp only
      split
      · exact kept_refl _
      · exact kept_refl _
      · exact placeBranch_kept fuel s' escapes node _ _ context stop _
termination_by structural fuel => fuel

theorem placeBranch_kept : ∀ (fuel : Nat) (s : Placing) (escapes : List Nat) (node : Nat)
    (taken fall : To) (context stop : Option Nat) (seq : List Node),
    Kept (sh.placeBranch fuel s escapes node taken fall context stop seq)
      (sh.placeBranch (fuel + 1) s escapes node taken fall context stop seq)
  | 0, s, escapes, node, taken, fall, context, stop, seq => fun h => absurd (by rw [placeBranch]) h
  | fuel + 1, s, escapes, node, taken, fall, context, stop, seq => by
      rw [placeBranch, placeBranch]
      simp only
      split
      · apply kept_bind (arm_kept fuel s escapes taken _ context _)
        intro first
        apply kept_bind (arm_kept fuel _ escapes fall _ context _)
        intro second
        exact kept_refl _
      · apply kept_bind (arm_kept fuel s _ taken _ context _)
        intro first
        apply kept_bind (arm_kept fuel _ _ fall _ context _)
        intro second
        split
        · exact kept_refl _
        · apply kept_bind (kept_refl _)
          intro code
          apply kept_bind (region_kept fuel _ escapes _ _ context [])
          intro body
          exact kept_refl _
termination_by structural fuel => fuel

theorem arm_kept : ∀ (fuel : Nat) (s : Placing) (escapes : List Nat) (target : To)
    (merge context : Option Nat) (branch : Nat),
    Kept (sh.arm fuel s escapes target merge context branch)
      (sh.arm (fuel + 1) s escapes target merge context branch)
  | 0, s, escapes, target, merge, context, branch => fun h => absurd (by rw [arm]) h
  | fuel + 1, s, escapes, target, merge, context, branch => by
      rw [arm, arm]
      split
      · exact kept_refl _
      · exact kept_refl _
      · exact kept_refl _
      · exact region_kept fuel s escapes _ merge context []
termination_by structural fuel => fuel

end

/-! ## Turns enough -/

/-- So many turns settle every region with fewer blocks left to place. -/
def Ready (sh : Shaper) (turns n : Nat) : Prop :=
  ∀ fuel s escapes current stop context seq, current < sh.len → sh.Within stop →
    sh.unplaced s < n → turns ≤ fuel →
      Settled (sh.region fuel s escapes current stop context seq)

section Turns

variable {turns n : Nat} {s : Placing} {escapes : List Nat} {context stop merge : Option Nat}
  {seq : List Node}

theorem arm_settled (hready : sh.Ready turns n) (fuel : Nat) {target : To} {branch : Nat}
    (htarget : ∀ v, target = .node v → v < sh.len) (hmerge : sh.Within merge)
    (hs : sh.unplaced s < n) (hfuel : turns + 1 ≤ fuel) :
    Settled (sh.arm fuel s escapes target merge context branch) := by
  cases fuel with
  | zero => omega
  | succ fuel =>
    rw [arm]
    split
    · intro h
      cases h
    · exact settled_ok _
    · exact settled_ok _
    · next v hclass =>
      exact hready fuel s escapes v merge context [] (htarget v (eq_of_inRegion hclass)) hmerge hs
        (by omega)

theorem armsOf_settled (hready : sh.Ready turns n) (fuel : Nat) {others : List Nat}
    (hothers : ∀ v ∈ others, v < sh.len) (hmerge : sh.Within merge) (hs : sh.unplaced s < n)
    (hfuel : turns + 2 + others.length ≤ fuel) :
    Settled (sh.armsOf fuel s escapes others merge context) := by
  induction others generalizing fuel s with
  | nil =>
    cases fuel with
    | zero => omega
    | succ fuel =>
      rw [armsOf]
      exact settled_ok _
  | cons v rest ih =>
    rw [List.length_cons] at hfuel
    rw [List.forall_mem_cons] at hothers
    have htarget : ∀ w, To.node v = .node w → w < sh.len :=
      fun w hw => To.node.inj hw ▸ hothers.1
    cases fuel with
    | zero => omega
    | succ fuel =>
      rw [armsOf]
      apply settled_bind (settled_orElse _)
      intro code _
      apply settled_bind (arm_settled hready fuel htarget hmerge hs (by omega))
      intro first hfirst
      have hfewer := (arm_adds fuel htarget hmerge hfirst).unplaced_le
      apply settled_bind (ih fuel hothers.2 (by omega) (by omega))
      intro others _
      exact settled_ok _

theorem placeBranch_settled (hready : sh.Ready turns n) (fuel : Nat) {node : Nat} {taken fall : To}
    (htaken : ∀ v, taken = .node v → v < sh.len) (hfall : ∀ v, fall = .node v → v < sh.len)
    (hstop : sh.Within stop) (hs : sh.unplaced s < n) (hfuel : turns + 2 ≤ fuel) :
    Settled (sh.placeBranch fuel s escapes node taken fall context stop seq) := by
  cases fuel with
  | zero => omega
  | succ fuel =>
    have hmerge : sh.Within (sh.mergeOf s escapes node context stop) := mergeFrom_within hstop
    rw [placeBranch]
    simp only
    split
    · apply settled_bind (arm_settled hready fuel htaken hmerge hs (by omega))
      intro first hfirst
      have hfewer := (arm_adds fuel htaken hmerge hfirst).unplaced_le
      apply settled_bind (arm_settled hready fuel hfall hmerge (by omega) (by omega))
      intro second _
      exact settled_ok _
    · next join hjoin =>
      have hjoin' : sh.Within (some join) :=
        within_some (joinOf_within join (Option.filter_eq_some_iff.mp hjoin).1)
      apply settled_bind (arm_settled hready fuel htaken hjoin' hs (by omega))
      intro first hfirst
      have hfewer := (arm_adds fuel htaken hjoin' hfirst).unplaced_le
      apply settled_bind (arm_settled hready fuel hfall hjoin' (by omega) (by omega))
      intro second hsecond
      have hfewer' := (arm_adds fuel hfall hjoin' hsecond).unplaced_le
      split
      · exact settled_ok _
      · next target htarget =>
        apply settled_bind (settled_orElse _)
        intro code _
        apply settled_bind (hready fuel _ _ _ _ _ _ (hjoin' join rfl)
          (within_some (hmerge target htarget)) (by omega) (by omega))
        intro body _
        exact settled_ok _

theorem placeBlock_settled (hready : sh.Ready turns n) (fuel : Nat) {node : Nat}
    (hnode : node < sh.len) (hstop : sh.Within stop) (hs : sh.unplaced s ≤ n)
    (hfuel : turns + 3 ≤ fuel) :
    Settled (sh.placeBlock fuel s escapes node context stop seq) := by
  cases fuel with
  | zero => omega
  | succ fuel =>
    rw [placeBlock]
    apply settled_bind
    · unfold place
      simp only
      split
      · exact settled_ok _
      · intro h
        cases h
    · intro s' hplace
      have hfewer := (place_adds hnode hplace).2
      simp only
      split
      · intro h
        cases h
      · split
        · intro h
          cases h
        · exact settled_ok _
        · exact settled_ok _
        · exact settled_ok _
      · next taken fall hends =>
        apply placeBranch_settled hready fuel _ _ hstop (by omega) (by omega)
        · exact fun v hv => within_of_ends hends (by simp [Ends.successors, hv])
        · exact fun v hv => within_of_ends hends (by simp [Ends.successors, hv])

theorem rest_settled (hready : sh.Ready turns n) (fuel : Nat) (hstop : sh.Within stop)
    (hs : sh.unplaced s ≤ n) (hfuel : turns ≤ fuel) {placed : Option Nat × List Node × Placing}
    (hplaced : sh.Stepped seq s placed) :
    Settled (match placed.1 with
      | none => Except.ok placed.2
      | some next =>
          if some next = stop then Except.ok placed.2
          else sh.region fuel placed.2.2 escapes next stop context placed.2.1) := by
  have hfewer := hplaced.fewer
  split
  · exact settled_ok _
  · next next hnext =>
    split
    · exact settled_ok _
    · exact hready fuel _ _ _ _ _ _ (hplaced.next next hnext) hstop (by omega) hfuel

theorem blockRegion_settled (hready : sh.Ready turns n) (fuel : Nat) {current : Nat}
    (hcurrent : current < sh.len) (hstop : sh.Within stop) (hs : sh.unplaced s ≤ n)
    (hblock : ¬ (sh.dominators.isHeader current && decide (context ≠ some current)) = true)
    (hfuel : turns + 4 ≤ fuel) :
    Settled (sh.region fuel s escapes current stop context seq) := by
  cases fuel with
  | zero => omega
  | succ fuel =>
    rw [region, if_neg hblock]
    apply settled_bind (placeBlock_settled hready fuel hcurrent hstop hs (by omega))
    intro placed hplaced
    exact rest_settled hready fuel hstop hs (by omega)
      (placeBlock_stepped fuel hcurrent hstop hplaced)

theorem placeLoop_settled (hready : sh.Ready turns n) (fuel : Nat) {header : Nat}
    (hheader : header < sh.len) (hstop : sh.Within stop) (hs : sh.unplaced s ≤ n)
    (hfuel : turns + 5 + sh.len ≤ fuel) :
    Settled (sh.placeLoop fuel s escapes header context stop seq) := by
  cases fuel with
  | zero => omega
  | succ fuel =>
    rw [placeLoop]
    apply settled_bind (settled_orElse _)
    intro exits hexits
    have hlocals : sh.LocalsOk exits := by
      cases hsome : sh.exits s escapes header context stop with
      | none =>
        rw [hsome] at hexits
        cases hexits
      | some found =>
        rw [hsome] at hexits
        cases hexits
        exact exits_localsOk hsome
    have hinside : ∀ next, sh.unplaced { s with nextOf := next } ≤ n := fun _ => hs
    simp only
    -- Inside its own loop the header is placed as a block.
    apply settled_bind (blockRegion_settled hready fuel hheader sh.within_none (hinside _) (by simp)
      (by omega))
    intro body hbody
    have hfewer : sh.unplaced body.2 < sh.unplaced s :=
      (region_grew fuel hheader sh.within_none hbody).2
    have hmerge := @mergeFrom_within sh body.2 escapes context stop hstop
      ((sh.post.loopNode header).bind sh.post.ipdom) exits.1
    have hothers : ∀ v ∈ exits.1.filter (fun v => decide (some v ≠ exits.1.min?)),
        v < sh.len := fun v hv => hlocals.within v (List.mem_filter.mp hv).1
    have hlength := List.length_filter_le (fun v => decide (some v ≠ exits.1.min?)) exits.1
    have hmost := hlocals.length_le
    split
    · exact settled_ok _
    · apply settled_bind (armsOf_settled hready fuel hothers hmerge (by omega) (by omega))
      intro arms harms
      have harms' := (armsOf_adds fuel hothers hmerge harms).unplaced_le
      apply settled_bind (settled_orElse _)
      intro target htarget
      have htarget' : ∀ v, To.node target = .node v → v < sh.len := by
        intro v hv
        cases hv
        cases hmin : exits.1.min? with
        | none =>
          rw [hmin] at htarget
          cases htarget
        | some first =>
          rw [hmin] at htarget
          cases htarget
          exact hlocals.within _ (List.min?_mem hmin)
      apply settled_bind (arm_settled hready fuel htarget' hmerge (by omega) (by omega))
      intro otherwise _
      exact settled_ok _

theorem ready_succ (hready : sh.Ready turns n) : sh.Ready (turns + sh.len + 6) (n + 1) := by
  intro fuel s escapes current stop context seq hcurrent hstop hs hfuel
  by_cases hblock : (sh.dominators.isHeader current && decide (context ≠ some current)) = true
  · cases fuel with
    | zero => omega
    | succ fuel =>
      rw [region, if_pos hblock]
      apply settled_bind (placeLoop_settled hready fuel hcurrent hstop (by omega) (by omega))
      intro placed hplaced
      exact rest_settled hready fuel hstop (by omega) (by omega)
        (placeLoop_stepped fuel hcurrent hstop hplaced)
  · exact blockRegion_settled hready fuel hcurrent hstop (by omega) hblock (by omega)

theorem ready (sh : Shaper) (n : Nat) : sh.Ready (n * (sh.len + 6)) n := by
  induction n with
  | zero =>
    intro fuel s escapes current stop context seq _ _ hs
    omega
  | succ n ih =>
    rw [Nat.succ_mul]
    exact ready_succ ih

end Turns

/-- Turns enough to place a segment's blocks. -/
def turnsFor (len : Nat) : Nat := (len + 1) * (len + 6)

theorem region_settled (sh : Shaper) {fuel : Nat} (hfuel : turnsFor sh.len ≤ fuel) :
    Settled (sh.region fuel .start [] 0 none none []) :=
  sh.ready (sh.len + 1) fuel .start [] 0 none none [] sh.flow.nonempty sh.within_none
    (Nat.lt_succ_of_le (sh.unplaced_le_len _)) hfuel

theorem region_eq_of_le (sh : Shaper) {fuel : Nat} (hfuel : turnsFor sh.len ≤ fuel) :
    sh.region fuel .start [] 0 none none [] =
      sh.region (turnsFor sh.len) .start [] 0 none none [] := by
  induction fuel, hfuel using Nat.le_induction with
  | base => rfl
  | succ fuel hle ih =>
    rw [region_kept fuel .start [] 0 none none [] (sh.region_settled hle), ih]

end Shaper

theorem found_or_irreducible (f : Flow) : f.dominators = some none ∨ ∃ d p,
    f.dominators = some (some d) ∧ d.postDominators f = some (some p) := by
  rcases f.dominators_found with ⟨hnone, -⟩ | ⟨d, hd, hred, hlinked, hsettled, hfound⟩
  · exact .inl hnone
  · obtain ⟨p, hp, -⟩ :=
      Flow.Dominators.postDominators_found ⟨hred, hlinked, hsettled, hfound⟩
    exact .inr ⟨d, p, hd, hp⟩

/-- With turns enough for its blocks a segment's flow comes to a plan or to a refusal of its own, the
same whatever more turns it is given. -/
theorem shapeFlow_settles (base : Nat) (branchAt : Nat → Nat) (f : Flow) (more : Nat) :
    Settled (shapeFlow (Shaper.turnsFor f.len + more) base branchAt f) ∧
      shapeFlow (Shaper.turnsFor f.len + more) base branchAt f =
        shapeFlow (Shaper.turnsFor f.len) base branchAt f := by
  have hle : Shaper.turnsFor f.len ≤ Shaper.turnsFor f.len + more := Nat.le_add_right _ _
  rcases found_or_irreducible f with hnone | ⟨d, p, hd, hp⟩
  · unfold shapeFlow
    rw [hnone]
    refine ⟨?_, rfl⟩
    intro h
    cases h
  · have hsettled := Shaper.region_settled (Shaper.mk base f branchAt d p) hle
    have hsame := Shaper.region_eq_of_le (Shaper.mk base f branchAt d p) hle
    unfold shapeFlow
    rw [hd]
    simp only [hp]
    rw [hsame]
    rw [hsame] at hsettled
    refine ⟨?_, rfl⟩
    intro h
    split at h
    · next e herror =>
      cases h
      exact hsettled herror
    · split at h <;> cases h

end Orbistoun.Translate.Structured
