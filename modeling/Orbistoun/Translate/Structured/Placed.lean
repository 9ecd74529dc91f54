import Mathlib.Data.Finset.Card
import Orbistoun.Translate.Structured.Dominators
import Orbistoun.Translate.Structured.Sound

/-! # What a plan places

Every block the planner places goes into its sequence once, and each step of the planner that
succeeds leaves fewer blocks to place. A plan therefore holds every reachable block once, wherever
in its selections and loops, and no other.
-/

namespace Orbistoun.Translate.Structured

mutual

def Node.holds (index : Nat) : Node → Nat
  | .block i => if i = index then 1 else 0
  | .branch _ taken fall _ _ => seqHolds index taken + seqHolds index fall
  | .guard _ body => seqHolds index body
  | .loop body _ _ _ => seqHolds index body
  | .select arms otherwise _ => armsHold index arms + seqHolds index otherwise
  | .jump _ => 0

def seqHolds (index : Nat) : List Node → Nat
  | [] => 0
  | node :: rest => node.holds index + seqHolds index rest

def armsHold (index : Nat) : List (Nat × List Node) → Nat
  | [] => 0
  | (_, arm) :: rest => seqHolds index arm + armsHold index rest

end

section
variable {index : Nat}

theorem seqHolds_append (a b : List Node) :
    seqHolds index (a ++ b) = seqHolds index a + seqHolds index b := by
  induction a with
  | nil => simp [seqHolds]
  | cons node a ih => simp [seqHolds, ih, Nat.add_assoc]

theorem seqHolds_singleton (node : Node) : seqHolds index [node] = node.holds index := by
  simp [seqHolds]

mutual

theorem guarded_holds (code : Nat) :
    ∀ node : Node, (node.guarded code).holds index = node.holds index
  | .jump _ => rfl
  | .block _ => rfl
  | .loop _ _ _ _ => rfl
  | .branch _ taken fall _ _ => by
      simp only [Node.guarded, Node.holds]
      rw [guardAfter_holds code taken, guardAfter_holds code fall]
  | .select arms otherwise _ => by
      simp only [Node.guarded, Node.holds]
      rw [armsGuarded_hold code arms, guardAfter_holds code otherwise]
  | .guard _ body => by
      simp only [Node.guarded, Node.holds]
      exact guardAfter_holds code body

theorem guardAfter_holds (code : Nat) :
    ∀ seq : List Node, seqHolds index (guardAfter code seq) = seqHolds index seq
  | [] => rfl
  | node :: rest => by
      have hnode := guarded_holds code node
      have hrest := guardAfter_holds code rest
      simp only [guardAfter]
      split
      · rw [seqHolds, seqHolds, hnode]
        cases rest with
        | nil => rfl
        | cons first later =>
          rw [List.isEmpty_cons, if_neg Bool.false_ne_true, seqHolds_singleton, Node.holds, hrest]
      · rw [seqHolds, seqHolds, hnode, hrest]

theorem armsGuarded_hold (code : Nat) :
    ∀ arms : List (Nat × List Node), armsHold index (armsGuarded code arms) = armsHold index arms
  | [] => rfl
  | (_, arm) :: rest => by
      rw [armsGuarded, armsHold, armsHold, guardAfter_holds code arm, armsGuarded_hold code rest]

end

end

namespace Shaper

variable {sh : Shaper} {s s' s'' : Placing} {escapes : List Nat} {context stop merge : Option Nat}
  {count more : Nat → Nat} {seq seq' seq'' : List Node} {node : Nat}

/-! ## Blocks placed -/

/-- How often a block of the segment is placed. -/
def placedAt (sh : Shaper) (s : Placing) (index : Nat) : Nat :=
  if sh.base ≤ index then s.placed (index - sh.base) else 0

/-- How many blocks are not placed yet. -/
def unplaced (sh : Shaper) (s : Placing) : Nat :=
  ((Finset.range sh.len).filter (fun v => s.placed v = 0)).card

/-- Some more blocks placed, and none that is not the segment's. -/
structure Adds (sh : Shaper) (s s' : Placing) (count : Nat → Nat) : Prop where
  counts : ∀ index, sh.placedAt s' index = sh.placedAt s index + count index
  outside : ∀ v, sh.len ≤ v → s'.placed v = s.placed v

theorem Adds.refl (sh : Shaper) (s : Placing) : sh.Adds s s (fun _ => 0) :=
  ⟨fun _ => rfl, fun _ _ => rfl⟩

theorem Adds.trans (h : sh.Adds s s' count) (h' : sh.Adds s' s'' more) :
    sh.Adds s s'' (fun index => count index + more index) := by
  constructor
  · intro index
    rw [h'.counts, h.counts, Nat.add_assoc]
  · intro v hv
    rw [h'.outside v hv, h.outside v hv]

theorem Adds.congr (h : sh.Adds s s' count) (heq : ∀ index, count index = more index) :
    sh.Adds s s' more := by
  rw [← funext heq]
  exact h

theorem Adds.placed_le (h : sh.Adds s s' count) (v : Nat) : s.placed v ≤ s'.placed v := by
  have hcounts := h.counts (sh.base + v)
  unfold placedAt at hcounts
  rw [if_pos (Nat.le_add_right _ _), if_pos (Nat.le_add_right _ _), Nat.add_sub_cancel_left] at hcounts
  omega

theorem Adds.unplaced_le (h : sh.Adds s s' count) : sh.unplaced s' ≤ sh.unplaced s := by
  apply Finset.card_le_card
  intro v hv
  rw [Finset.mem_filter] at *
  have hle := h.placed_le v
  exact ⟨hv.1, by omega⟩

theorem unplaced_le_len (sh : Shaper) (s : Placing) : sh.unplaced s ≤ sh.len := by
  apply (Finset.card_filter_le _ _).trans
  rw [Finset.card_range]

/-- A sequence gained what was placed. -/
def Grew (sh : Shaper) (seq : List Node) (s : Placing) (seq' : List Node) (s' : Placing) : Prop :=
  ∃ count, sh.Adds s s' count ∧ ∀ index, seqHolds index seq' = seqHolds index seq + count index

theorem Grew.refl (sh : Shaper) (seq : List Node) (s : Placing) : sh.Grew seq s seq s :=
  ⟨_, .refl sh s, fun _ => rfl⟩

theorem Grew.trans (h : sh.Grew seq s seq' s') (h' : sh.Grew seq' s' seq'' s'') :
    sh.Grew seq s seq'' s'' := by
  obtain ⟨count, hadds, hholds⟩ := h
  obtain ⟨more, hmore, hlater⟩ := h'
  refine ⟨_, hadds.trans hmore, ?_⟩
  intro index
  rw [hlater, hholds, Nat.add_assoc]

theorem Grew.unplaced_le (h : sh.Grew seq s seq' s') : sh.unplaced s' ≤ sh.unplaced s := by
  obtain ⟨count, hadds, -⟩ := h
  exact hadds.unplaced_le

theorem Adds.snoc {last : Node} (hadds : sh.Adds s s' (fun index => last.holds index))
    (seq : List Node) : sh.Grew seq s (seq ++ [last]) s' := by
  refine ⟨_, hadds, ?_⟩
  intro index
  rw [seqHolds_append, seqHolds_singleton]

/-- A region of its own holds what it placed. -/
theorem Grew.adds (h : sh.Grew [] s seq s') : sh.Adds s s' (fun index => seqHolds index seq) := by
  obtain ⟨count, hadds, hholds⟩ := h
  apply hadds.congr
  intro index
  rw [hholds, seqHolds, Nat.zero_add]

theorem place_adds (hnode : node < sh.len) (h : sh.place s node = .ok s') :
    sh.Adds s s' (fun index => (Node.block (sh.base + node)).holds index) ∧
      sh.unplaced s' < sh.unplaced s := by
  unfold place at h
  simp only at h
  split at h
  · next hfirst =>
    cases h
    have hzero : s.placed node = 0 := by omega
    constructor
    · constructor
      · intro index
        unfold placedAt Node.holds
        simp only [Function.update_apply]
        by_cases hsame : sh.base + node = index
        · rw [← hsame, if_pos (Nat.le_add_right _ _), if_pos (Nat.le_add_right _ _),
            Nat.add_sub_cancel_left, if_pos rfl, if_pos rfl]
        · rw [if_neg hsame]
          by_cases hbase : sh.base ≤ index
          · rw [if_pos hbase, if_pos hbase, if_neg (by omega), Nat.add_zero]
          · rw [if_neg hbase, if_neg hbase]
      · intro v hv
        simp only [Function.update_apply]
        rw [if_neg (by omega)]
    · apply Finset.card_lt_card
      rw [Finset.ssubset_iff_of_subset]
      · refine ⟨node, Finset.mem_filter.mpr ⟨Finset.mem_range.mpr hnode, hzero⟩, ?_⟩
        rw [Finset.mem_filter]
        rintro ⟨-, hagain⟩
        simp only [Function.update_self] at hagain
        omega
      · intro v hv
        rw [Finset.mem_filter] at *
        refine ⟨hv.1, ?_⟩
        have hplaced := hv.2
        simp only [Function.update_apply] at hplaced
        split at hplaced
        · omega
        · exact hplaced
  · cases h

/-! ## Blocks looked at -/

/-- A block of the segment, if any. -/
def Within (sh : Shaper) (target : Option Nat) : Prop := ∀ v, target = some v → v < sh.len

theorem within_none (sh : Shaper) : sh.Within none := by
  intro v h
  cases h

theorem eq_of_inRegion {target : To} {branch v : Nat} {nextOf : Nat → Option Nat}
    (h : sh.classify nextOf escapes target context stop branch = some (.inRegion v)) :
    target = .node v := by
  cases target with
  | ended => cases h
  | leave =>
    simp only [classify] at h
    split at h <;> cases h
  | node w =>
    simp only [classify] at h
    have hcode : ∀ jump : Nat → Jump,
        (sh.codeOf w).map (fun code => Class.jump (jump code)) ≠ some (.inRegion v) := by
      intro jump hmap
      obtain ⟨code, -, hcode⟩ := Option.map_eq_some_iff.mp hmap
      cases hcode
    split at h
    · cases h
    · split at h
      · split at h
        · exact absurd h (hcode _)
        · cases h
          rfl
      · split at h
        · cases h
        · split at h
          · exact absurd h (hcode _)
          · split at h
            · exact absurd h (hcode _)
            · cases h
              rfl

theorem within_of_ends {e : Ends} (h : sh.flow.ends[node]? = some e) {v : Nat}
    (hv : To.node v ∈ e.successors) : v < sh.len := by
  apply sh.flow.inside e (List.mem_of_getElem? h)
  rw [List.mem_filterMap]
  exact ⟨.node v, hv, rfl⟩

theorem within_some {v : Nat} (h : v < sh.len) : sh.Within (some v) := by
  intro w hw
  cases hw
  exact h

theorem within_ite {target : Option Nat} {c : Prop} [Decidable c] (h : sh.Within target) :
    sh.Within (if c then target else none) := by
  split
  · exact h
  · exact sh.within_none

theorem mergeFrom_within (hstop : sh.Within stop) {m : Option Nat} {sources : List Nat} :
    sh.Within (sh.mergeFrom s escapes m sources context stop) := by
  unfold mergeFrom
  simp only
  split
  · next m' hinside =>
    have hm := (Option.filter_eq_some_iff.mp hinside).2
    rw [Bool.and_eq_true, decide_eq_true_eq] at hm
    cases stop with
    | none => exact within_some hm.1
    | some t =>
      simp only
      split
      · exact within_ite hstop
      · exact within_some hm.1
  · exact within_ite hstop

theorem mem_of_foldl_first (index : Nat → Nat) (list : List Nat) {best : Option Nat} {v : Nat}
    (h : list.foldl (fun best v =>
      match best with
      | none => some v
      | some w => if index v < index w then some v else some w) best = some v) :
    v ∈ list ∨ best = some v := by
  induction list generalizing best with
  | nil => exact .inr h
  | cons first rest ih =>
    rw [List.foldl_cons] at h
    rcases ih h with hrest | hbest
    · exact .inl (List.mem_cons_of_mem _ hrest)
    · cases best with
      | none =>
        cases hbest
        exact .inl List.mem_cons_self
      | some w =>
        simp only at hbest
        split at hbest
        · cases hbest
          exact .inl List.mem_cons_self
        · exact .inr hbest

theorem joinOf_within {taken fall : To} :
    sh.Within (sh.joinOf s escapes taken fall merge context stop) := by
  intro v hv
  unfold joinOf at hv
  rcases mem_of_foldl_first sh.flow.rpoIndex _ hv with hmem | hnone
  · exact List.mem_range.mp (List.mem_filter.mp hmem).1
  · cases hnone

/-- The blocks a loop leaves for are the segment's, each listed once. -/
structure LocalsOk (sh : Shaper) (exits : Exits) : Prop where
  within : ∀ v ∈ exits.1, v < sh.len
  nodup : exits.1.Nodup

theorem exitOne_localsOk {exits out : Exits} {edge : Nat × Nat} (hok : sh.LocalsOk exits)
    (hedge : edge.2 < sh.len) (h : sh.exitOne s escapes context stop exits edge = some out) :
    sh.LocalsOk out := by
  have hlocal : some (if exits.1.contains edge.2 then exits
      else (exits.1 ++ [edge.2], exits.2)) = some out → sh.LocalsOk out := by
    intro hout
    cases hout
    split
    · exact hok
    · next hnew =>
      rw [List.contains_iff_mem] at hnew
      constructor
      · intro v hv
        rcases List.mem_append.mp hv with hv | hv
        · exact hok.within v hv
        · rw [List.mem_singleton.mp hv]
          exact hedge
      · exact hok.nodup.append (List.nodup_singleton _) (by simpa using hnew)
  unfold exitOne at h
  split at h
  · cases h
  · exact hlocal h
  · exact hlocal h
  · obtain ⟨code, -, rfl⟩ := Option.map_eq_some_iff.mp h
    split
    · exact hok
    · exact ⟨hok.within, hok.nodup⟩

theorem exits_localsOk {header : Nat} {exits : Exits}
    (h : sh.exits s escapes header context stop = some exits) : sh.LocalsOk exits := by
  have hall : ∀ (edges : List (Nat × Nat)) (before : Exits), (∀ edge ∈ edges, edge.2 < sh.len) →
      sh.LocalsOk before → edges.foldlM (sh.exitOne s escapes context stop) before = some exits →
      sh.LocalsOk exits := by
    intro edges
    induction edges with
    | nil =>
      intro before _ hbefore hfold
      cases hfold
      exact hbefore
    | cons edge edges ih =>
      intro before hedges hbefore hfold
      rw [List.foldlM_cons, Option.bind_eq_bind, Option.bind_eq_some_iff] at hfold
      obtain ⟨middle, hone, hrest⟩ := hfold
      rw [List.forall_mem_cons] at hedges
      exact ih middle hedges.2 (exitOne_localsOk hbefore hedges.1 hone) hrest
  apply hall _ ([], []) _ _ h
  · intro edge hedge
    unfold leaving at hedge
    rw [List.mem_flatMap] at hedge
    obtain ⟨node, -, hedge⟩ := hedge
    rw [List.mem_map] at hedge
    obtain ⟨v, hv, rfl⟩ := hedge
    have hsuccessor := (List.mem_filter.mp hv).1
    unfold Flow.nodeSuccessors Flow.successors at hsuccessor
    cases hends : sh.flow.ends[node]? with
    | none =>
      rw [hends] at hsuccessor
      cases hsuccessor
    | some e =>
      rw [hends] at hsuccessor
      exact sh.flow.inside e (List.mem_of_getElem? hends) v hsuccessor
  · exact ⟨by simp, List.nodup_nil⟩

theorem LocalsOk.length_le {exits : Exits} (h : sh.LocalsOk exits) :
    exits.1.length ≤ sh.len := by
  have hsub : exits.1 ⊆ List.range sh.len := fun v hv => List.mem_range.mpr (h.within v hv)
  have hle := (h.nodup.subperm hsub).length_le
  rwa [List.length_range] at hle

/-! ## Regions -/

/-- What placing a block or a loop comes to: a sequence that gained what was placed, at least a block
of it, and the block run on into. -/
structure Stepped (sh : Shaper) (seq : List Node) (s : Placing)
    (out : Option Nat × List Node × Placing) : Prop where
  grew : sh.Grew seq s out.2.1 out.2.2
  fewer : sh.unplaced out.2.2 < sh.unplaced s
  next : sh.Within out.1

mutual

theorem region_grew : ∀ (fuel : Nat) {s : Placing} {escapes : List Nat} {current : Nat}
    {stop context : Option Nat} {seq : List Node} {out : List Node × Placing},
    current < sh.len → sh.Within stop →
    sh.region fuel s escapes current stop context seq = .ok out →
    sh.Grew seq s out.1 out.2 ∧ sh.unplaced out.2 < sh.unplaced s
  | 0, _, _, _, _, _, _, _, _, _, h => by
      rw [region] at h
      cases h
  | fuel + 1, s, escapes, current, stop, context, seq, out, hcurrent, hstop, h => by
      have hrest : ∀ placed : Option Nat × List Node × Placing, sh.Stepped seq s placed →
          (match placed.1 with
          | none => Except.ok placed.2
          | some next =>
              if some next = stop then Except.ok placed.2
              else sh.region fuel placed.2.2 escapes next stop context placed.2.1) = .ok out →
          sh.Grew seq s out.1 out.2 ∧ sh.unplaced out.2 < sh.unplaced s := by
        intro placed hplaced h
        split at h
        · cases h
          exact ⟨hplaced.grew, hplaced.fewer⟩
        · next next hnext =>
          split at h
          · cases h
            exact ⟨hplaced.grew, hplaced.fewer⟩
          · have hlater := region_grew fuel (hplaced.next next hnext) hstop h
            exact ⟨hplaced.grew.trans hlater.1, hlater.2.trans hplaced.fewer⟩
      rw [region] at h
      split at h
      · rw [bind_eq_ok] at h
        obtain ⟨placed, hplaced, h⟩ := h
        exact hrest placed (placeLoop_stepped fuel hcurrent hstop hplaced) h
      · rw [bind_eq_ok] at h
        obtain ⟨placed, hplaced, h⟩ := h
        exact hrest placed (placeBlock_stepped fuel hcurrent hstop hplaced) h
termination_by structural fuel => fuel

theorem placeLoop_stepped : ∀ (fuel : Nat) {s : Placing} {escapes : List Nat} {header : Nat}
    {context stop : Option Nat} {seq : List Node} {out : Option Nat × List Node × Placing},
    header < sh.len → sh.Within stop →
    sh.placeLoop fuel s escapes header context stop seq = .ok out → sh.Stepped seq s out
  | 0, _, _, _, _, _, _, _, _, _, h => by
      rw [placeLoop] at h
      cases h
  | fuel + 1, s, escapes, header, context, stop, seq, out, hheader, hstop, h => by
      rw [placeLoop, bind_eq_ok] at h
      obtain ⟨exits, hexits, h⟩ := h
      rw [bind_eq_ok] at h
      obtain ⟨body, hbody, h⟩ := h
      have hlocals : sh.LocalsOk exits := by
        cases hsome : sh.exits s escapes header context stop with
        | none =>
            rw [hsome] at hexits
            cases hexits
        | some found =>
            rw [hsome] at hexits
            cases hexits
            exact exits_localsOk hsome
      obtain ⟨hinside, hfewer⟩ := region_grew fuel hheader sh.within_none hbody
      -- Noting where the loop runs on places nothing.
      have hsame : sh.Adds s { s with nextOf := Function.update s.nextOf header exits.1.min? }
          (fun _ => 0) := ⟨fun _ => rfl, fun _ _ => rfl⟩
      have hbodied : ∀ next reset, sh.Grew seq s
          (seq ++ [.loop body.1 exits.2 next reset]) body.2 := by
        intro next reset
        apply Adds.snoc
        apply (hsame.trans hinside.adds).congr
        intro index
        rw [Nat.zero_add, Node.holds]
      have hnext : sh.Within exits.1.min? := by
        intro v hv
        exact hlocals.within v (List.min?_mem hv)
      split at h
      · cases h
        exact ⟨hbodied _ _, hfewer, hnext⟩
      · rw [bind_eq_ok] at h
        obtain ⟨arms, harms, h⟩ := h
        rw [bind_eq_ok] at h
        obtain ⟨target, htarget, h⟩ := h
        rw [bind_eq_ok] at h
        obtain ⟨otherwise, hotherwise, h⟩ := h
        cases h
        have hothers : ∀ v ∈ exits.1.filter (fun v => decide (some v ≠ exits.1.min?)),
            v < sh.len := fun v hv => hlocals.within v (List.mem_filter.mp hv).1
        have hmerge := @mergeFrom_within sh body.2 escapes context stop hstop
          ((sh.post.loopNode header).bind sh.post.ipdom) exits.1
        have hgrown := armsOf_adds fuel hothers hmerge harms
        have htarget' : target < sh.len := by
          cases hmin : exits.1.min? with
          | none =>
              rw [hmin] at htarget
              cases htarget
          | some v =>
              rw [hmin] at htarget
              cases htarget
              exact hnext _ hmin
        have harm := arm_adds fuel (fun v hv => To.node.inj hv ▸ htarget') hmerge hotherwise
        have hselect : sh.Adds body.2 otherwise.2 (fun index => (Node.select arms.1 otherwise.1
            (sh.mergeFrom body.2 escapes ((sh.post.loopNode header).bind sh.post.ipdom) exits.1
              context stop).isSome).holds index) :=
          (hgrown.trans harm).congr (fun index => by rw [Node.holds])
        exact ⟨(hbodied _ _).trans (hselect.snoc _), hselect.unplaced_le.trans_lt hfewer, hmerge⟩
termination_by structural fuel => fuel

theorem armsOf_adds : ∀ (fuel : Nat) {s : Placing} {escapes others : List Nat}
    {merge context : Option Nat} {out : List (Nat × List Node) × Placing},
    (∀ v ∈ others, v < sh.len) → sh.Within merge →
    sh.armsOf fuel s escapes others merge context = .ok out →
    sh.Adds s out.2 (fun index => armsHold index out.1)
  | 0, _, _, _, _, _, _, _, _, h => by
      rw [armsOf] at h
      cases h
  | fuel + 1, s, escapes, [], merge, context, out, _, _, h => by
      rw [armsOf] at h
      cases h
      exact .refl sh s
  | fuel + 1, s, escapes, v :: rest, merge, context, out, hothers, hmerge, h => by
      rw [List.forall_mem_cons] at hothers
      rw [armsOf, bind_eq_ok] at h
      obtain ⟨code, _, h⟩ := h
      rw [bind_eq_ok] at h
      obtain ⟨first, hfirst, h⟩ := h
      rw [bind_eq_ok] at h
      obtain ⟨others, hrest, h⟩ := h
      cases h
      have harm := arm_adds fuel (fun w hw => To.node.inj hw ▸ hothers.1) hmerge hfirst
      exact (harm.trans (armsOf_adds fuel hothers.2 hmerge hrest)).congr
        (fun index => by rw [armsHold])
termination_by structural fuel => fuel

theorem placeBlock_stepped : ∀ (fuel : Nat) {s : Placing} {escapes : List Nat} {node : Nat}
    {context stop : Option Nat} {seq : List Node} {out : Option Nat × List Node × Placing},
    node < sh.len → sh.Within stop →
    sh.placeBlock fuel s escapes node context stop seq = .ok out → sh.Stepped seq s out
  | 0, _, _, _, _, _, _, _, _, _, h => by
      rw [placeBlock] at h
      cases h
  | fuel + 1, s, escapes, node, context, stop, seq, out, hnode, hstop, h => by
      rw [placeBlock, bind_eq_ok] at h
      obtain ⟨s', hplace, h⟩ := h
      obtain ⟨hadds, hfewer⟩ := place_adds hnode hplace
      have hblock := hadds.snoc seq
      split at h
      · cases h
      · next target hends =>
        split at h
        · cases h
        · cases h
          exact ⟨hblock, hfewer, sh.within_none⟩
        · cases h
          refine ⟨?_, hfewer, sh.within_none⟩
          exact hblock.trans (Adds.snoc (Adds.refl sh s') _)
        · next v hclass =>
          cases h
          refine ⟨hblock, hfewer, within_some ?_⟩
          rw [eq_of_inRegion hclass] at hends
          exact within_of_ends hends (by simp [Ends.successors])
      · next taken fall hends =>
        have harms : ∀ v, To.node v ∈ [taken, fall] → v < sh.len :=
          fun v hv => within_of_ends hends hv
        obtain ⟨hgrew, hnext⟩ := placeBranch_grew fuel (fun v hv => harms v (by simp [hv]))
          (fun v hv => harms v (by simp [hv])) hstop h
        exact ⟨hblock.trans hgrew, hgrew.unplaced_le.trans_lt hfewer, hnext⟩
termination_by structural fuel => fuel

theorem placeBranch_grew : ∀ (fuel : Nat) {s : Placing} {escapes : List Nat} {node : Nat}
    {taken fall : To} {context stop : Option Nat} {seq : List Node}
    {out : Option Nat × List Node × Placing},
    (∀ v, taken = .node v → v < sh.len) → (∀ v, fall = .node v → v < sh.len) → sh.Within stop →
    sh.placeBranch fuel s escapes node taken fall context stop seq = .ok out →
    sh.Grew seq s out.2.1 out.2.2 ∧ sh.Within out.1
  | 0, _, _, _, _, _, _, _, _, _, _, _, _, h => by
      rw [placeBranch] at h
      cases h
  | fuel + 1, s, escapes, node, taken, fall, context, stop, seq, out, htaken, hfall, hstop, h => by
      have hmerge : sh.Within (sh.mergeOf s escapes node context stop) := mergeFrom_within hstop
      have hbranch : ∀ {first second : List Node} {s₁ s₂ : Placing} (merged reset : Bool),
          sh.Adds s s₁ (fun index => seqHolds index first) →
          sh.Adds s₁ s₂ (fun index => seqHolds index second) →
          sh.Grew seq s (seq ++ [.branch (sh.base + node) first second merged reset]) s₂ := by
        intro first second s₁ s₂ merged reset hfirst hsecond
        apply Adds.snoc
        exact (hfirst.trans hsecond).congr (fun index => by rw [Node.holds])
      rw [placeBranch] at h
      simp only at h
      split at h
      · rw [bind_eq_ok] at h
        obtain ⟨a, ha, h⟩ := h
        rw [bind_eq_ok] at h
        obtain ⟨b, hb, h⟩ := h
        cases h
        exact ⟨hbranch _ _ (arm_adds fuel htaken hmerge ha) (arm_adds fuel hfall hmerge hb), hmerge⟩
      · next join hjoin =>
        have hjoin' : join < sh.len :=
          joinOf_within join (Option.filter_eq_some_iff.mp hjoin).1
        rw [bind_eq_ok] at h
        obtain ⟨a, ha, h⟩ := h
        rw [bind_eq_ok] at h
        obtain ⟨b, hb, h⟩ := h
        have hfirst := arm_adds fuel htaken (within_some hjoin') ha
        have hsecond := arm_adds fuel hfall (within_some hjoin') hb
        split at h
        · cases h
          exact ⟨hbranch _ _ hfirst hsecond, within_some hjoin'⟩
        · next target htarget =>
          rw [bind_eq_ok] at h
          obtain ⟨code, _, h⟩ := h
          rw [bind_eq_ok] at h
          obtain ⟨body, hbody, h⟩ := h
          cases h
          have hinside : sh.Within (some target) := within_some (hmerge target htarget)
          obtain ⟨hlater, -⟩ := region_grew fuel hjoin' hinside hbody
          have hselection := hbranch true true
            (hfirst.congr (fun index => (guardAfter_holds code a.1).symm))
            (hsecond.congr (fun index => (guardAfter_holds code b.1).symm))
          rw [List.append_cons]
          have hguard : sh.Adds b.2 body.2 (fun index => (Node.guard code body.1).holds index) :=
            hlater.adds.congr (fun index => by rw [Node.holds])
          exact ⟨hselection.trans (hguard.snoc _), hinside⟩
termination_by structural fuel => fuel

theorem arm_adds : ∀ (fuel : Nat) {s : Placing} {escapes : List Nat} {target : To}
    {merge context : Option Nat} {branch : Nat} {out : List Node × Placing},
    (∀ v, target = .node v → v < sh.len) → sh.Within merge →
    sh.arm fuel s escapes target merge context branch = .ok out →
    sh.Adds s out.2 (fun index => seqHolds index out.1)
  | 0, _, _, _, _, _, _, _, _, _, h => by
      rw [arm] at h
      cases h
  | fuel + 1, s, escapes, target, merge, context, branch, out, htarget, hmerge, h => by
      rw [arm] at h
      split at h
      · cases h
      · cases h
        exact .refl sh s
      · cases h
        exact .refl sh s
      · next v hclass =>
        exact (region_grew fuel (htarget v (eq_of_inRegion hclass)) hmerge h).1.adds
termination_by structural fuel => fuel

end

end Shaper

/-! ## A segment's plan -/

theorem region_of_shapeFlow {fuel base : Nat} {branchAt : Nat → Nat} {f : Flow} {plan : Plan}
    (h : shapeFlow fuel base branchAt f = .ok plan) : ∃ (sh : Shaper) (s : Placing),
      sh.base = base ∧ sh.flow = f ∧ sh.region fuel .start [] 0 none none [] = .ok (plan.seq, s) ∧
      ∀ v < f.len, s.placed v = if f.reachable v then 1 else 0 := by
  rw [shapeFlow] at h
  split at h
  · cases h
  · cases h
  · next d _ =>
    split at h
    · cases h
    · cases h
    · next p _ =>
      split at h
      · cases h
      · next seq s hregion =>
        split at h
        · cases h
        · next hplaced =>
          cases h
          refine ⟨⟨base, f, branchAt, d, p⟩, s, rfl, rfl, hregion, ?_⟩
          intro v hv
          rw [List.find?_eq_none] at hplaced
          have hv := hplaced v (List.mem_range.mpr hv)
          simpa using hv

/-- A plan holds each reachable block of its segment once, and nothing else. -/
theorem plan_holds_once {fuel base : Nat} {branchAt : Nat → Nat} {f : Flow} {plan : Plan}
    (h : shapeFlow fuel base branchAt f = .ok plan) :
    (∀ v, f.Reach v → seqHolds (base + v) plan.seq = 1) ∧
      ∀ index, (∀ v, f.Reach v → index ≠ base + v) → seqHolds index plan.seq = 0 := by
  obtain ⟨sh, s, rfl, rfl, hregion, hplaced⟩ := region_of_shapeFlow h
  obtain ⟨⟨count, hadds, hholds⟩, -⟩ :=
    Shaper.region_grew fuel sh.flow.nonempty sh.within_none hregion
  have hseq : ∀ index, seqHolds index plan.seq = sh.placedAt s index := by
    intro index
    have hcounts := hadds.counts index
    have hzero : sh.placedAt .start index = 0 := by
      unfold Shaper.placedAt Placing.start
      split <;> rfl
    rw [hholds, hcounts, hzero, seqHolds]
  constructor
  · intro v hv
    have hreachable := (sh.flow.reachable_iff v).mpr hv
    have hlt := Flow.lt_len_of_reach hv
    rw [hseq, Shaper.placedAt, if_pos (Nat.le_add_right _ _), Nat.add_sub_cancel_left,
      hplaced v hlt, if_pos hreachable]
  · intro index hindex
    rw [hseq, Shaper.placedAt]
    split
    · next hbase =>
      by_cases hlt : index - sh.base < sh.flow.len
      · rw [hplaced _ hlt, if_neg]
        intro hreachable
        apply hindex _ ((sh.flow.reachable_iff _).mp hreachable)
        omega
      · rw [hadds.outside _ (Nat.not_lt.mp hlt)]
        rfl
    · rfl

/-- A loop whose header leaves it. -/
def backwards : Flow :=
  ⟨[.goto (.node 1), .branch (.node 2) (.node 3), .goto (.node 1), .goto .ended], by decide,
    by decide⟩

theorem backwards_holds_once : ∃ plan, shapeFlow 50 0 (fun _ => 0) backwards = .ok plan ∧
    (∀ v, backwards.Reach v → seqHolds (0 + v) plan.seq = 1) ∧
      ∀ index, (∀ v, backwards.Reach v → index ≠ 0 + v) → seqHolds index plan.seq = 0 := by
  have hok : (shapeFlow 50 0 (fun _ => 0) backwards).toOption.isSome := by decide +kernel
  cases hplan : shapeFlow 50 0 (fun _ => 0) backwards with
  | error e =>
    rw [hplan] at hok
    cases hok
  | ok plan => exact ⟨plan, rfl, plan_holds_once hplan⟩

end Orbistoun.Translate.Structured
