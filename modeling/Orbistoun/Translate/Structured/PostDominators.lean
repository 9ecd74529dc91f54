import Orbistoun.Lib.PostDominance
import Orbistoun.Translate.Structured.Dominators

/-! # The post-dominators of a segment

`post_dominators` after `dominators`: with each loop's back edges sent to the loop's own node the
graph has no cycle, so the walk over it meets none, and each reachable block gets its immediate
post-dominator there.
-/

namespace Orbistoun.Translate.Structured.Flow

open Orbistoun.Lib Orbistoun.Lib.Dominance

/-- What `dominators` leaves behind where it succeeds. -/
structure Solved (f : Flow) (d : Dominators) : Prop where
  reducible : Reducible f.Edge 0
  linked : f.LinkedBy d.idom
  settled : f.Settled d.idom
  found : f.Found d

namespace Dominators

variable {f : Flow} {d : Dominators}

/-- An edge of the acyclic graph. -/
def Out (f : Flow) (d : Dominators) (x y : Nat) : Prop := y ∈ d.collapsed f x

/-! ## The loops' nodes -/

section Nodes

variable {h g x y : Nat}

theorem mem_loopHeaders : h ∈ d.loopHeaders f ↔ d.isHeader h ∧ f.Reach h := by
  rw [loopHeaders, List.mem_filter, List.mem_range, Bool.and_eq_true, f.reachable_iff]
  constructor
  · intro hmem
    exact hmem.2
  · intro hmem
    exact ⟨lt_len_of_reach hmem.2, hmem⟩

theorem loopNode_eq (hh : h ∈ d.loopHeaders f) :
    d.loopNode f h = some (f.len + 1 + (d.loopHeaders f).idxOf h) := if_pos hh

theorem mem_of_loopNode (hx : d.loopNode f h = some x) : h ∈ d.loopHeaders f := by
  unfold loopNode at hx
  split at hx
  · assumption
  · cases hx

theorem loopNode_bounds (hx : d.loopNode f h = some x) : f.len < x ∧ x < d.count f := by
  have hmem := mem_of_loopNode hx
  rw [loopNode_eq hmem, Option.some.injEq] at hx
  have hlt := List.idxOf_lt_length_of_mem hmem
  unfold count
  omega

theorem loopNode_inj (hx : d.loopNode f h = some x) (hy : d.loopNode f g = some x) : h = g := by
  have hmem := mem_of_loopNode hx
  rw [loopNode_eq hmem] at hx
  rw [loopNode_eq (mem_of_loopNode hy), ← hx, Option.some.injEq] at hy
  exact (List.idxOf_inj hmem).mp (by omega)

theorem not_reach_of_loopNode (hx : d.loopNode f h = some x) : ¬f.Reach x := by
  intro hreach
  have hlt := lt_len_of_reach hreach
  have hbounds := loopNode_bounds hx
  omega

theorem sink_ne_of_loopNode (hx : d.loopNode f h = some x) : x ≠ sink f := by
  have hbounds := loopNode_bounds hx
  unfold sink
  omega

theorem collapsed_block (hx : f.Reach x) : d.collapsed f x = d.blockOut f x := by
  unfold collapsed
  rw [if_pos (lt_len_of_reach hx), if_pos ((f.reachable_iff x).mpr hx)]

theorem collapsed_loop (hx : d.loopNode f h = some x) : d.collapsed f x = d.exits f h := by
  have hbounds := loopNode_bounds hx
  have hfind : (d.loopHeaders f).find? (fun g => d.loopNode f g == some x) = some h := by
    cases hfound : (d.loopHeaders f).find? (fun g => d.loopNode f g == some x) with
    | none =>
      rw [List.find?_eq_none] at hfound
      exact absurd (by simp [hx]) (hfound h (mem_of_loopNode hx))
    | some g =>
      have hg : d.loopNode f g = some x := by simpa using List.find?_some hfound
      rw [loopNode_inj hg hx]
  unfold collapsed
  rw [if_neg (by omega), hfind]

theorem collapsed_sink : d.collapsed f (sink f) = [] := by
  have hfind : (d.loopHeaders f).find? (fun g => d.loopNode f g == some (sink f)) = none := by
    rw [List.find?_eq_none]
    intro g _ hg
    exact sink_ne_of_loopNode (by simpa using hg) rfl
  unfold collapsed
  rw [if_neg (by simp [sink]), hfind]

theorem of_out (hout : d.Out f x y) : f.Reach x ∨ ∃ h, d.loopNode f h = some x := by
  unfold Out collapsed at hout
  split at hout
  · split at hout
    · exact Or.inl ((f.reachable_iff x).mp ‹_›)
    · cases hout
  · split at hout
    · rename_i h hfind
      exact Or.inr ⟨h, by simpa using List.find?_some hfind⟩
    · cases hout

end Nodes

/-! ## The edges -/

section Edges

variable {h x y v : Nat}

theorem isBackEdge_iff (hd : f.Solved d) (hx : f.Reach x) (hedge : f.Edge x v) :
    d.isBackEdge f x v ↔ Dominates f.Edge 0 v x := by
  rw [isBackEdge, Bool.and_eq_true, dominates_iff hd.linked hd.settled hx]
  constructor
  · intro hback
    exact hback.2
  · intro hdom
    exact ⟨(hd.found.header v).mpr ⟨x, hx, hedge, hdom⟩, hdom⟩

theorem rises_of_not_dominates (hd : f.Solved d) (hx : f.Reach x) (hedge : f.Edge x v)
    (hnot : ¬Dominates f.Edge 0 v x) : f.rpoIndex x < f.rpoIndex v := by
  by_contra hle
  apply hnot
  exact f.reducible_iff_retreating.mp hd.reducible x v
    (f.mem_retreating_iff.mpr ⟨hx, hedge, by omega⟩)

theorem rpoIndex_le_of_inLoop (hx : f.Reach x) (hin : InLoop f.Edge 0 h x) :
    f.rpoIndex h ≤ f.rpoIndex x := by
  cases rank_lt_of_dominates f.ordered hx hin.dominates with
  | inl heq => rw [heq]
  | inr hlt => exact hlt.le

theorem edge_of_mem (hv : To.node v ∈ f.successors x) : f.Edge x v :=
  List.mem_filterMap.mpr ⟨_, hv, rfl⟩

/-- Where an edge of a reachable block goes: a back edge to its header's node, any other where it
went. -/
theorem mapTo_cases (hd : f.Solved d) (hx : f.Reach x) (hv : To.node v ∈ f.successors x) :
    (Dominates f.Edge 0 v x ∧ d.loopNode f v = some (d.mapTo f x (.node v))) ∨
      (¬Dominates f.Edge 0 v x ∧ d.mapTo f x (.node v) = v) := by
  have hedge := edge_of_mem hv
  have hback := isBackEdge_iff hd hx hedge
  by_cases hdom : Dominates f.Edge 0 v x
  · have hmem : v ∈ d.loopHeaders f := mem_loopHeaders.mpr
      ⟨(hd.found.header v).mpr ⟨x, hx, hedge, hdom⟩, hx.tail hedge⟩
    refine Or.inl ⟨hdom, ?_⟩
    rw [mapTo, if_pos (hback.mpr hdom), loopNode_eq hmem, Option.getD_some]
  · refine Or.inr ⟨hdom, ?_⟩
    rw [mapTo, if_neg (fun hpos => hdom (hback.mp hpos))]

theorem mem_blockOut : y ∈ d.blockOut f x ↔ ∃ target ∈ f.successors x, d.mapTo f x target = y := by
  unfold blockOut successors
  cases f.ends[x]? with
  | none => simp
  | some e =>
    cases e with
    | goto target => simp [Ends.successors, eq_comm]
    | branch taken fall =>
      simp only [Option.map_some, Option.getD_some, Ends.successors, List.map_cons, List.map_nil,
        List.destutter_pair]
      split
      · simp [eq_comm]
      · rename_i heq
        simp only [not_not] at heq
        simp [heq, eq_comm]

theorem foldl_push (l found : List Nat) : ∀ m,
    m ∈ l.foldl (fun exits mapped => if exits.contains mapped then exits else exits ++ [mapped])
      found ↔ m ∈ found ∨ m ∈ l := by
  induction l generalizing found with
  | nil => simp
  | cons a l ih =>
    intro m
    rw [List.foldl_cons, ih, List.mem_cons]
    by_cases ha : a ∈ found
    · rw [if_pos (by simpa using ha)]
      constructor
      · intro hm
        exact hm.imp_right Or.inr
      · intro hm
        rcases hm with hm | rfl | hm
        · exact Or.inl hm
        · exact Or.inl ha
        · exact Or.inr hm
    · rw [if_neg (by simpa using ha), List.mem_append, List.mem_singleton, or_assoc]

theorem mem_exitEdges : y ∈ d.exitEdges f h ↔ ∃ x v, f.Reach x ∧ d.inBody h x ∧
    To.node v ∈ f.successors x ∧ ¬d.inBody h v ∧ d.mapTo f x (.node v) = y := by
  simp only [exitEdges, List.mem_flatMap, List.mem_filter, List.mem_range, Bool.and_eq_true,
    List.mem_filterMap, f.reachable_iff]
  constructor
  · intro hy
    obtain ⟨x, ⟨-, hx, hin⟩, target, htarget, hmap⟩ := hy
    cases target with
    | node v =>
      simp only at hmap
      split at hmap
      · cases hmap
      · rename_i hout
        exact ⟨x, v, hx, hin, htarget, hout, Option.some.inj hmap⟩
    | ended => cases hmap
    | leave => cases hmap
  · intro hy
    obtain ⟨x, v, hx, hin, htarget, hout, hmap⟩ := hy
    exact ⟨x, ⟨lt_len_of_reach hx, hx, hin⟩, .node v, htarget, by simp [hout, hmap]⟩

theorem mem_exits (hy : y ∈ d.exits f h) : y = sink f ∨ y ∈ d.exitEdges f h := by
  unfold exits at hy
  dsimp only at hy
  split at hy
  · exact Or.inl (by simpa using hy)
  · exact Or.inr (((foldl_push (d.exitEdges f h) [] y).mp hy).resolve_left (by simp))

theorem exits_ne_nil : d.exits f h ≠ [] := by
  unfold exits
  dsimp only
  split
  · simp
  · rename_i hne
    simpa using hne

theorem out_of_block (hd : f.Solved d) (hx : f.Reach x) (hout : d.Out f x y) :
    y = sink f ∨ (∃ v, f.Edge x v ∧ Dominates f.Edge 0 v x ∧ d.loopNode f v = some y) ∨
      (f.Edge x y ∧ f.rpoIndex x < f.rpoIndex y) := by
  rw [Out, collapsed_block hx, mem_blockOut] at hout
  obtain ⟨target, htarget, rfl⟩ := hout
  cases target with
  | ended => exact Or.inl rfl
  | leave => exact Or.inl rfl
  | node v =>
    have hedge := edge_of_mem htarget
    rcases mapTo_cases hd hx htarget with ⟨hdom, hnode⟩ | ⟨hnot, hmap⟩
    · exact Or.inr (Or.inl ⟨v, hedge, hdom, hnode⟩)
    · rw [hmap]
      exact Or.inr (Or.inr ⟨hedge, rises_of_not_dominates hd hx hedge hnot⟩)

theorem out_of_loop (hd : f.Solved d) (hx : d.loopNode f h = some x) (hout : d.Out f x y) :
    y = sink f ∨ ∃ w v, f.Reach w ∧ InLoop f.Edge 0 h w ∧ f.Edge w v ∧ ¬InLoop f.Edge 0 h v ∧
      ((Dominates f.Edge 0 v w ∧ d.loopNode f v = some y) ∨
        (y = v ∧ f.rpoIndex w < f.rpoIndex v)) := by
  rw [Out, collapsed_loop hx] at hout
  cases mem_exits hout with
  | inl hsink => exact Or.inl hsink
  | inr hexit =>
    obtain ⟨w, v, hw, hin, htarget, hnot, rfl⟩ := mem_exitEdges.mp hexit
    have hheader := (mem_loopHeaders.mp (mem_of_loopNode hx)).1
    rw [hd.found.body h hheader] at hin hnot
    have hedge := edge_of_mem htarget
    refine Or.inr ⟨w, v, hw, hin, hedge, hnot, ?_⟩
    rcases mapTo_cases hd hw htarget with ⟨hdom, hnode⟩ | ⟨hback, hmap⟩
    · exact Or.inl ⟨hdom, hnode⟩
    · exact Or.inr ⟨hmap, rises_of_not_dominates hd hw hedge hback⟩

end Edges

/-! ## No cycle -/

section Acyclic

variable {a h x y : Nat}

/-- What the loop of `h` holds of the acyclic graph: its blocks, and the nodes of the loops whose
headers are among them. -/
def Within (f : Flow) (d : Dominators) (h x : Nat) : Prop :=
  (f.Reach x ∧ InLoop f.Edge 0 h x) ∨ ∃ k, d.loopNode f k = some x ∧ InLoop f.Edge 0 h k

theorem source_inLoop_of {v : Nat} (hx : f.Reach x) (hedge : f.Edge x v)
    (hdom : Dominates f.Edge 0 v x) : InLoop f.Edge 0 v x := by
  apply source_inLoop _ hdom
  refine f.mem_retreating_iff.mpr ⟨hx, hedge, ?_⟩
  cases rank_lt_of_dominates f.ordered hx hdom with
  | inl heq => rw [heq]
  | inr hlt => exact hlt.le

theorem inLoop_of_back {k : Nat} (hk : InLoop f.Edge 0 h k) (hx : f.Reach x) (hedge : f.Edge x k)
    (hdom : Dominates f.Edge 0 k x) : InLoop f.Edge 0 h x := by
  have hown := source_inLoop_of hx hedge hdom
  by_cases hkh : k = h
  · rwa [← hkh]
  · have hkreach : f.Reach k := hx.tail hedge
    apply InLoop.nested hkreach hk (Or.inl rfl) _ hown
    intro hback
    exact hkh (hback.dominates.antisymm hkreach hk.dominates)

/-- A block of a cycle of the acyclic graph comes after every loop of the cycle begins, where `h` is
the header of the first of those. -/
theorem first_lt (hd : f.Solved d) (hcycle : ∀ b, Round (d.Out f) a b → b ≠ sink f)
    (hmin : ∀ g x, d.loopNode f g = some x → Round (d.Out f) a x → f.rpoIndex h ≤ f.rpoIndex g)
    (hy : f.Reach y) (hround : Round (d.Out f) a y) : f.rpoIndex h < f.rpoIndex y := by
  generalize hn : f.rpoIndex y = n
  induction n using Nat.strong_induction_on generalizing y with
  | _ n ih =>
    obtain ⟨p, hout, hp⟩ := hround.pred
    cases of_out hout with
    | inl hpreach =>
      rcases out_of_block hd hpreach hout with heq | ⟨v, -, -, hnode⟩ | ⟨-, hlt⟩
      · exact absurd heq (hcycle y hround)
      · exact absurd hy (not_reach_of_loopNode hnode)
      · exact (ih _ (by omega) hpreach hp rfl).trans (by omega)
    | inr hloop =>
      obtain ⟨g, hg⟩ := hloop
      rcases out_of_loop hd hg hout with heq | ⟨w, v, hw, hin, -, -, ⟨-, hnode⟩ | ⟨heq, hlt⟩⟩
      · exact absurd heq (hcycle y hround)
      · exact absurd hy (not_reach_of_loopNode hnode)
      · have hle := hmin g p hg hp
        have hle' := rpoIndex_le_of_inLoop hw hin
        rw [← heq] at hlt
        omega

/-- Nothing on the cycle enters the loop of `h` from outside: that is by the header alone, which is
not on it. -/
theorem within_of_out (hd : f.Solved d) (hcycle : ∀ b, Round (d.Out f) a b → b ≠ sink f)
    (hfirst : ∀ y, f.Reach y → Round (d.Out f) a y → y ≠ h)
    (hy : Round (d.Out f) a y) (hout : d.Out f x y) (hin : d.Within f h y) : d.Within f h x := by
  rcases hin with ⟨hyreach, hiny⟩ | ⟨k, hk, hink⟩
  · have hne := hfirst y hyreach hy
    cases of_out hout with
    | inl hx =>
      rcases out_of_block hd hx hout with heq | ⟨v, -, -, hnode⟩ | ⟨hedge, -⟩
      · exact absurd heq (hcycle y hy)
      · exact absurd hyreach (not_reach_of_loopNode hnode)
      · exact Or.inl ⟨hx, hiny.entered hx hedge hne⟩
    | inr hloop =>
      obtain ⟨k, hk⟩ := hloop
      rcases out_of_loop hd hk hout with heq | ⟨w, v, hw, hinw, hedge, hnot, ⟨-, hnode⟩ | ⟨heq, -⟩⟩
      · exact absurd heq (hcycle y hy)
      · exact absurd hyreach (not_reach_of_loopNode hnode)
      · rw [← heq] at hedge hnot
        refine Or.inr ⟨k, hk, ?_⟩
        by_contra hkout
        exact hnot (InLoop.nested hw hinw (hiny.entered hw hedge hne) hkout hiny)
  · cases of_out hout with
    | inl hx =>
      rcases out_of_block hd hx hout with heq | ⟨v, hedge, hdom, hnode⟩ | ⟨hedge, -⟩
      · exact absurd heq (hcycle y hy)
      · rw [loopNode_inj hnode hk] at hedge hdom
        exact Or.inl ⟨hx, inLoop_of_back hink hx hedge hdom⟩
      · exact absurd (hx.tail hedge) (not_reach_of_loopNode hk)
    | inr hloop =>
      obtain ⟨g, hg⟩ := hloop
      rcases out_of_loop hd hg hout with
        heq | ⟨w, v, hw, hinw, hedge, hnot, ⟨hdom, hnode⟩ | ⟨heq, -⟩⟩
      · exact absurd heq (hcycle y hy)
      · rw [loopNode_inj hnode hk] at hedge hdom hnot
        refine Or.inr ⟨g, hg, ?_⟩
        by_contra hgout
        exact hnot (InLoop.nested hw hinw (inLoop_of_back hink hw hedge hdom) hgout hink)
      · rw [← heq] at hedge
        exact absurd (hw.tail hedge) (not_reach_of_loopNode hk)

/-- A cycle has a loop's node on it: its blocks alone only rise. -/
theorem exists_loop (hd : f.Solved d) (hcycle : ∀ b, Round (d.Out f) a b → b ≠ sink f)
    (hround : Round (d.Out f) a a) : ∃ h x, d.loopNode f h = some x ∧ Round (d.Out f) a x := by
  by_contra hnone
  have hall : ∀ n x, Round (d.Out f) a x → f.rpo.length - f.rpoIndex x ≠ n := by
    intro n
    induction n using Nat.strong_induction_on with
    | _ n ih =>
      intro x hx hlen
      obtain ⟨s, hout, hs⟩ := hx.succ
      have hxreach : f.Reach x := by
        cases of_out hout with
        | inl hreach => exact hreach
        | inr hloop =>
          obtain ⟨h, hh⟩ := hloop
          exact absurd ⟨h, x, hh, hx⟩ hnone
      rcases out_of_block hd hxreach hout with heq | ⟨v, -, -, hnode⟩ | ⟨hedge, hlt⟩
      · exact hcycle s hs heq
      · exact hnone ⟨v, s, hnode, hs⟩
      · have hbound := f.rpoIndex_lt (hxreach.tail hedge)
        exact ih (f.rpo.length - f.rpoIndex s) (by omega) s hs rfl
  exact hall _ a hround rfl

/-- The graph with the back edges sent to the loops' nodes has no cycle. -/
theorem collapsed_acyclic (hd : f.Solved d) : ¬Relation.TransGen (d.Out f) a a := by
  intro htrans
  have hround : Round (d.Out f) a a := ⟨htrans, htrans⟩
  have hcycle : ∀ b, Round (d.Out f) a b → b ≠ sink f := by
    intro b hb heq
    obtain ⟨s, hout, -⟩ := hb.succ
    rw [heq, Out, collapsed_sink] at hout
    cases hout
  -- The loop of the cycle whose header comes first.
  obtain ⟨h, x, hx, hxround, hmin⟩ : ∃ h x, d.loopNode f h = some x ∧ Round (d.Out f) a x ∧
      ∀ g y, d.loopNode f g = some y → Round (d.Out f) a y → f.rpoIndex h ≤ f.rpoIndex g := by
    classical
    have hex : ∃ n h x, d.loopNode f h = some x ∧ Round (d.Out f) a x ∧ f.rpoIndex h = n := by
      obtain ⟨h, x, hx, hxround⟩ := exists_loop hd hcycle hround
      exact ⟨f.rpoIndex h, h, x, hx, hxround, rfl⟩
    obtain ⟨h, x, hx, hxround, hn⟩ := Nat.find_spec hex
    refine ⟨h, x, hx, hxround, fun g y hy hyround => ?_⟩
    rw [hn]
    exact Nat.find_min' hex ⟨g, y, hy, hyround, rfl⟩
  have hfirst : ∀ y, f.Reach y → Round (d.Out f) a y → y ≠ h := by
    intro y hy hyround heq
    have hlt := first_lt hd hcycle hmin hy hyround
    rw [heq] at hlt
    omega
  have hwithin : d.Within f h x := Or.inr ⟨h, hx, Or.inl rfl⟩
  obtain ⟨s, hout, hs⟩ := hxround.succ
  have hin : d.Within f h s := hxround.all hwithin
    (fun _ _ _ hyround hedge => within_of_out hd hcycle hfirst hyround hedge) hs
  -- But the loop's node goes on out of the loop.
  rcases out_of_loop hd hx hout with heq | ⟨w, v, hw, -, hedge, hnot, ⟨-, hnode⟩ | ⟨heq, -⟩⟩
  · exact hcycle s hs heq
  · rcases hin with ⟨hreach, -⟩ | ⟨k, hk, hink⟩
    · exact not_reach_of_loopNode hnode hreach
    · rw [loopNode_inj hk hnode] at hink
      exact hnot hink
  · rcases hin with ⟨-, hins⟩ | ⟨k, hk, -⟩
    · exact hnot (heq ▸ hins)
    · exact not_reach_of_loopNode hk (heq ▸ hw.tail hedge)

end Acyclic

/-! ## The walk over it -/

section Order

variable {x y : Nat}

def Live (f : Flow) (d : Dominators) (x : Nat) : Prop :=
  f.Reach x ∨ x = sink f ∨ ∃ h, d.loopNode f h = some x

theorem live_of_out (hd : f.Solved d) (hout : d.Out f x y) : d.Live f y := by
  cases of_out hout with
  | inl hx =>
    rcases out_of_block hd hx hout with heq | ⟨v, -, -, hnode⟩ | ⟨hedge, -⟩
    · exact Or.inr (Or.inl heq)
    · exact Or.inr (Or.inr ⟨v, hnode⟩)
    · exact Or.inl (hx.tail hedge)
  | inr hloop =>
    obtain ⟨h, hh⟩ := hloop
    rcases out_of_loop hd hh hout with heq | ⟨w, v, hw, -, hedge, -, ⟨-, hnode⟩ | ⟨heq, -⟩⟩
    · exact Or.inr (Or.inl heq)
    · exact Or.inr (Or.inr ⟨v, hnode⟩)
    · rw [heq]
      exact Or.inl (hw.tail hedge)

theorem lt_count_of_live (hx : d.Live f x) : x < d.count f := by
  rcases hx with hx | hx | ⟨h, hh⟩
  · have hlt := lt_len_of_reach hx
    unfold count
    omega
  · rw [hx, sink]
    unfold count
    omega
  · exact (loopNode_bounds hh).2

/-- Every node the walk can come to but the sink goes on. -/
theorem out_of_live (hx : d.Live f x) (hne : x ≠ sink f) : d.collapsed f x ≠ [] := by
  rcases hx with hx | hx | ⟨h, hh⟩
  · rw [collapsed_block hx, blockOut, Ne, List.destutter_eq_nil, List.map_eq_nil_iff]
    obtain ⟨e, he⟩ : ∃ e, f.ends[x]? = some e :=
      ⟨_, List.getElem?_eq_getElem (lt_len_of_reach hx)⟩
    cases e <;> simp [successors, he, Ends.successors]
  · exact absurd hx hne
  · rw [collapsed_loop hh]
    exact exits_ne_nil

def walkedOver (f : Flow) (d : Dominators) : Walk.State Nat :=
  Walk.walk (d.collapsed f) (List.range (d.count f)) 0

theorem collapsed_walked (hd : f.Solved d) :
    Walk.Walked (d.collapsed f) 0 (d.walkedOver f).postorder (d.walkedOver f).retreating := by
  apply Walk.walk_walked List.nodup_range
  · intro x _ y hy
    exact List.mem_range.mpr (lt_count_of_live (live_of_out hd hy))
  · exact List.mem_range.mpr (lt_count_of_live (Or.inl .refl))

/-- The walk meets no edge back. -/
theorem retreating_nil (hd : f.Solved d) : (d.walkedOver f).retreating = [] := by
  rw [List.eq_nil_iff_forall_not_mem]
  intro edge hmem
  have hretreat := (collapsed_walked hd).retreats edge hmem
  apply collapsed_acyclic hd (a := edge.2)
  have hpath : Relation.ReflTransGen (d.Out f) edge.2 edge.1 :=
    Relation.ReflTransGen.mono (fun _ _ h => h.1) _ _ hretreat.path
  exact Relation.TransGen.tail' hpath hretreat.edge

theorem before_of_out (hd : f.Solved d) (hx : x ∈ (d.walkedOver f).postorder)
    (hout : d.Out f x y) : Walk.Before (d.walkedOver f).postorder y x := by
  have hedge := (collapsed_walked hd).edge x hx y hout
  rw [retreating_nil hd] at hedge
  exact hedge.resolve_right (by simp)

/-- The walk comes to every reachable block. -/
theorem mem_postorder_of_reach (hd : f.Solved d) (hx : f.Reach x) :
    x ∈ (d.walkedOver f).postorder := by
  rw [(collapsed_walked hd).mem]
  have hrises := f.ordered x hx
  clear hx
  induction hrises with
  | refl => exact .refl
  | @tail u v hpath hrise ih =>
    apply ih.tail
    have hu : f.Reach u := Relation.ReflTransGen.mono (fun _ _ h => h.1) _ _ hpath
    rw [collapsed_block hu, mem_blockOut]
    obtain ⟨target, htarget, hnode⟩ := List.mem_filterMap.mp hrise.1
    obtain rfl : target = .node v := by
      cases target <;> simp [To.node?] at hnode
      rw [hnode]
    refine ⟨.node v, htarget, ?_⟩
    rcases mapTo_cases hd hu htarget with ⟨hdom, -⟩ | ⟨-, hmap⟩
    · have hle := rank_lt_of_dominates f.ordered hu hdom
      have hlt := hrise.2
      cases hle with
      | inl heq => rw [heq] at hlt; omega
      | inr hlt' => omega
    · exact hmap

theorem live_of_mem (hd : f.Solved d) (hx : x ∈ (d.walkedOver f).postorder) : d.Live f x := by
  rw [(collapsed_walked hd).mem] at hx
  cases Relation.ReflTransGen.cases_tail hx with
  | inl heq =>
    rw [heq]
    exact Or.inl .refl
  | inr hstep =>
    obtain ⟨u, -, hout⟩ := hstep
    exact live_of_out hd hout

end Order

/-! ## Where nodes join -/

section Join

variable {s : Found} {a b node : Nat}

theorem joinFuel_spec (hs : Rooted (sink f) s.ipdom s.depth) (fuel : Nat) :
    ∀ {a b}, (s.ipdom a).isSome → (s.ipdom b).isSome → s.depth a + s.depth b < fuel →
      ∃ m, joinFuel s fuel a b = some m ∧ (s.ipdom m).isSome ∧
        ∀ e, Above s.ipdom e m ↔ Above s.ipdom e a ∧ Above s.ipdom e b := by
  induction fuel with
  | zero => omega
  | succ fuel ih =>
    intro a b ha hb hfuel
    by_cases hab : a = b
    · exact ⟨a, by simp [joinFuel, hab], ha, fun e => by simp [hab]⟩
    · have hpositive : ∀ {v}, (s.ipdom v).isSome → v ≠ sink f → 0 < s.depth v := by
        intro v hv hne
        obtain ⟨u, hu⟩ := Option.isSome_iff_exists.mp hv
        rw [hs.link hu hne]
        omega
      by_cases hle : s.depth b ≤ s.depth a
      · have hnot : ¬Above s.ipdom a b := by
          intro habove
          have hdepth := hs.depth_above habove
          exact absurd hab (by omega)
        have hne : a ≠ sink f := by
          intro heq
          have hzero := hs.bottom
          have hpos := hpositive hb (fun hb => hab (heq.trans hb.symm))
          rw [heq] at hle
          omega
        obtain ⟨u, hu⟩ := Option.isSome_iff_exists.mp ha
        have hdepth := hs.link hu hne
        obtain ⟨m, hm, hsome, hshared⟩ := ih (hs.closed hu) hb (by omega)
        refine ⟨m, by simp [joinFuel, hab, hle, hu, hm], hsome, fun e => ?_⟩
        rw [hshared e]
        exact (Above.move hu hnot).symm
      · have hnot : ¬Above s.ipdom b a := by
          intro habove
          have hdepth := hs.depth_above habove
          exact absurd hab (by omega)
        have hne : b ≠ sink f := by
          intro heq
          rw [heq, hs.bottom] at hle
          omega
        obtain ⟨u, hu⟩ := Option.isSome_iff_exists.mp hb
        have hdepth := hs.link hu hne
        obtain ⟨m, hm, hsome, hshared⟩ := ih ha (hs.closed hu) (by omega)
        refine ⟨m, by simp [joinFuel, hab, hle, hu, hm], hsome, fun e => ?_⟩
        rw [hshared e, and_comm, and_comm (a := Above s.ipdom e a)]
        exact (Above.move hu hnot).symm

theorem foldlM_joinOne (hs : Rooted (sink f) s.ipdom s.depth) (l : List Nat) :
    ∀ {a}, (∀ v ∈ a :: l, (s.ipdom v).isSome) →
      ∃ m, l.foldlM (joinOne s) (some a) = some (some m) ∧ (s.ipdom m).isSome ∧
        ∀ e, Above s.ipdom e m ↔ ∀ v ∈ a :: l, Above s.ipdom e v := by
  induction l with
  | nil =>
    intro a hall
    exact ⟨a, rfl, hall a (by simp), by simp⟩
  | cons b l ih =>
    intro a hall
    obtain ⟨m, hm, hsome, hshared⟩ := joinFuel_spec hs (s.depth a + s.depth b + 1)
      (hall a (by simp)) (hall b (by simp)) (by omega)
    obtain ⟨m', hm', hsome', hshared'⟩ := ih (a := m) (by
      intro v hv
      rw [List.mem_cons] at hv
      cases hv with
      | inl hv => rwa [hv]
      | inr hv => exact hall v (by simp [hv]))
    refine ⟨m', by simp [joinOne, hm, hm'], hsome', fun e => ?_⟩
    rw [hshared' e]
    simp only [List.forall_mem_cons, hshared e, and_assoc]

theorem foldlM_join (hs : Rooted (sink f) s.ipdom s.depth) {l : List Nat} (hne : l ≠ [])
    (hall : ∀ v ∈ l, (s.ipdom v).isSome) :
    ∃ m, l.foldlM (joinOne s) none = some (some m) ∧ (s.ipdom m).isSome ∧
      ∀ e, Above s.ipdom e m ↔ ∀ v ∈ l, Above s.ipdom e v := by
  cases l with
  | nil => exact absurd rfl hne
  | cons a l =>
    obtain ⟨m, hm, hrest⟩ := foldlM_joinOne hs l hall
    exact ⟨m, by simpa [joinOne] using hm, hrest⟩

structure Posted (f : Flow) (d : Dominators) (done : List Nat) (s : Found) : Prop where
  rooted : Rooted (sink f) s.ipdom s.depth
  isSome : ∀ v, (s.ipdom v).isSome ↔ v ∈ done ∨ v = sink f
  joined : Rooted.Joined (d.Out f) (sink f) s.ipdom

theorem posted_start : d.Posted f [] (startFound f) := by
  have honly : ∀ {v u}, (startFound f).ipdom v = some u → v = sink f ∧ u = sink f := by
    intro v u hup
    by_cases hv : v = sink f
    · rw [hv] at hup
      simp only [startFound, Function.update_self, Option.some.injEq] at hup
      exact ⟨hv, hup.symm⟩
    · simp [startFound, Function.update_of_ne hv] at hup
  refine ⟨⟨by simp [startFound], rfl, ?_, ?_⟩, ?_, ?_⟩
  · intro v u hup hne
    exact absurd (honly hup).1 hne
  · intro v u hup
    rw [(honly hup).2]
    simp [startFound]
  · intro v
    by_cases hv : v = sink f
    · simp [startFound, hv]
    · simp [startFound, hv]
  · intro v u hup hne
    exact absurd (honly hup).1 hne

theorem postOne_spec {done : List Nat} (hs : d.Posted f done s) (hnew : node ∉ done)
    (hnext : node ≠ sink f → d.collapsed f node ≠ [])
    (hall : ∀ v ∈ d.collapsed f node, v ∈ done ∨ v = sink f) :
    ∃ s', d.postOne f s node = some s' ∧ d.Posted f (done ++ [node]) s' := by
  by_cases hsink : node = sink f
  · refine ⟨s, by simp [postOne, hsink], hs.rooted, ?_, hs.joined⟩
    intro v
    rw [hs.isSome v, List.mem_append, List.mem_singleton, hsink]
    tauto
  · have hsome : ∀ v ∈ d.collapsed f node, (s.ipdom v).isSome :=
      fun v hv => (hs.isSome v).mpr (hall v hv)
    have hnone : s.ipdom node = none := by
      rw [← Option.not_isSome_iff_eq_none, hs.isSome node]
      tauto
    obtain ⟨m, hm, hmsome, hshared⟩ := foldlM_join hs.rooted (hnext hsink) hsome
    have hmnode : m ≠ node := by
      intro heq
      rw [heq, hnone] at hmsome
      cases hmsome
    have habove : ∀ {e v}, (s.ipdom v).isSome →
        (Above (Function.update s.ipdom node (some m)) e v ↔ Above s.ipdom e v) :=
      fun hv => hs.rooted.above_update hnone hv
    have hkept : ∀ {v}, (s.ipdom v).isSome →
        Function.update s.ipdom node (some m) v = s.ipdom v := by
      intro v hv
      apply Function.update_of_ne
      intro heq
      rw [heq, hnone] at hv
      cases hv
    have hdepth : ∀ {v}, (s.ipdom v).isSome →
        Function.update s.depth node (s.depth m + 1) v = s.depth v := by
      intro v hv
      apply Function.update_of_ne
      intro heq
      rw [heq, hnone] at hv
      cases hv
    have hold : ∀ {v u}, v ≠ node → Function.update s.ipdom node (some m) v = some u →
        s.ipdom v = some u := by
      intro v u hv hup
      rwa [Function.update_of_ne hv] at hup
    have hat : ∀ {u}, Function.update s.ipdom node (some m) node = some u → u = m := by
      intro u hup
      rw [Function.update_self, Option.some.injEq] at hup
      exact hup.symm
    refine ⟨⟨Function.update s.ipdom node (some m), Function.update s.depth node (s.depth m + 1)⟩,
      by simp [postOne, hsink, hm], ⟨?_, ?_, ?_, ?_⟩, ?_, ?_⟩
    · exact (hkept (by simp [hs.rooted.root])).trans hs.rooted.root
    · exact (hdepth (by simp [hs.rooted.root])).trans hs.rooted.bottom
    · intro v u hup hne
      simp only at hup ⊢
      by_cases hv : v = node
      · rw [hv] at hup ⊢
        rw [hat hup, Function.update_self, hdepth hmsome]
      · have hup' := hold hv hup
        rw [hdepth (by simp [hup']), hdepth (hs.rooted.closed hup')]
        exact hs.rooted.link hup' hne
    · intro v u hup
      simp only at hup ⊢
      by_cases hv : v = node
      · rw [hv] at hup
        rwa [hat hup, hkept hmsome]
      · have hclosed := hs.rooted.closed (hold hv hup)
        rwa [hkept hclosed]
    · intro v
      rw [List.mem_append, List.mem_singleton]
      by_cases hv : v = node
      · simp [hv]
      · simp [hs.isSome v, hv]
    · intro v u hup hne
      simp only at hup ⊢
      by_cases hv : v = node
      · rw [hv] at hup ⊢
        rw [hat hup]
        refine ⟨fun t ht => by rw [hkept (hsome t ht)]; exact hsome t ht, fun e => ?_⟩
        rw [habove hmsome, hshared e]
        constructor
        · intro hd t ht
          exact (habove (hsome t ht)).mpr (hd t ht)
        · intro hd t ht
          exact (habove (hsome t ht)).mp (hd t ht)
      · have hup' := hold hv hup
        obtain ⟨hsuccs, hmeet⟩ := hs.joined hup' hne
        refine ⟨fun t ht => by rw [hkept (hsuccs t ht)]; exact hsuccs t ht, fun e => ?_⟩
        rw [habove (hs.rooted.closed hup'), hmeet e]
        constructor
        · intro hd t ht
          exact (habove (hsuccs t ht)).mpr (hd t ht)
        · intro hd t ht
          exact (habove (hsuccs t ht)).mp (hd t ht)

theorem foldlM_postOne (hd : f.Solved d) (rest : List Nat) :
    ∀ {done s}, done ++ rest = (d.walkedOver f).postorder → d.Posted f done s →
      ∃ s', rest.foldlM (d.postOne f) s = some s' ∧
        d.Posted f (d.walkedOver f).postorder s' := by
  induction rest with
  | nil =>
    intro done s hdone hs
    rw [List.append_nil] at hdone
    exact ⟨s, rfl, hdone ▸ hs⟩
  | cons node rest ih =>
    intro done s hdone hs
    have hnodup := (collapsed_walked hd).nodup
    rw [← hdone] at hnodup
    have hmem : node ∈ (d.walkedOver f).postorder := by
      rw [← hdone]
      simp
    have hnew : node ∉ done := fun hin =>
      (List.disjoint_of_nodup_append hnodup) hin (List.mem_cons_self ..)
    have hall : ∀ v ∈ d.collapsed f node, v ∈ done ∨ v = sink f := by
      intro v hv
      have hbefore := before_of_out hd hmem hv
      rw [← hdone] at hbefore
      exact Or.inl (Walk.mem_of_before hnodup hbefore)
    obtain ⟨s', hone, hs'⟩ := postOne_spec hs hnew (out_of_live (live_of_mem hd hmem)) hall
    obtain ⟨s'', hrest, hlast⟩ := ih (by simpa using hdone) hs'
    exact ⟨s'', by simp [hone, hrest], hlast⟩

end Join

theorem reaches_sink (hd : f.Solved d) {x : Nat} (hx : x ∈ (d.walkedOver f).postorder) :
    Relation.ReflTransGen (d.Out f) x (sink f) := by
  generalize hn : (d.walkedOver f).postorder.idxOf x = n
  induction n using Nat.strong_induction_on generalizing x with
  | _ n ih =>
    by_cases hsink : x = sink f
    · rw [hsink]
    · obtain ⟨y, hy⟩ := List.exists_mem_of_ne_nil _ (out_of_live (live_of_mem hd hx) hsink)
      have hbefore := before_of_out hd hx hy
      have hlt := Walk.idxOf_lt_of_before (collapsed_walked hd).nodup hbefore
      exact .head hy (ih _ (by omega) (hbefore.subset (by simp)) rfl)

/-- What `post_dominators` finds of a reachable block: it leads to the sink, and its pointer is the
one immediate post-dominator it has. -/
structure PostFound (f : Flow) (d : Dominators) (p : PostDominators) (v : Nat) : Prop where
  ends : Relation.ReflTransGen (d.Out f) v (sink f)
  ipdom : ∃ i, p.ipdom v = some i ∧ Immediate (PostDominates (d.Out f) (sink f)) i v ∧
    ∀ j, Immediate (PostDominates (d.Out f) (sink f)) j v → j = i

theorem postDominators_found (hd : f.Solved d) : ∃ p, d.postDominators f = some (some p) ∧
    p.loopNode = d.loopNode f ∧ ∀ v, f.Reach v → d.PostFound f p v := by
  obtain ⟨s, hfold, hs⟩ := foldlM_postOne hd (d.walkedOver f).postorder (List.nil_append _)
    posted_start
  refine ⟨⟨s.ipdom, d.loopNode f⟩, ?_, rfl, ?_⟩
  · have hwalked : Walk.walk (d.collapsed f) (List.range (d.count f)) 0 = d.walkedOver f := rfl
    simp [postDominators, hwalked, retreating_nil hd, hfold]
  · intro v hv
    have hmem := mem_postorder_of_reach hd hv
    have hne : v ≠ sink f := by
      have hlt := lt_len_of_reach hv
      unfold sink
      omega
    obtain ⟨i, hi⟩ := Option.isSome_iff_exists.mp ((hs.isSome v).mpr (Or.inl hmem))
    refine ⟨reaches_sink hd hmem, i, hi, ?_⟩
    apply hs.rooted.immediate hi hne
    intro e w hw
    apply hs.rooted.above_iff hs.joined (fun x => (d.walkedOver f).postorder.idxOf x) _ hw
    intro x y hx hout
    cases (hs.isSome x).mp hx with
    | inl hxmem =>
      exact Walk.idxOf_lt_of_before (collapsed_walked hd).nodup (before_of_out hd hxmem hout)
    | inr heq =>
      rw [heq, Out, collapsed_sink] at hout
      cases hout

end Dominators

/-- Wherever `dominators` succeeds so does `post_dominators`, with the immediate post-dominator of
every reachable block in the graph it works on. -/
theorem postDominators_exact (f : Flow) : f.dominators = some none ∨ ∃ d p,
    f.dominators = some (some d) ∧ d.postDominators f = some (some p) ∧
      p.loopNode = d.loopNode f ∧ ∀ v, f.Reach v → d.PostFound f p v := by
  rcases f.dominators_found with ⟨hnone, -⟩ | ⟨d, hd, hred, hlinked, hsettled, hfound⟩
  · exact Or.inl hnone
  · obtain ⟨p, hp, hrest⟩ := Dominators.postDominators_found ⟨hred, hlinked, hsettled, hfound⟩
    exact Or.inr ⟨d, p, hd, hp, hrest⟩

end Orbistoun.Translate.Structured.Flow
