import Orbistoun.Lib.DominatorTree

/-! # Post-dominators of an acyclic graph

Each vertex has a pointer to where its successors meet, counted by its depth below the sink. Taken
in an order in which successors come first, what stands above a vertex is what every path from it to
the sink passes.
-/

namespace Orbistoun.Lib.Dominance

variable {V : Type*} {E : V → V → Prop} {sink : V}

theorem postDominates_iff {p v : V} (hne : v ≠ sink) :
    PostDominates E sink p v ↔ p = v ∨ ∀ s, E v s → PostDominates E sink p s := by
  constructor
  · intro h
    by_cases hpv : p = v
    · exact Or.inl hpv
    · refine Or.inr (fun s hedge l hl => ?_)
      obtain ⟨l', hl', hmem⟩ := Path.cons hedge hl
      exact (hmem p (h l' hl')).resolve_left hpv
  · intro h l hl
    cases h with
    | inl hpv =>
      rw [hpv]
      exact hl.first_mem
    | inr hall =>
      cases hl.uncons with
      | inl heq => exact absurd heq hne
      | inr hrest =>
        obtain ⟨s, l', hedge, hl', hsub⟩ := hrest
        exact hsub (hall s hedge l' hl')

theorem postDominates_sink {p : V} :
    PostDominates E sink p sink ↔ p = sink := by
  constructor
  · intro h
    simpa using h [sink] .start
  · intro h l hl
    rw [h]
    exact hl.last_mem

/-- Pointers down to the sink, each vertex one deeper than where it points. -/
structure Rooted (sink : V) (up : V → Option V) (depth : V → Nat) : Prop where
  root : up sink = some sink
  bottom : depth sink = 0
  link : ∀ {v u}, up v = some u → v ≠ sink → depth v = depth u + 1
  closed : ∀ {v u}, up v = some u → (up u).isSome

namespace Rooted

variable {up : V → Option V} {depth : V → Nat} {d u v : V}

theorem above_sink (h : Rooted sink up depth) (habove : Above up d v) (hv : v = sink) :
    d = sink := by
  induction habove using Relation.ReflTransGen.head_induction_on with
  | refl => exact hv
  | head hstep _ ih =>
    rw [hv, h.root] at hstep
    exact ih (Option.some.inj hstep).symm

theorem depth_above (h : Rooted sink up depth) (habove : Above up d v) :
    d = v ∨ depth d < depth v := by
  induction habove using Relation.ReflTransGen.head_induction_on with
  | refl => exact Or.inl rfl
  | @head v u hstep hrest ih =>
    by_cases hv : v = sink
    · rw [hv, h.root] at hstep
      rw [hv, Option.some.inj hstep]
      exact ih
    · have hdepth := h.link hstep hv
      cases ih with
      | inl heq =>
        rw [heq]
        exact Or.inr (by omega)
      | inr hlt => exact Or.inr (by omega)

theorem isSome_above (h : Rooted sink up depth) (hv : (up v).isSome) (habove : Above up d v) :
    (up d).isSome := by
  induction habove using Relation.ReflTransGen.head_induction_on with
  | refl => exact hv
  | head hstep _ ih => exact ih (h.closed hstep)

/-- A vertex with no pointer yet stands above none that has one. -/
theorem above_update [DecidableEq V] (h : Rooted sink up depth) {node : V} (hnode : up node = none)
    {new : Option V} (hv : (up v).isSome) :
    Above (Function.update up node new) d v ↔ Above up d v := by
  have hnever : ∀ {x}, Above up x v → x ≠ node := by
    intro x hx heq
    have hsome := h.isSome_above hv hx
    rw [heq, hnode] at hsome
    cases hsome
  constructor
  · intro habove
    have hold : Above up d v := by
      induction habove with
      | refl => exact .refl
      | tail _ hstep ih =>
        rw [Function.update_of_ne (hnever ih)] at hstep
        exact ih.tail hstep
    exact hold
  · intro habove
    induction habove with
    | refl => exact .refl
    | tail hrest hstep ih =>
      apply ih.tail
      rwa [Function.update_of_ne (hnever hrest)]

/-- Every pointer is to where its vertex's successors meet. -/
def Joined (E : V → V → Prop) (sink : V) (up : V → Option V) : Prop :=
  ∀ {v u}, up v = some u → v ≠ sink →
    (∀ s, E v s → (up s).isSome) ∧ ∀ d, Above up d u ↔ ∀ s, E v s → Above up d s

theorem above_iff (h : Rooted sink up depth) (hjoined : Joined E sink up)
    (order : V → Nat) (horder : ∀ v s, (up v).isSome → E v s → order s < order v) (hv : (up v).isSome) :
    Above up d v ↔ PostDominates E sink d v := by
  generalize hn : order v = n
  induction n using Nat.strong_induction_on generalizing v with
  | _ n ih =>
    by_cases hvs : v = sink
    · rw [hvs, postDominates_sink]
      constructor
      · intro habove
        exact h.above_sink habove rfl
      · intro heq
        rw [heq]
        exact .refl
    · obtain ⟨u, hu⟩ := Option.isSome_iff_exists.mp hv
      obtain ⟨hsome, hmeet⟩ := hjoined hu hvs
      have hone : Above up d v ↔ d = v ∨ Above up d u := by
        constructor
        · intro habove
          exact habove.cases_up hu
        · intro habove
          cases habove with
          | inl heq =>
            rw [heq]
            exact .refl
          | inr habove => exact habove.of_up hu
      rw [hone, hmeet d, postDominates_iff hvs]
      have hall : (∀ s, E v s → Above up d s) ↔ ∀ s, E v s → PostDominates E sink d s := by
        constructor
        · intro hd s hs
          exact (ih (order s) (by rw [← hn]; exact horder v s hv hs) (hsome s hs) rfl).mp (hd s hs)
        · intro hd s hs
          exact (ih (order s) (by rw [← hn]; exact horder v s hv hs) (hsome s hs) rfl).mpr (hd s hs)
      rw [hall]

theorem immediate (h : Rooted sink up depth) (hup : up v = some u) (hne : v ≠ sink)
    (hexact : ∀ {d w}, (up w).isSome → (Above up d w ↔ PostDominates E sink d w)) :
    Immediate (PostDominates E sink) u v ∧
      ∀ j, Immediate (PostDominates E sink) j v → j = u := by
  have hv : (up v).isSome := by simp [hup]
  have hdepth := h.link hup hne
  have himm : Immediate (PostDominates E sink) u v := by
    refine ⟨?_, ?_, ?_⟩
    · intro heq
      rw [heq] at hdepth
      omega
    · exact (hexact hv).mp (Above.of_up .refl hup)
    · intro d hdv hd
      rw [← hexact (h.closed hup)]
      exact (((hexact hv).mpr hd).cases_up hup).resolve_left hdv
  refine ⟨himm, ?_⟩
  intro j hj
  -- Each stands above the other.
  have hju : Above up j u := (hexact (h.closed hup)).mpr (himm.least j hj.ne hj.holds)
  have huj : Above up u j :=
    (hexact (h.isSome_above (h.closed hup) hju)).mpr (hj.least u himm.ne himm.holds)
  cases h.depth_above hju with
  | inl heq => exact heq
  | inr hlt =>
    cases h.depth_above huj with
    | inl heq => exact heq.symm
    | inr hlt' => omega

end Rooted

/-! ## Round a cycle -/

/-- `b` lies on a cycle through `a`. -/
def Round (E : V → V → Prop) (a b : V) : Prop := Relation.TransGen E a b ∧ Relation.TransGen E b a

namespace Round

variable {a b c : V}

theorem pred (h : Round E a b) : ∃ p, E p b ∧ Round E a p := by
  obtain ⟨p, hpath, hedge⟩ := Relation.TransGen.tail'_iff.mp h.1
  have hback : Relation.TransGen E p a := (Relation.TransGen.single hedge).trans h.2
  refine ⟨p, hedge, ?_, hback⟩
  cases Relation.reflTransGen_iff_eq_or_transGen.mp hpath with
  | inl heq =>
    rw [heq]
    rw [heq] at hback
    exact hback
  | inr hpath => exact hpath

theorem succ (h : Round E a b) : ∃ s, E b s ∧ Round E a s := by
  obtain ⟨s, hedge, hpath⟩ := Relation.TransGen.head'_iff.mp h.2
  have hout : Relation.TransGen E a s := h.1.tail hedge
  refine ⟨s, hedge, hout, ?_⟩
  cases Relation.reflTransGen_iff_eq_or_transGen.mp hpath with
  | inl heq =>
    rw [heq] at hout ⊢
    exact hout
  | inr hpath => exact hpath

/-- What every predecessor on the cycle shares, all of the cycle does. -/
theorem all (hb : Round E a b) {P : V → Prop} (hP : P b)
    (hback : ∀ x y, Round E a x → Round E a y → E x y → P y → P x) (hc : Round E a c) : P c := by
  have hpath : Relation.TransGen E c b := hc.2.trans hb.1
  induction hpath using Relation.TransGen.head_induction_on with
  | single hedge => exact hback _ _ hc hb hedge hP
  | @head c s hedge hrest ih =>
    have hs : Round E a s := ⟨hc.1.tail hedge, hrest.trans hb.2⟩
    exact hback _ _ hc hs hedge (ih hs)

end Round

end Orbistoun.Lib.Dominance
