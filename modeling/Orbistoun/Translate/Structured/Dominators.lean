import Orbistoun.Lib.DominatorTree
import Orbistoun.Translate.Structured.Flow

/-! # The dominators of a segment

`dominators` ends, answers nothing just where the flow is irreducible, and otherwise gives each
reachable block's immediate dominator and each header's natural loop.
-/

namespace Orbistoun.Translate.Structured.Flow

open Orbistoun.Lib Orbistoun.Lib.Dominance

variable (f : Flow)

def Edge (u v : Nat) : Prop := v ∈ f.nodeSuccessors u

def Reach (v : Nat) : Prop := Relation.ReflTransGen f.Edge 0 v

/-! ## The order -/

section Order

variable {f}

theorem lt_len_of_edge {u v : Nat} (h : f.Edge u v) : v < f.len := by
  unfold Edge nodeSuccessors successors at h
  cases he : f.ends[u]? with
  | none => simp [he] at h
  | some e =>
    simp only [he, Option.map_some, Option.getD_some] at h
    exact f.inside e (List.mem_of_getElem? he) v h

theorem lt_len_of_reach {v : Nat} (h : f.Reach v) : v < f.len := by
  cases Relation.ReflTransGen.cases_tail h with
  | inl heq =>
    rw [heq]
    exact f.nonempty
  | inr hstep =>
    obtain ⟨u, -, hedge⟩ := hstep
    exact lt_len_of_edge hedge

variable (f)

theorem walked : Walk.Walked f.nodeSuccessors 0 f.postorder f.retreating := by
  apply Walk.walk_walked List.nodup_range
  · intro v _ u hu
    exact List.mem_range.mpr (lt_len_of_edge hu)
  · exact List.mem_range.mpr f.nonempty

theorem mem_postorder (v : Nat) : v ∈ f.postorder ↔ f.Reach v := f.walked.mem v

theorem reachable_iff (v : Nat) : f.reachable v ↔ f.Reach v := by
  rw [reachable, List.contains_iff_mem]
  exact f.mem_postorder v

theorem rpo_nodup : f.rpo.Nodup := List.nodup_reverse.mpr f.walked.nodup

theorem mem_rpo (v : Nat) : v ∈ f.rpo ↔ f.Reach v := by
  rw [rpo, List.mem_reverse]
  exact f.mem_postorder v

theorem rpoIndex_eq {v : Nat} (h : f.Reach v) : f.rpoIndex v = f.rpo.idxOf v := by
  rw [rpoIndex, if_pos ((f.reachable_iff v).mpr h)]

theorem rpoIndex_lt {v : Nat} (h : f.Reach v) : f.rpoIndex v < f.rpo.length := by
  rw [f.rpoIndex_eq h]
  exact List.idxOf_lt_length_of_mem ((f.mem_rpo v).mpr h)

theorem rpo_length_le : f.rpo.length ≤ f.len := by
  have hsub : f.rpo ⊆ List.range f.len := fun v hv =>
    List.mem_range.mpr (lt_len_of_reach ((f.mem_rpo v).mp hv))
  simpa using (List.subperm_of_subset f.rpo_nodup hsub).length_le

theorem rpoIndex_inj {u v : Nat} (hu : f.Reach u) (hv : f.Reach v)
    (h : f.rpoIndex u = f.rpoIndex v) : u = v := by
  rw [f.rpoIndex_eq hu, f.rpoIndex_eq hv] at h
  exact (List.idxOf_inj ((f.mem_rpo u).mpr hu)).mp h

theorem rpoIndex_lt_of_before {u v : Nat} (h : Walk.Before f.postorder v u) :
    f.rpoIndex u < f.rpoIndex v := by
  have hu : f.Reach u := (f.mem_postorder u).mp (h.subset (by simp))
  have hv : f.Reach v := (f.mem_postorder v).mp (h.subset (by simp))
  rw [f.rpoIndex_eq hu, f.rpoIndex_eq hv]
  exact Walk.idxOf_lt_of_before f.rpo_nodup h.reverse

theorem rises_of_forward {u v : Nat} (h : Walk.Forward f.nodeSuccessors f.postorder u v) :
    Rises f.Edge f.rpoIndex u v :=
  ⟨h.1, f.rpoIndex_lt_of_before h.2⟩

theorem ordered : Ordered f.Edge 0 f.rpoIndex := by
  intro v hv
  exact Relation.ReflTransGen.mono (fun _ _ h => f.rises_of_forward h) _ _
    (f.walked.reached v ((f.mem_postorder v).mpr hv))

/-- An edge that does not rise is one the walk met with its target on the stack. -/
theorem mem_retreating_iff {u v : Nat} : (u, v) ∈ f.retreating ↔
    f.Reach u ∧ f.Edge u v ∧ f.rpoIndex v ≤ f.rpoIndex u := by
  constructor
  · intro h
    have hretreat := f.walked.retreats _ h
    refine ⟨(f.mem_postorder u).mp hretreat.mem, hretreat.edge, ?_⟩
    cases hretreat.after with
    | inl heq =>
      simp only at heq
      rw [heq]
    | inr hbefore => exact (f.rpoIndex_lt_of_before hbefore).le
  · intro h
    cases f.walked.edge u ((f.mem_postorder u).mpr h.1) v h.2.1 with
    | inl hbefore =>
      have hlt := f.rpoIndex_lt_of_before hbefore
      omega
    | inr hmem => exact hmem

theorem rises_of_retreating {u v : Nat} (h : (u, v) ∈ f.retreating) :
    Relation.ReflTransGen (Rises f.Edge f.rpoIndex) v u :=
  Relation.ReflTransGen.mono (fun _ _ h => f.rises_of_forward h) _ _ (f.walked.retreats _ h).path

theorem reducible_iff_retreating : Reducible f.Edge 0 ↔
    ∀ u v, (u, v) ∈ f.retreating → Dominates f.Edge 0 v u := by
  rw [reducible_iff f.ordered (fun u v hu hedge hle =>
    f.rises_of_retreating (f.mem_retreating_iff.mpr ⟨hu, hedge, hle⟩))]
  constructor
  · intro h u v hmem
    obtain ⟨hu, hedge, hle⟩ := f.mem_retreating_iff.mp hmem
    exact h u v hu hedge hle
  · intro h u v hu hedge hle
    exact h u v (f.mem_retreating_iff.mpr ⟨hu, hedge, hle⟩)

theorem rpo_cons : ∃ rest, f.rpo = 0 :: rest := by
  have hlast := f.walked.last
  rw [← List.head?_reverse] at hlast
  exact List.head?_eq_some_iff.mp hlast

theorem rpoIndex_zero : f.rpoIndex 0 = 0 := by
  obtain ⟨rest, hrest⟩ := f.rpo_cons
  rw [f.rpoIndex_eq .refl, hrest, List.idxOf_cons_self]

theorem mem_predecessors {p v : Nat} : p ∈ f.predecessors v ↔ f.Reach p ∧ f.Edge p v := by
  simp only [predecessors, List.mem_flatMap, List.mem_map, List.mem_filter, beq_iff_eq, mem_rpo]
  constructor
  · intro h
    obtain ⟨u, hu, w, ⟨hw, rfl⟩, rfl⟩ := h
    exact ⟨hu, hw⟩
  · intro h
    exact ⟨p, h.1, v, ⟨h.2, rfl⟩, rfl⟩

end Order

/-! ## Where two blocks meet -/

/-- Pointers as `dominators` keeps them. -/
abbrev LinkedBy (idom : Nat → Option Nat) : Prop := Linked f.Edge 0 f.rpoIndex idom

section Meet

variable {f} {idom : Nat → Option Nat} {a b : Nat}

theorem climb_spec (h : f.LinkedBy idom) (ha : (idom a).isSome) (fuel : Nat)
    (hfuel : f.rpoIndex a < fuel) :
    ∃ a', f.climb idom b fuel a = some a' ∧ (idom a').isSome ∧ f.rpoIndex a' ≤ f.rpoIndex b ∧
      (f.rpoIndex a ≤ f.rpoIndex b → a' = a) ∧ Above idom a' a ∧
      ∀ d, Above idom d a' ∧ Above idom d b ↔ Above idom d a ∧ Above idom d b := by
  induction fuel generalizing a with
  | zero => omega
  | succ fuel ih =>
    by_cases hlt : f.rpoIndex b < f.rpoIndex a
    · obtain ⟨u, hu⟩ := Option.isSome_iff_exists.mp ha
      have hne : a ≠ 0 := by
        intro heq
        rw [heq, f.rpoIndex_zero] at hlt
        omega
      have hnot : ¬Above idom a b := by
        intro habove
        cases h.rank_above habove with
        | inl heq => rw [heq] at hlt; omega
        | inr hlt' => omega
      have hup := (h.link hu hne).above
      obtain ⟨a', hclimb, hsome, hle, -, habove, hshared⟩ := ih (h.closed hu) (by omega)
      refine ⟨a', ?_, hsome, hle, by omega, habove.of_up hu, ?_⟩
      · simp [climb, hlt, hu, hclimb]
      · intro d
        rw [hshared d]
        exact (Above.move hu hnot).symm
    · exact ⟨a, by simp [climb, hlt], ha, by omega, fun _ => rfl, .refl, fun d => Iff.rfl⟩

theorem intersectFuel_spec (h : f.LinkedBy idom) (fuel : Nat) :
    ∀ {a b}, f.Reach a → f.Reach b → (idom a).isSome → (idom b).isSome →
      f.rpoIndex a + f.rpoIndex b < fuel → ∃ m, f.intersectFuel idom fuel a b = some m ∧
        ∀ d, Above idom d m ↔ Above idom d a ∧ Above idom d b := by
  induction fuel with
  | zero => omega
  | succ fuel ih =>
    intro a b ha hb hasome hbsome hfuel
    by_cases hab : a = b
    · exact ⟨a, by simp [intersectFuel, hab], fun d => by simp [hab]⟩
    · have hturns : ∀ {v}, f.Reach v → f.rpoIndex v < f.turns := by
        intro v hv
        have hlt := f.rpoIndex_lt hv
        have hle := f.rpo_length_le
        unfold turns
        omega
      have hdiffer : f.rpoIndex a ≠ f.rpoIndex b := fun heq => hab (f.rpoIndex_inj ha hb heq)
      obtain ⟨a', hclimb, hasome', hle, hstay, habove, hshared⟩ :=
        climb_spec (b := b) h hasome f.turns (hturns ha)
      obtain ⟨b', hclimb', hbsome', hle', hstay', habove', hshared'⟩ :=
        climb_spec (b := a') h hbsome f.turns (hturns hb)
      have hlow : f.rpoIndex a' + f.rpoIndex b' < f.rpoIndex a + f.rpoIndex b := by
        by_cases hlt : f.rpoIndex a ≤ f.rpoIndex b
        · rw [hstay hlt] at hle' ⊢
          omega
        · have hb' : f.rpoIndex b' ≤ f.rpoIndex b := by
            cases h.rank_above habove' with
            | inl heq => rw [heq]
            | inr hlt => omega
          omega
      obtain ⟨m, hm, hmeet⟩ := ih (h.reach_above ha habove) (h.reach_above hb habove') hasome'
        hbsome' (by omega)
      refine ⟨m, ?_, ?_⟩
      · simp [intersectFuel, hab, hclimb, hclimb', hm]
      · intro d
        rw [hmeet d, ← hshared d, and_comm, hshared' d, and_comm]

theorem intersect_spec (h : f.LinkedBy idom) (ha : f.Reach a) (hb : f.Reach b)
    (hasome : (idom a).isSome) (hbsome : (idom b).isSome) :
    ∃ m, f.intersect idom a b = some m ∧
      ∀ d, Above idom d m ↔ Above idom d a ∧ Above idom d b := by
  apply intersectFuel_spec h f.turns ha hb hasome hbsome
  have hlta := f.rpoIndex_lt ha
  have hltb := f.rpoIndex_lt hb
  have hle := f.rpo_length_le
  unfold turns
  omega

/-- What some of a node's predecessors come to: nothing where none has a pointer, else where those
that do meet. -/
def Met (f : Flow) (idom : Nat → Option Nat) (ps : List Nat) : Option Nat → Prop
  | none => ∀ p ∈ ps, idom p = none
  | some m => f.Reach m ∧ (idom m).isSome ∧
      ∀ d, Above idom d m ↔ ∀ p ∈ ps, (idom p).isSome → Above idom d p

theorem meetOne_spec (h : f.LinkedBy idom) {ps : List Nat} {new : Option Nat} {p : Nat}
    (hp : f.Reach p) (hnew : f.Met idom ps new) :
    ∃ new', f.meetOne idom new p = some new' ∧ f.Met idom (ps ++ [p]) new' := by
  cases hsome : idom p with
  | none =>
    refine ⟨new, by simp [meetOne, hsome], ?_⟩
    cases new with
    | none =>
      intro q hq
      rw [List.mem_append, List.mem_singleton] at hq
      cases hq with
      | inl hq => exact hnew q hq
      | inr hq => rw [hq, hsome]
    | some m =>
      refine ⟨hnew.1, hnew.2.1, fun d => ?_⟩
      rw [hnew.2.2 d]
      simp [or_imp, forall_and, hsome]
  | some u =>
    have hpsome : (idom p).isSome := by simp [hsome]
    cases new with
    | none =>
      refine ⟨some p, by simp [meetOne, hsome], hp, hpsome, fun d => ?_⟩
      have hnone : ∀ q ∈ ps, (idom q).isSome → Above idom d q := by
        intro q hq hqsome
        rw [hnew q hq] at hqsome
        cases hqsome
      simp only [List.mem_append, List.mem_singleton, or_imp, forall_and, forall_eq]
      exact ⟨fun hd => ⟨hnone, fun _ => hd⟩, fun hd => hd.2 hpsome⟩
    | some m =>
      obtain ⟨m', hm', hshared⟩ := intersect_spec h hp hnew.1 hpsome hnew.2.1
      have habove : Above idom m' p := ((hshared m').mp .refl).1
      refine ⟨some m', by simp [meetOne, hsome, hm'], h.reach_above hp habove,
        h.isSome_above hpsome habove, fun d => ?_⟩
      rw [hshared d, hnew.2.2 d]
      simp only [List.mem_append, List.mem_singleton, or_imp, forall_and, forall_eq]
      exact ⟨fun hd => ⟨hd.2, fun _ => hd.1⟩, fun hd => ⟨hd.2 hpsome, hd.1⟩⟩

theorem foldlM_meetOne (h : f.LinkedBy idom) (ps : List Nat) :
    ∀ {done new}, (∀ p ∈ ps, f.Reach p) → f.Met idom done new →
      ∃ new', ps.foldlM (f.meetOne idom) new = some new' ∧ f.Met idom (done ++ ps) new' := by
  induction ps with
  | nil =>
    intro done new _ hnew
    exact ⟨new, rfl, by simpa using hnew⟩
  | cons p ps ih =>
    intro done new hreach hnew
    obtain ⟨new', hone, hmet⟩ := meetOne_spec h (hreach p (by simp)) hnew
    obtain ⟨new'', hrest, hmet'⟩ := ih (fun q hq => hreach q (by simp [hq])) hmet
    exact ⟨new'', by simp [hone, hrest], by simpa using hmet'⟩

/-- A block some of whose predecessors rises to it and has a pointer is sent to where its
predecessors meet. -/
theorem meet_spec (h : f.LinkedBy idom) {v : Nat}
    (hrises : ∃ p, f.Reach p ∧ Rises f.Edge f.rpoIndex p v ∧ (idom p).isSome) :
    ∃ new, f.meet idom v = some (some new) ∧ Linked.Meets f.Edge 0 f.rpoIndex idom v new := by
  have hreach : ∀ p ∈ f.predecessors v, f.Reach p := fun p hp => (f.mem_predecessors.mp hp).1
  have hnothing : f.Met idom [] none := by simp [Met]
  obtain ⟨new, hfold, hmet⟩ := foldlM_meetOne h (f.predecessors v) hreach hnothing
  cases new with
  | none =>
    obtain ⟨p, hp, hrise, hsome⟩ := hrises
    have hnone := hmet p (by simpa using f.mem_predecessors.mpr ⟨hp, hrise.1⟩)
    rw [hnone] at hsome
    cases hsome
  | some new =>
    refine ⟨new, hfold, hrises, fun d => ?_⟩
    rw [hmet.2.2 d]
    constructor
    · intro hall q hq hedge hsome
      exact hall q (by simpa using f.mem_predecessors.mpr ⟨hq, hedge⟩) hsome
    · intro hall q hq hsome
      obtain ⟨hqreach, hedge⟩ := f.mem_predecessors.mp (by simpa using hq)
      exact hall q hqreach hedge hsome

end Meet

/-! ## Passes until nothing changes -/

section Settle

variable {f} {before idom : Nat → Option Nat} {k i : Nat}

/-- Some predecessor rises to every reachable block but the entry. -/
theorem exists_rises {v : Nat} (hv : f.Reach v) (hne : v ≠ 0) :
    ∃ p, f.Reach p ∧ Rises f.Edge f.rpoIndex p v := by
  cases Relation.ReflTransGen.cases_tail (f.ordered v hv) with
  | inl heq => exact absurd heq hne
  | inr hstep =>
    obtain ⟨p, hpath, hrise⟩ := hstep
    exact ⟨p, Relation.ReflTransGen.mono (fun _ _ h => h.1) _ _ hpath, hrise⟩

/-- A pass come to the blocks from the place `i` of the order. -/
abbrev PassingAt (f : Flow) (k : Nat) (before idom : Nat → Option Nat) (i : Nat) : Prop :=
  Passing f.Edge 0 f.rpoIndex k before idom i

/-- A node's pointer is where its predecessors meet. -/
def MetAt (f : Flow) (idom : Nat → Option Nat) (v : Nat) : Prop :=
  ∃ new, idom v = some new ∧ Linked.Meets f.Edge 0 f.rpoIndex idom v new

theorem sweepOne_spec (h : f.PassingAt k before idom i) {v : Nat} (hv : f.Reach v)
    (hi : f.rpoIndex v = i) (hpos : 1 ≤ i) (changed : Bool) :
    ∃ idom' changed', f.sweepOne (idom, changed) v = some (idom', changed') ∧
      f.PassingAt k before idom' (i + 1) ∧
      (changed' = false → changed = false ∧ idom' = idom ∧ f.MetAt idom v) := by
  have hne : v ≠ 0 := by
    intro heq
    rw [heq, f.rpoIndex_zero] at hi
    omega
  obtain ⟨p, hp, hrise⟩ := exists_rises hv hne
  have hpsome : (idom p).isSome := (h.passed p hp (by rw [← hi]; exact hrise.2)).1
  obtain ⟨new, hmeet, hmeets⟩ := meet_spec h.linked ⟨p, hp, hrise, hpsome⟩
  have hnext := h.step hne hv hi (fun w hw heq => f.rpoIndex_inj hw hv heq) hmeets
  by_cases hsame : some new = idom v
  · refine ⟨idom, changed, by simp [sweepOne, hmeet, hsame], ?_, ?_⟩
    · rwa [hsame, Function.update_eq_self] at hnext
    · intro hfalse
      exact ⟨hfalse, rfl, new, hsame.symm, hmeets⟩
  · refine ⟨_, true, by simp [sweepOne, hmeet, hsame], hnext, ?_⟩
    intro hfalse
    cases hfalse

theorem foldlM_sweepOne (l : List Nat) :
    ∀ {i idom} (changed : Bool), f.rpo.drop i = l → 1 ≤ i → f.PassingAt k before idom i →
      ∃ idom' changed', l.foldlM f.sweepOne (idom, changed) = some (idom', changed') ∧
        f.PassingAt k before idom' f.rpo.length ∧
        (changed' = false → changed = false ∧ idom' = idom ∧ ∀ v ∈ l, f.MetAt idom v) := by
  induction l with
  | nil =>
    intro i idom changed hdrop _ h
    refine ⟨idom, changed, rfl, ?_, fun hfalse => ⟨hfalse, rfl, by simp⟩⟩
    have hlen : f.rpo.length ≤ i := List.drop_eq_nil_iff.mp hdrop
    refine ⟨h.linked, fun v hv hlt => h.passed v hv (by omega), fun v hv hle => ?_, h.given⟩
    have hlt := f.rpoIndex_lt hv
    omega
  | cons v l ih =>
    intro i idom changed hdrop hpos h
    have hlt : i < f.rpo.length := by
      by_contra hge
      rw [List.drop_eq_nil_of_le (by omega)] at hdrop
      cases hdrop
    rw [List.drop_eq_getElem_cons hlt, List.cons.injEq] at hdrop
    obtain ⟨hget, hrest⟩ := hdrop
    have hv : f.Reach v := (f.mem_rpo v).mp (hget ▸ List.getElem_mem hlt)
    have hindex : f.rpoIndex v = i := by
      rw [f.rpoIndex_eq hv, ← hget]
      exact f.rpo_nodup.idxOf_getElem i hlt
    obtain ⟨idom', changed', hone, hnext, hkept⟩ := sweepOne_spec h hv hindex hpos changed
    obtain ⟨idom'', changed'', hfold, hlast, hkept'⟩ := ih changed' hrest (by omega) hnext
    refine ⟨idom'', changed'', by simp [hone, hfold], hlast, ?_⟩
    intro hfalse
    obtain ⟨hfalse', heq', hmet'⟩ := hkept' hfalse
    obtain ⟨hfalse₀, heq, hmet⟩ := hkept hfalse'
    rw [heq] at heq' hmet'
    exact ⟨hfalse₀, heq', List.forall_mem_cons.mpr ⟨hmet, hmet'⟩⟩

/-- Nothing is told yet, or every reachable block has a pointer and is told of `k` falls. -/
def Given (f : Flow) (k : Nat) (idom : Nat → Option Nat) : Prop :=
  0 < k → ∀ v, f.Reach v → (idom v).isSome ∧ Told f.Edge 0 f.rpoIndex k idom v

def Settled (f : Flow) (idom : Nat → Option Nat) : Prop :=
  ∀ v, f.Reach v → v ≠ 0 → f.MetAt idom v

theorem sweep_spec (h : f.LinkedBy idom) (hgiven : f.Given k idom) :
    ∃ idom' changed', f.sweep idom = some (idom', changed') ∧ f.LinkedBy idom' ∧
      f.Given (k + 1) idom' ∧ (changed' = false → f.Settled idom') := by
  have hstart : f.PassingAt k idom idom 1 := by
    refine ⟨h, ?_, fun v _ _ => rfl, hgiven⟩
    intro v hv hlt
    have hzero : v = 0 := f.rpoIndex_inj hv .refl (by rw [f.rpoIndex_zero]; omega)
    rw [hzero]
    refine ⟨by simp [h.root], ?_⟩
    intro d l hl hd _ habove
    rw [h.above_entry habove rfl] at hd
    exact hd hl.first_mem
  obtain ⟨idom', changed', hfold, hlast, hkept⟩ :=
    foldlM_sweepOne (f.rpo.drop 1) false rfl le_rfl hstart
  refine ⟨idom', changed', hfold, hlast.linked, ?_, ?_⟩
  · intro _ v hv
    exact hlast.passed v hv (f.rpoIndex_lt hv)
  · intro hfalse v hv hne
    obtain ⟨-, heq, hmet⟩ := hkept hfalse
    rw [heq]
    apply hmet v
    obtain ⟨rest, hrest⟩ := f.rpo_cons
    have hmem := (f.mem_rpo v).mpr hv
    rw [hrest, List.mem_cons] at hmem
    rw [hrest]
    exact hmem.resolve_left hne

/-- What stands above each reachable block is what dominates it. -/
def Exact (f : Flow) (idom : Nat → Option Nat) : Prop :=
  ∀ {d v}, f.Reach v → Above idom d v → Dominates f.Edge 0 d v

theorem exact_of_settled (h : f.LinkedBy idom) (hsettled : f.Settled idom) : f.Exact idom := by
  intro d v hv habove
  refine h.dominates_of_above ?_ habove
  intro w hw hne
  obtain ⟨u, hu, hmeets⟩ := hsettled w hw hne
  refine ⟨u, hu, fun p hp hedge e he => (hmeets.shared e).mp he p hp hedge ?_⟩
  by_cases hpe : p = 0
  · rw [hpe]
    simp [h.root]
  · obtain ⟨u', hu', -⟩ := hsettled p hp hpe
    simp [hu']

theorem exact_of_given (h : f.Given k idom) (hpos : 0 < k) (hk : f.len ≤ k) : f.Exact idom := by
  intro d v hv habove
  refine dominates_of_told ?_ (h hpos v hv).2 habove
  intro l hl hnodup
  have hsub : l ⊆ f.rpo := by
    intro w hw
    obtain ⟨l', hl', -⟩ := hl.upTo hw
    exact (f.mem_rpo w).mpr hl'.reach
  have hlen := (List.subperm_of_subset hnodup hsub).length_le
  have hle := f.rpo_length_le
  omega

/-- Where the pointers are exact a pass changes nothing. -/
theorem sweep_exact (h : f.LinkedBy idom) (hsome : ∀ {v}, f.Reach v → (idom v).isSome)
    (hexact : f.Exact idom) : f.sweep idom = some (idom, false) ∧ f.Settled idom := by
  have hmet : f.Settled idom := by
    intro v hv hne
    obtain ⟨p, hp, hrise⟩ := exists_rises hv hne
    obtain ⟨new, -, hmeets⟩ := meet_spec h ⟨p, hp, hrise, hsome hp⟩
    exact ⟨new, h.meets_eq hne hv hsome hexact hmeets, hmeets⟩
  have hone : ∀ v, f.Reach v → v ≠ 0 → f.sweepOne (idom, false) v = some (idom, false) := by
    intro v hv hne
    obtain ⟨p, hp, hrise⟩ := exists_rises hv hne
    obtain ⟨new, hmeet, hmeets⟩ := meet_spec h ⟨p, hp, hrise, hsome hp⟩
    simp [sweepOne, hmeet, h.meets_eq hne hv hsome hexact hmeets]
  have hfold : ∀ l : List Nat, (∀ v ∈ l, f.Reach v ∧ v ≠ 0) →
      l.foldlM f.sweepOne (idom, false) = some (idom, false) := by
    intro l
    induction l with
    | nil => intro _; rfl
    | cons v l ih =>
      intro hall
      rw [List.forall_mem_cons] at hall
      simp [hone v hall.1.1 hall.1.2, ih hall.2]
  refine ⟨hfold _ ?_, hmet⟩
  intro v hv
  obtain ⟨rest, hrest⟩ := f.rpo_cons
  have hnodup := f.rpo_nodup
  rw [hrest, List.nodup_cons] at hnodup
  rw [hrest] at hv
  refine ⟨(f.mem_rpo v).mp (by rw [hrest]; exact List.mem_cons_of_mem _ hv), ?_⟩
  intro heq
  rw [heq] at hv
  exact hnodup.1 hv

theorem settle_spec (fuel : Nat) :
    ∀ {k idom}, f.LinkedBy idom → f.Given k idom → k ≤ f.len + 1 → f.len + 1 < fuel + k →
      ∃ idom', f.settle fuel idom = some idom' ∧ f.LinkedBy idom' ∧ f.Settled idom' := by
  induction fuel with
  | zero => omega
  | succ fuel ih =>
    intro k idom h hgiven hk hfuel
    by_cases hlast : k = f.len + 1
    · obtain ⟨hsweep, hsettled⟩ := sweep_exact h
        (fun hv => (hgiven (by omega) _ hv).1) (exact_of_given hgiven (by omega) (by omega))
      exact ⟨idom, by simp [settle, hsweep], h, hsettled⟩
    · obtain ⟨idom', changed, hsweep, hlinked, hgiven', hsettled⟩ := sweep_spec h hgiven
      cases changed with
      | false => exact ⟨idom', by simp [settle, hsweep], hlinked, hsettled rfl⟩
      | true =>
        obtain ⟨idom'', hrest, hdone⟩ := ih hlinked hgiven' (by omega) (by omega)
        exact ⟨idom'', by simp [settle, hsweep, hrest], hdone⟩

theorem linked_start : f.LinkedBy startIdom where
  root := by simp [startIdom]
  link := by
    intro v u hup hne
    simp [startIdom, Function.update_of_ne hne] at hup
  closed := by
    intro v u hup
    by_cases hv : v = 0
    · rw [hv, startIdom, Function.update_self, Option.some.injEq] at hup
      simp [startIdom, ← hup]
    · simp [startIdom, Function.update_of_ne hv] at hup

variable (f) in
/-- The passes come to an end, with what stands above each block what dominates it. -/
theorem settle_start : ∃ idom, f.settle (f.len + 2) startIdom = some idom ∧ f.LinkedBy idom ∧
    f.Settled idom ∧ f.Exact idom := by
  have hgiven : f.Given 0 startIdom := by
    intro hpos
    omega
  obtain ⟨idom, hsettle, hlinked, hsettled⟩ := settle_spec (f.len + 2) linked_start hgiven
    (by omega) (by omega)
  exact ⟨idom, hsettle, hlinked, hsettled, exact_of_settled hlinked hsettled⟩

end Settle

/-! ## What `dominates` answers -/

section Dominating

variable {f} {idom : Nat → Option Nat} {a b : Nat}

theorem dominatesFuel_iff (h : f.LinkedBy idom) (fuel : Nat) :
    ∀ {b}, (idom b).isSome → f.rpoIndex b < fuel →
      (dominatesFuel idom a fuel b ↔ Above idom a b) := by
  induction fuel with
  | zero => omega
  | succ fuel ih =>
    intro b hsome hfuel
    by_cases hab : a = b
    · rw [hab]
      simp only [dominatesFuel, if_true, true_iff]
      exact .refl
    · obtain ⟨up, hup⟩ := Option.isSome_iff_exists.mp hsome
      have hcases : Above idom a b ↔ Above idom a up := by
        constructor
        · intro habove
          exact (habove.cases_up hup).resolve_left hab
        · intro habove
          exact habove.of_up hup
      rw [hcases]
      by_cases hself : up = b
      · have hb : b = 0 := by
          by_contra hne
          have hlt := (h.link hup hne).above
          rw [hself] at hlt
          omega
        simp only [dominatesFuel, if_neg hab, hup, if_pos hself]
        rw [hself, hb]
        constructor
        · intro hfalse
          cases hfalse
        · intro habove
          exact absurd (h.above_entry habove rfl) (hb ▸ hab)
      · have hne : b ≠ 0 := by
          intro heq
          rw [heq, h.root, Option.some.injEq] at hup
          exact hself (by rw [← hup, heq])
        have hlt := (h.link hup hne).above
        simp only [dominatesFuel, if_neg hab, hup, if_neg hself]
        exact ih (h.closed hup) (by omega)

theorem isSome_of_settled (h : f.LinkedBy idom) (hsettled : f.Settled idom) {v : Nat}
    (hv : f.Reach v) : (idom v).isSome := by
  by_cases hne : v = 0
  · rw [hne]
    simp [h.root]
  · obtain ⟨new, hnew, -⟩ := hsettled v hv hne
    simp [hnew]

theorem dominates_iff (h : f.LinkedBy idom) (hsettled : f.Settled idom) (hb : f.Reach b) :
    f.dominates idom a b ↔ Dominates f.Edge 0 a b := by
  have hsome := isSome_of_settled h hsettled hb
  have hturns : f.rpoIndex b < f.turns := by
    have hlt := f.rpoIndex_lt hb
    have hle := f.rpo_length_le
    unfold turns
    omega
  rw [dominates, dominatesFuel_iff h f.turns hsome hturns]
  constructor
  · intro habove
    exact exact_of_settled h hsettled hb habove
  · intro hdom
    exact h.above_of_dominates hsome hdom

end Dominating

/-! ## Natural loops -/

section Loops

variable {f} {h : Nat}

/-- What is marked of the loop of `h`, when `work` is still to be looked at. -/
structure Flooding (f : Flow) (h : Nat) (work : List Nat) (body : Nat → Bool) : Prop where
  header : body h
  inside : ∀ v, body v ∨ v ∈ work → InLoop f.Edge 0 h v
  closed : ∀ v, body v → v ≠ h → ∀ p ∈ f.predecessors v, body p ∨ p ∈ work

/-- What is left of a flood: the work, and the predecessors of every block not marked. -/
def floodLeft (f : Flow) (work : List Nat) (body : Nat → Bool) : Nat :=
  work.length + ∑ v ∈ Finset.range f.len, if body v = false then (f.predecessors v).length else 0

theorem Flooding.mark {node : Nat} {work : List Nat} {body : Nat → Bool}
    (hflood : f.Flooding h (node :: work) body) (hnode : body node = false) :
    f.Flooding h ((f.predecessors node).reverse ++ work) (Function.update body node true) := by
  have hin : InLoop f.Edge 0 h node := hflood.inside node (Or.inr (by simp))
  have hne : node ≠ h := by
    intro heq
    rw [heq, hflood.header] at hnode
    cases hnode
  constructor
  · rw [Function.update_of_ne (Ne.symm hne)]
    exact hflood.header
  · intro v hv
    by_cases hvn : v = node
    · rwa [hvn]
    · rw [Function.update_of_ne hvn, List.mem_append, List.mem_reverse] at hv
      rcases hv with hv | hv | hv
      · exact hflood.inside v (Or.inl hv)
      · obtain ⟨hreach, hedge⟩ := f.mem_predecessors.mp hv
        exact hin.entered hreach hedge hne
      · exact hflood.inside v (Or.inr (by simp [hv]))
  · intro v hv hvh p hp
    by_cases hpn : p = node
    · exact Or.inl (by simp [hpn])
    · rw [Function.update_of_ne hpn, List.mem_append, List.mem_reverse]
      by_cases hvn : v = node
      · rw [hvn] at hp
        exact Or.inr (Or.inl hp)
      · rw [Function.update_of_ne hvn] at hv
        cases hflood.closed v hv hvh p hp with
        | inl hbody => exact Or.inl hbody
        | inr hwork =>
          rw [List.mem_cons] at hwork
          exact Or.inr (Or.inr (hwork.resolve_left hpn))

theorem floodLeft_mark (work : List Nat) {node : Nat} {body : Nat → Bool} (hnode : node < f.len)
    (hbody : body node = false) :
    f.floodLeft ((f.predecessors node).reverse ++ work) (Function.update body node true) + 1 =
      f.floodLeft (node :: work) body := by
  have hsum : (∑ v ∈ Finset.range f.len,
        if Function.update body node true v = false then (f.predecessors v).length else 0) +
      (f.predecessors node).length =
      ∑ v ∈ Finset.range f.len, if body v = false then (f.predecessors v).length else 0 := by
    apply Walk.sum_take_out (fun v => (f.predecessors v).length) (Finset.mem_range.mpr hnode) hbody
    · simp
    · intro v hv
      rw [Function.update_of_ne hv]
  simp only [floodLeft, List.length_append, List.length_reverse, List.length_cons]
  omega

theorem flood_spec (hh : f.Reach h) (fuel : Nat) :
    ∀ {work body}, f.Flooding h work body → f.floodLeft work body ≤ fuel →
      ∃ body', f.flood fuel work body = some body' ∧ f.Flooding h [] body' ∧
        ∀ v, body v ∨ v ∈ work → body' v := by
  induction fuel with
  | zero =>
    intro work body hflood hfuel
    obtain rfl : work = [] := by
      apply List.length_eq_zero_iff.mp
      unfold floodLeft at hfuel
      omega
    exact ⟨body, rfl, hflood, by simp⟩
  | succ fuel ih =>
    intro work body hflood hfuel
    cases work with
    | nil => exact ⟨body, rfl, hflood, by simp⟩
    | cons node work =>
      cases hnode : body node with
      | true =>
        have hrest : f.Flooding h work body := by
          refine ⟨hflood.header, fun v hv => ?_, fun v hv hvh p hp => ?_⟩
          · exact hflood.inside v (hv.imp_right (List.mem_cons_of_mem _))
          · cases hflood.closed v hv hvh p hp with
            | inl hbody => exact Or.inl hbody
            | inr hwork =>
              rw [List.mem_cons] at hwork
              cases hwork with
              | inl heq => exact Or.inl (heq ▸ hnode)
              | inr hwork => exact Or.inr hwork
        have hless : f.floodLeft work body ≤ fuel := by
          simp only [floodLeft, List.length_cons] at hfuel ⊢
          omega
        obtain ⟨body', hrun, hdone, hkept⟩ := ih hrest hless
        refine ⟨body', by simp [flood, hnode, hrun], hdone, fun v hv => hkept v ?_⟩
        rw [List.mem_cons] at hv
        rcases hv with hv | hv | hv
        · exact Or.inl hv
        · exact Or.inl (hv ▸ hnode)
        · exact Or.inr hv
      | false =>
        have hreach := (hflood.inside node (Or.inr (by simp))).reach hh
        have hless := floodLeft_mark work (lt_len_of_reach hreach) hnode
        obtain ⟨body', hrun, hdone, hkept⟩ := ih (hflood.mark hnode) (by omega)
        refine ⟨body', by simp [flood, hnode, hrun], hdone, fun v hv => hkept v ?_⟩
        by_cases hvn : v = node
        · exact Or.inl (by simp [hvn])
        · rw [Function.update_of_ne hvn, List.mem_append]
          rw [List.mem_cons] at hv
          rcases hv with hv | hv | hv
          · exact Or.inl hv
          · exact absurd hv hvn
          · exact Or.inr (Or.inr hv)

theorem floodLeft_le (u : Nat) (body : Nat → Bool) : f.floodLeft [u] body ≤ f.floodTurns := by
  have hsum : (∑ v ∈ Finset.range f.len,
      if body v = false then (f.predecessors v).length else 0) ≤
      ∑ v ∈ Finset.range f.len, (f.predecessors v).length := by
    apply Finset.sum_le_sum
    intro v _
    split <;> omega
  have htotal : ∑ v ∈ Finset.range f.len, (f.predecessors v).length =
      ((List.range f.len).map (fun v => (f.predecessors v).length)).sum := rfl
  simp only [floodLeft, floodTurns, List.length_singleton]
  omega

structure Bodies (f : Flow) (done : List (Nat × Nat)) (bodies : Nat → Option (Nat → Bool)) :
    Prop where
  found : ∀ {h body}, bodies h = some body → f.Flooding h [] body ∧ ∃ u, (u, h) ∈ done
  holds : ∀ {u h}, (u, h) ∈ done → ∃ body, bodies h = some body ∧ body u

theorem source_inLoop {u : Nat} (hback : (u, h) ∈ f.retreating) (hdom : Dominates f.Edge 0 h u) :
    InLoop f.Edge 0 h u := by
  obtain ⟨hu, hedge, -⟩ := f.mem_retreating_iff.mp hback
  by_cases heq : u = h
  · exact Or.inl heq
  · refine Or.inr ⟨hu, u, hu, hedge, hdom, [u], .start, ?_⟩
    intro hin
    exact heq (List.mem_singleton.mp hin).symm

theorem bodyOne_spec {done : List (Nat × Nat)} {bodies : Nat → Option (Nat → Bool)}
    (hbodies : f.Bodies done bodies) {u : Nat} (hback : (u, h) ∈ f.retreating)
    (hdom : Dominates f.Edge 0 h u) :
    ∃ bodies', f.bodyOne bodies (u, h) = some bodies' ∧ f.Bodies (done ++ [(u, h)]) bodies' := by
  obtain ⟨hu, hedge, -⟩ := f.mem_retreating_iff.mp hback
  have hh : f.Reach h := hu.tail hedge
  set body := (bodies h).getD (Function.update (fun _ => false) h true) with hbody
  have hflood : f.Flooding h [u] body := by
    have hempty : f.Flooding h [] body := by
      cases hfound : bodies h with
      | some body₀ =>
        rw [hbody, hfound, Option.getD_some]
        exact (hbodies.found hfound).1
      | none =>
        rw [hbody, hfound, Option.getD_none]
        have honly : ∀ v, Function.update (fun _ => false) h true v = true → v = h := by
          intro v hv
          by_contra hne
          rw [Function.update_of_ne hne] at hv
          cases hv
        refine ⟨by simp, fun v hv => Or.inl (honly v ?_), fun v hv hne => absurd (honly v hv) hne⟩
        exact hv.resolve_right (by simp)
    refine ⟨hempty.header, fun v hv => ?_, fun v hv hne p hp => ?_⟩
    · cases hv with
      | inl hv => exact hempty.inside v (Or.inl hv)
      | inr hv =>
        rw [List.mem_singleton.mp hv]
        exact source_inLoop hback hdom
    · exact Or.inl ((hempty.closed v hv hne p hp).resolve_right (by simp))
  obtain ⟨body', hrun, hdone, hkept⟩ := flood_spec hh f.floodTurns hflood (floodLeft_le u body)
  refine ⟨Function.update bodies h (some body'), ?_, ?_, ?_⟩
  · simp [bodyOne, ← hbody, hrun]
  · intro g b hg
    by_cases hgh : g = h
    · rw [hgh, Function.update_self, Option.some.injEq] at hg
      rw [hgh, ← hg]
      exact ⟨hdone, u, by simp⟩
    · rw [Function.update_of_ne hgh] at hg
      obtain ⟨hflooding, w, hw⟩ := hbodies.found hg
      exact ⟨hflooding, w, by simp [hw]⟩
  · intro w g hwg
    rw [List.mem_append, List.mem_singleton] at hwg
    by_cases hgh : g = h
    · rw [hgh, Function.update_self]
      refine ⟨body', rfl, ?_⟩
      cases hwg with
      | inr heq =>
        rw [(Prod.mk.inj heq).1]
        exact hkept u (Or.inr (by simp))
      | inl hmem =>
        obtain ⟨b, hb, hbw⟩ := hbodies.holds hmem
        rw [hgh] at hb
        apply hkept w
        left
        rw [hbody, hb, Option.getD_some]
        exact hbw
    · rw [Function.update_of_ne hgh]
      cases hwg with
      | inr heq => exact absurd (Prod.mk.inj heq).2 hgh
      | inl hmem => exact hbodies.holds hmem

theorem foldlM_bodyOne (edges : List (Nat × Nat)) :
    ∀ {done bodies}, f.Bodies done bodies →
      (∀ u h, (u, h) ∈ edges → (u, h) ∈ f.retreating ∧ Dominates f.Edge 0 h u) →
      ∃ bodies', edges.foldlM f.bodyOne bodies = some bodies' ∧ f.Bodies (done ++ edges) bodies' := by
  induction edges with
  | nil =>
    intro done bodies hbodies _
    exact ⟨bodies, rfl, by simpa using hbodies⟩
  | cons edge edges ih =>
    intro done bodies hbodies hall
    obtain ⟨hback, hdom⟩ := hall edge.1 edge.2 (by simp)
    obtain ⟨bodies', hone, hnext⟩ := bodyOne_spec hbodies hback hdom
    obtain ⟨bodies'', hrest, hlast⟩ := ih hnext (fun u h hmem => hall u h (by simp [hmem]))
    exact ⟨bodies'', by simp [hone, hrest], by simpa using hlast⟩

theorem Flooding.holds {body : Nat → Bool} (hflood : f.Flooding h [] body)
    (hsources : ∀ u, (u, h) ∈ f.retreating → body u) {w : Nat} (hw : InLoop f.Edge 0 h w) :
    body w := by
  cases hw with
  | inl hw =>
    rw [hw]
    exact hflood.header
  | inr hw =>
    obtain ⟨hreach, u, hu, hedge, hdom, l, hl, hnot⟩ := hw
    have hu' : body u := by
      apply hsources u
      refine f.mem_retreating_iff.mpr ⟨hu, hedge, ?_⟩
      cases rank_lt_of_dominates f.ordered hu hdom with
      | inl heq => rw [heq]
      | inr hlt => exact hlt.le
    clear hedge hdom hu hsources
    induction hl with
    | start => exact hu'
    | @step b c l hpath hedge ih =>
      rw [List.mem_cons, not_or] at hnot
      apply ih hnot.2
      have hb : f.Reach b := hreach.trans hpath.reach
      have hmem := hflood.closed c hu' (Ne.symm hnot.1) b (f.mem_predecessors.mpr ⟨hb, hedge⟩)
      exact hmem.resolve_right (by simp)

end Loops

/-! ## All of it -/

/-- What `dominators` finds where the flow is reducible. -/
structure Found (d : Dominators) : Prop where
  entry : d.idom 0 = some 0
  idom : ∀ v, f.Reach v → v ≠ 0 → ∃ i, d.idom v = some i ∧
    Immediate (Dominates f.Edge 0) i v ∧ ∀ j, Immediate (Dominates f.Edge 0) j v → j = i
  header : ∀ h, d.isHeader h ↔ ∃ u, f.Reach u ∧ f.Edge u h ∧ Dominates f.Edge 0 h u
  body : ∀ h, d.isHeader h → ∀ w, d.inBody h w ↔ InLoop f.Edge 0 h w

theorem found_of_settled {idom : Nat → Option Nat} (hlinked : f.LinkedBy idom)
    (hsettled : f.Settled idom) {bodies : Nat → Option (Nat → Bool)}
    (hbodies : f.Bodies f.retreating bodies)
    (hdom : ∀ u v, (u, v) ∈ f.retreating → Dominates f.Edge 0 v u) : f.Found ⟨idom, bodies⟩ where
  entry := hlinked.root
  idom v hv hne := by
    obtain ⟨i, hi, -⟩ := hsettled v hv hne
    have himm := hlinked.immediate hne hi (fun d hd => exact_of_settled hlinked hsettled hv hd)
    refine ⟨i, hi, himm, fun j hj => ?_⟩
    exact (himm.unique (hlinked.link hi hne).reach hj).symm
  header h := by
    constructor
    · intro hheader
      obtain ⟨body, hbody⟩ := Option.isSome_iff_exists.mp hheader
      obtain ⟨-, u, hu⟩ := hbodies.found hbody
      obtain ⟨hreach, hedge, -⟩ := f.mem_retreating_iff.mp hu
      exact ⟨u, hreach, hedge, hdom u h hu⟩
    · intro hback
      obtain ⟨u, hu, hedge, hud⟩ := hback
      have hle : f.rpoIndex h ≤ f.rpoIndex u := by
        cases rank_lt_of_dominates f.ordered hu hud with
        | inl heq => rw [heq]
        | inr hlt => exact hlt.le
      obtain ⟨body, hbody, -⟩ := hbodies.holds (f.mem_retreating_iff.mpr ⟨hu, hedge, hle⟩)
      exact Option.isSome_iff_exists.mpr ⟨body, hbody⟩
  body h hheader w := by
    obtain ⟨body, hbody⟩ : ∃ body, bodies h = some body := Option.isSome_iff_exists.mp hheader
    have hflood := (hbodies.found hbody).1
    have hsources : ∀ u, (u, h) ∈ f.retreating → body u := by
      intro u hu
      obtain ⟨body', hbody', hu'⟩ := hbodies.holds hu
      rw [hbody, Option.some.injEq] at hbody'
      rwa [hbody']
    simp only [Dominators.inBody, hbody]
    constructor
    · intro hw
      exact hflood.inside w (Or.inl hw)
    · intro hw
      exact hflood.holds hsources hw

/-- `dominators` ends, refuses just the irreducible flows, and finds in every other the immediate
dominators and the natural loops. -/
theorem dominators_found :
    (f.dominators = some none ∧ ¬Reducible f.Edge 0) ∨
      ∃ d, f.dominators = some (some d) ∧ Reducible f.Edge 0 ∧ f.LinkedBy d.idom ∧
        f.Settled d.idom ∧ f.Found d := by
  obtain ⟨idom, hsettle, hlinked, hsettled, -⟩ := f.settle_start
  have hdom : ∀ u v, (u, v) ∈ f.retreating →
      (f.dominates idom v u ↔ Dominates f.Edge 0 v u) := fun u v hmem =>
    dominates_iff hlinked hsettled (f.mem_retreating_iff.mp hmem).1
  by_cases hany : f.retreating.any (fun edge => !f.dominates idom edge.2 edge.1)
  · left
    refine ⟨by simp [dominators, hsettle, hany], ?_⟩
    intro hred
    rw [reducible_iff_retreating] at hred
    obtain ⟨edge, hmem, hnot⟩ := List.any_eq_true.mp hany
    rw [(hdom edge.1 edge.2 hmem).mpr (hred edge.1 edge.2 hmem)] at hnot
    cases hnot
  · right
    have hall : ∀ u v, (u, v) ∈ f.retreating → Dominates f.Edge 0 v u := by
      intro u v hmem
      rw [← hdom u v hmem]
      by_contra hnot
      exact hany (List.any_eq_true.mpr ⟨(u, v), hmem, by simpa using hnot⟩)
    have hnone : f.Bodies [] (fun _ => none) := by
      constructor
      · intro h body hfound
        cases hfound
      · intro u h hmem
        cases hmem
    obtain ⟨bodies, hfold, hbodies⟩ := foldlM_bodyOne f.retreating hnone
      (fun u h hmem => ⟨hmem, hall u h hmem⟩)
    refine ⟨⟨idom, bodies⟩, by simp [dominators, hsettle, hany, hfold],
      f.reducible_iff_retreating.mpr hall, hlinked, hsettled,
      f.found_of_settled hlinked hsettled hbodies hall⟩

/-- The flows `dominators` refuses are the irreducible ones; of the others it has the immediate
dominator of every reachable block, and the natural loop of every header. -/
theorem dominators_exact :
    (f.dominators = some none ↔ ¬Reducible f.Edge 0) ∧
      (∀ v, f.reachable v ↔ f.Reach v) ∧
      (Reducible f.Edge 0 → ∃ d, f.dominators = some (some d)) ∧
      ∀ d, f.dominators = some (some d) → f.Found d := by
  refine ⟨?_, f.reachable_iff, ?_, ?_⟩
  · rcases f.dominators_found with ⟨hnone, hirr⟩ | ⟨d, hd, hred, -, -, -⟩
    · exact iff_of_true hnone hirr
    · exact iff_of_false (by simp [hd]) (not_not.mpr hred)
  · intro hred
    rcases f.dominators_found with ⟨-, hirr⟩ | ⟨d, hd, -, -, -, -⟩
    · exact absurd hred hirr
    · exact ⟨d, hd⟩
  · intro d hd
    rcases f.dominators_found with ⟨hnone, -⟩ | ⟨d', hd', -, -, -, hfound⟩
    · rw [hnone] at hd
      cases hd
    · rw [hd', Option.some.injEq, Option.some.injEq] at hd
      rwa [← hd]

end Orbistoun.Translate.Structured.Flow
