import Mathlib.Data.List.Basic
import Mathlib.Logic.Relation
import Mathlib.Tactic

/-! # Dominance, reducible flow and natural loops

Paths of a graph from an entry, the vertices every path passes, and what an order of the vertices
in which every one is reached by rising edges says of them: that a dominator comes first, that the
flow is reducible just where every falling edge goes to a dominator, and that trees of pointers up
the order give the dominators where each link holds what it should.
-/

namespace Orbistoun.Lib.Dominance

variable {V : Type*}

/-- A path from `a`, with the vertices it visits, the last first. -/
inductive Path (E : V → V → Prop) (a : V) : V → List V → Prop where
  | start : Path E a a [a]
  | step {b c : V} {l : List V} : Path E a b l → E b c → Path E a c (c :: l)

variable {E : V → V → Prop} {a b c : V} {l l' : List V}

namespace Path

theorem last_mem (h : Path E a b l) : b ∈ l := by
  cases h <;> simp

theorem first_mem (h : Path E a b l) : a ∈ l := by
  induction h with
  | start => simp
  | step _ _ ih => simp [ih]

theorem reach (h : Path E a b l) : Relation.ReflTransGen E a b := by
  induction h with
  | start => exact .refl
  | step _ hedge ih => exact ih.tail hedge

/-- A path up to one of the vertices it visits. -/
theorem upTo (h : Path E a b l) {c : V} (hc : c ∈ l) : ∃ l', Path E a c l' ∧ l' <:+ l := by
  induction h with
  | start =>
    obtain rfl : c = a := by simpa using hc
    exact ⟨[c], .start, List.suffix_rfl⟩
  | step hpath hedge ih =>
    rw [List.mem_cons] at hc
    cases hc with
    | inl hc =>
      rw [hc]
      exact ⟨_, .step hpath hedge, List.suffix_rfl⟩
    | inr hc =>
      obtain ⟨l', hl', hsuffix⟩ := ih hc
      exact ⟨l', hl', hsuffix.trans (List.suffix_cons _ _)⟩

/-- The rest of a path from one of the vertices it visits. -/
theorem onFrom (h : Path E a b l) {c : V} (hc : c ∈ l) : ∃ l', Path E c b l' ∧ l' ⊆ l := by
  induction h with
  | start =>
    obtain rfl : c = a := by simpa using hc
    exact ⟨[c], .start, List.Subset.refl _⟩
  | @step b c' l hpath hedge ih =>
    rw [List.mem_cons] at hc
    cases hc with
    | inl hc =>
      rw [hc]
      exact ⟨[c'], .start, by simp⟩
    | inr hc =>
      obtain ⟨l', hl', hsub⟩ := ih hc
      exact ⟨_, .step hl' hedge, List.cons_subset_cons _ hsub⟩

theorem append (h : Path E a b l) (h' : Path E b c l') :
    ∃ l'', Path E a c l'' ∧ ∀ x ∈ l'', x ∈ l ∨ x ∈ l' := by
  induction h' with
  | start => exact ⟨l, h, fun x hx => Or.inl hx⟩
  | step _ hedge ih =>
    obtain ⟨l'', hl'', hmem⟩ := ih
    refine ⟨_, .step hl'' hedge, ?_⟩
    intro x hx
    rw [List.mem_cons] at hx
    cases hx with
    | inl hx => exact Or.inr (by simp [hx])
    | inr hx => exact (hmem x hx).imp_right (List.mem_cons_of_mem _)

theorem cons (hedge : E a b) (h : Path E b c l) :
    ∃ l', Path E a c l' ∧ ∀ x ∈ l', x = a ∨ x ∈ l := by
  obtain ⟨l', hl', hmem⟩ := (Path.step .start hedge).append h
  refine ⟨l', hl', ?_⟩
  intro x hx
  have hcase := hmem x hx
  simp only [List.mem_cons, List.not_mem_nil, or_false] at hcase
  rcases hcase with (hx | hx) | hx
  · exact Or.inr (hx ▸ h.first_mem)
  · exact Or.inl hx
  · exact Or.inr hx

/-- The first edge of a path, and the rest of it. -/
theorem uncons (h : Path E a b l) : a = b ∨ ∃ s l', E a s ∧ Path E s b l' ∧ l' ⊆ l := by
  induction h with
  | start => exact Or.inl rfl
  | @step b c l hpath hedge ih =>
    cases ih with
    | inl heq => exact Or.inr ⟨c, [c], heq ▸ hedge, .start, by simp⟩
    | inr hrest =>
      obtain ⟨s, l', hfirst, hl', hsub⟩ := hrest
      exact Or.inr ⟨s, c :: l', hfirst, .step hl' hedge, List.cons_subset_cons _ hsub⟩

/-- A path that visits no vertex twice, among the vertices of any other. -/
theorem simple (h : Path E a b l) : ∃ l', Path E a b l' ∧ l'.Nodup ∧ l' ⊆ l := by
  induction h with
  | start => exact ⟨[a], .start, by simp, List.Subset.refl _⟩
  | @step b c l _ hedge ih =>
    obtain ⟨l', hl', hnodup, hsub⟩ := ih
    by_cases hc : c ∈ l'
    · obtain ⟨l'', hl'', hsuffix⟩ := hl'.upTo hc
      exact ⟨l'', hl'', hsuffix.sublist.nodup hnodup,
        fun x hx => List.mem_cons_of_mem _ (hsub (hsuffix.subset hx))⟩
    · exact ⟨c :: l', .step hl' hedge, List.nodup_cons.mpr ⟨hc, hnodup⟩,
        List.cons_subset_cons _ hsub⟩

end Path

theorem exists_path (h : Relation.ReflTransGen E a b) : ∃ l, Path E a b l := by
  induction h with
  | refl => exact ⟨[a], .start⟩
  | tail _ hedge ih =>
    obtain ⟨l, hl⟩ := ih
    exact ⟨_, .step hl hedge⟩

def Dominates (E : V → V → Prop) (entry d v : V) : Prop := ∀ l, Path E entry v l → d ∈ l

def PostDominates (E : V → V → Prop) (sink p v : V) : Prop := ∀ l, Path E v sink l → p ∈ l

/-- The one of the others standing in `R` to `v` that all of them stand in `R` to. -/
structure Immediate (R : V → V → Prop) (i v : V) : Prop where
  ne : i ≠ v
  holds : R i v
  least : ∀ d, d ≠ v → R d v → R d i

section Dominates

variable {entry : V}

theorem Dominates.refl (v : V) : Dominates E entry v v := fun _ h => h.last_mem

theorem Dominates.trans {d e v : V} (hd : Dominates E entry d e) (he : Dominates E entry e v) :
    Dominates E entry d v := by
  intro l hl
  obtain ⟨l', hl', hsuffix⟩ := hl.upTo (he l hl)
  exact hsuffix.subset (hd l' hl')

theorem Dominates.pred {d p v : V} (h : Dominates E entry d v) (hne : d ≠ v) (hedge : E p v) :
    Dominates E entry d p := by
  intro l hl
  have hmem := h _ (.step hl hedge)
  rw [List.mem_cons] at hmem
  exact hmem.resolve_left hne

theorem Dominates.antisymm {d e : V} (hreach : Relation.ReflTransGen E entry d)
    (hd : Dominates E entry d e) (he : Dominates E entry e d) : d = e := by
  by_contra hne
  -- Each path to `d` holds a shorter one.
  have hshorter : ∀ n, ∀ l, Path E entry d l → l.length ≠ n := by
    intro n
    induction n using Nat.strong_induction_on with
    | _ n ih =>
      intro l hl hlen
      obtain ⟨le, hle, hsuffix⟩ := hl.upTo (he l hl)
      obtain ⟨ld, hld, hsuffix'⟩ := hle.upTo (hd le hle)
      have hlt : le.length < l.length := by
        apply lt_of_le_of_ne hsuffix.length_le
        intro heq
        have hsame := hsuffix.eq_of_length heq
        rw [hsame] at hle
        have hheads : d = e := by
          cases hl <;> cases hle <;> rfl
        exact hne hheads
      exact ih ld.length (by have := hsuffix'.length_le; omega) ld hld rfl
  obtain ⟨l, hl⟩ := exists_path hreach
  exact hshorter _ l hl rfl

theorem Immediate.unique {i j v : V} (hreach : Relation.ReflTransGen E entry i)
    (hi : Immediate (Dominates E entry) i v) (hj : Immediate (Dominates E entry) j v) : i = j :=
  (hj.least i hi.ne hi.holds).antisymm hreach (hi.least j hj.ne hj.holds)

end Dominates

/-! ## An order the entry rises through -/

section Order

variable {entry : V} {rank : V → Nat}

/-- An edge up the order. -/
def Rises (E : V → V → Prop) (rank : V → Nat) (u v : V) : Prop := E u v ∧ rank u < rank v

/-- Every vertex that is reached is reached by rising edges. -/
def Ordered (E : V → V → Prop) (entry : V) (rank : V → Nat) : Prop :=
  ∀ v, Relation.ReflTransGen E entry v → Relation.ReflTransGen (Rises E rank) entry v

theorem rising_path (h : Relation.ReflTransGen (Rises E rank) a b) :
    ∃ l, Path E a b l ∧ ∀ x ∈ l, rank a ≤ rank x ∧ (x = b ∨ rank x < rank b) := by
  induction h with
  | refl => exact ⟨[a], .start, by simp⟩
  | tail hrest hedge ih =>
    obtain ⟨l, hl, hranks⟩ := ih
    refine ⟨_, .step hl hedge.1, ?_⟩
    intro x hx
    have hlast := hranks _ hl.last_mem
    have hrise := hedge.2
    rw [List.mem_cons] at hx
    cases hx with
    | inl hx =>
      rw [hx]
      exact ⟨by omega, Or.inl rfl⟩
    | inr hx =>
      obtain ⟨hlow, hhigh⟩ := hranks x hx
      refine ⟨hlow, Or.inr ?_⟩
      cases hhigh with
      | inl hhigh => rwa [hhigh]
      | inr hhigh => omega

theorem rank_lt_of_dominates (hord : Ordered E entry rank) {d v : V}
    (hreach : Relation.ReflTransGen E entry v) (h : Dominates E entry d v) :
    d = v ∨ rank d < rank v := by
  obtain ⟨l, hl, hranks⟩ := rising_path (hord v hreach)
  exact (hranks d (h l hl)).2

theorem Dominates.of_rises {d q w : V} (h : Dominates E entry d w)
    (hrises : Relation.ReflTransGen (Rises E rank) q w) (hd : d = q ∨ rank d < rank q) :
    Dominates E entry d q := by
  cases hd with
  | inl hd =>
    rw [hd]
    exact .refl q
  | inr hd =>
    intro l hl
    obtain ⟨l', hl', hranks⟩ := rising_path hrises
    obtain ⟨l'', hl'', hmem⟩ := hl.append hl'
    apply (hmem d (h l'' hl'')).resolve_right
    intro hin
    have hlow := (hranks d hin).1
    omega

/-- Nothing goes round without an edge to a dominator of its source. -/
def Reducible (E : V → V → Prop) (entry : V) : Prop :=
  ∀ v, ¬Relation.TransGen (fun a b =>
    Relation.ReflTransGen E entry a ∧ E a b ∧ ¬Dominates E entry b a) v v

/-- Where a rising path leads back to every falling edge's source, the flow is reducible just if
those edges go to dominators. -/
theorem reducible_iff (hord : Ordered E entry rank)
    (hfall : ∀ u v, Relation.ReflTransGen E entry u → E u v → rank v ≤ rank u →
      Relation.ReflTransGen (Rises E rank) v u) :
    Reducible E entry ↔ ∀ u v, Relation.ReflTransGen E entry u → E u v → rank v ≤ rank u →
      Dominates E entry v u := by
  constructor
  · intro hred u v hu hedge hle
    by_contra hnot
    apply hred v
    have hv : Relation.ReflTransGen E entry v := hu.tail hedge
    have hback : Relation.ReflTransGen (fun a b => Relation.ReflTransGen E entry a ∧ E a b ∧
        ¬Dominates E entry b a) v u := by
      have hrises := hfall u v hu hedge hle
      clear hle hnot hedge
      induction hrises with
      | refl => exact .refl
      | @tail x y hrest hrise ih =>
        have hx : Relation.ReflTransGen E entry x :=
          hv.trans (Relation.ReflTransGen.mono (fun _ _ h => h.1) _ _ hrest)
        refine (ih hx).tail ⟨hx, hrise.1, ?_⟩
        intro hdom
        have hlow := rank_lt_of_dominates hord hx hdom
        have hrank := hrise.2
        cases hlow with
        | inl heq => rw [heq] at hrank; omega
        | inr hlt => omega
    exact Relation.TransGen.tail' hback ⟨hu, hedge, hnot⟩
  · intro hdom v hcycle
    have hrise : ∀ {x y}, Relation.TransGen (fun a b => Relation.ReflTransGen E entry a ∧ E a b ∧
        ¬Dominates E entry b a) x y → rank x < rank y := by
      intro x y h
      have hone : ∀ {x y}, (Relation.ReflTransGen E entry x ∧ E x y ∧ ¬Dominates E entry y x) →
          rank x < rank y := by
        intro x y h
        by_contra hle
        exact h.2.2 (hdom x y h.1 h.2.1 (by omega))
      induction h with
      | single h => exact hone h
      | tail _ h ih => exact ih.trans (hone h)
    exact lt_irrefl _ (hrise hcycle)

end Order

/-! ## Natural loops -/

/-- The natural loop of the back edges to `h`: what reaches one of their sources without passing
`h`. -/
def InLoop (E : V → V → Prop) (entry h w : V) : Prop :=
  w = h ∨ (Relation.ReflTransGen E entry w ∧
    ∃ u, Relation.ReflTransGen E entry u ∧ E u h ∧ Dominates E entry h u ∧
      ∃ l, Path E w u l ∧ h ∉ l)

namespace InLoop

variable {entry g h x y : V}

theorem reach (hh : Relation.ReflTransGen E entry h) (hx : InLoop E entry h x) :
    Relation.ReflTransGen E entry x := by
  cases hx with
  | inl hx => rwa [hx]
  | inr hx => exact hx.1

theorem dominates (hx : InLoop E entry h x) : Dominates E entry h x := by
  cases hx with
  | inl hx =>
    rw [hx]
    exact .refl h
  | inr hx =>
    obtain ⟨-, u, -, -, hdom, l, hl, hnot⟩ := hx
    intro l' hl'
    obtain ⟨l'', hl'', hmem⟩ := hl'.append hl
    exact (hmem h (hdom l'' hl'')).resolve_right hnot

theorem entered (hreach : Relation.ReflTransGen E entry x) (hedge : E x y)
    (hy : InLoop E entry h y) (hne : y ≠ h) : InLoop E entry h x := by
  by_cases hx : x = h
  · exact Or.inl hx
  · obtain ⟨-, u, hu, hback, hdom, l, hl, hnot⟩ := hy.resolve_left hne
    obtain ⟨l', hl', hmem⟩ := Path.cons hedge hl
    refine Or.inr ⟨hreach, u, hu, hback, hdom, l', hl', ?_⟩
    intro hin
    cases hmem h hin with
    | inl heq => exact hx heq.symm
    | inr hin => exact hnot hin

theorem from_header (hreach : Relation.ReflTransGen E entry x) (hx : InLoop E entry h x) :
    ∃ l, Path E h x l ∧ ∀ z ∈ l, InLoop E entry h z := by
  have hown : ∃ l, Path E h h l ∧ ∀ z ∈ l, InLoop E entry h z :=
    ⟨[h], .start, fun z hz => Or.inl (by simpa using hz)⟩
  obtain ⟨l, hl⟩ := exists_path hreach
  clear hreach
  induction hl with
  | start =>
    have hmem := hx.dominates _ (Path.start (E := E) (a := entry))
    obtain rfl : h = entry := by simpa using hmem
    exact hown
  | @step b c l hpath hedge ih =>
    by_cases hc : c = h
    · rw [hc]
      exact hown
    · obtain ⟨l', hl', hin⟩ := ih (hx.entered hpath.reach hedge hc)
      refine ⟨c :: l', .step hl' hedge, ?_⟩
      intro z hz
      rw [List.mem_cons] at hz
      cases hz with
      | inl hz => rwa [hz]
      | inr hz => exact hin z hz

/-- Two loops that meet are one within the other. -/
theorem nested (hreach : Relation.ReflTransGen E entry x) (hgx : InLoop E entry g x)
    (hhx : InLoop E entry h x) (hout : ¬InLoop E entry h g) (hy : InLoop E entry h y) :
    InLoop E entry g y := by
  have hgh : g ≠ h := fun heq => hout (Or.inl heq)
  obtain ⟨lx, hlx⟩ := exists_path hreach
  have hhreach : Relation.ReflTransGen E entry h := by
    obtain ⟨l, hl, -⟩ := hlx.upTo (hhx.dominates lx hlx)
    exact hl.reach
  have hgx' : x ≠ g := fun heq => hout (heq ▸ hhx)
  obtain ⟨-, u, hu, hback, hdom, l, hl, hnot⟩ := hgx.resolve_left hgx'
  obtain ⟨lh, hlh, hinside⟩ := hhx.from_header hreach
  -- From the other header, through the meeting block, to the back edge.
  obtain ⟨lu, hlu, hmem⟩ := hlh.append hl
  have havoid : g ∉ lu := by
    intro hin
    cases hmem g hin with
    | inl hin => exact hout (hinside g hin)
    | inr hin => exact hnot hin
  cases hy with
  | inl hy =>
    rw [hy]
    exact Or.inr ⟨hhreach, u, hu, hback, hdom, lu, hlu, havoid⟩
  | inr hy =>
    obtain ⟨hyreach, uh, huh, hbackh, hdomh, ly, hly, hnoth⟩ := hy
    obtain ⟨lr, hlr, hmem'⟩ := (Path.step hly hbackh).append hlu
    refine Or.inr ⟨hyreach, u, hu, hback, hdom, lr, hlr, ?_⟩
    intro hin
    cases hmem' g hin with
    | inr hin => exact havoid hin
    | inl hin =>
      rw [List.mem_cons] at hin
      have hgl := hin.resolve_left hgh
      obtain ⟨lg, hlg, hsub⟩ := hly.onFrom hgl
      obtain ⟨l₀, hl₀, -⟩ := hly.upTo hgl
      exact hout (Or.inr ⟨hyreach.trans hl₀.reach, uh, huh, hbackh, hdomh, lg, hlg,
        fun hin => hnoth (hsub hin)⟩)

end InLoop

end Orbistoun.Lib.Dominance
