import Mathlib.Logic.Function.Basic
import Orbistoun.Lib.Dominance

/-! # Dominators as pointers up an order

Each vertex has at most one pointer, up the order to a vertex that all its strict dominators
dominate. What stands above a vertex then holds its dominators, whatever the pointers are. A pass
that sends each vertex, in order, to the lowest vertex above all its predecessors tells one more
falling edge apart each time, so passes settle, and settled pointers are the immediate dominators.
-/

namespace Orbistoun.Lib.Dominance

variable {V : Type*} {E : V → V → Prop} {entry : V} {rank : V → Nat}

def Above (up : V → Option V) (d v : V) : Prop :=
  Relation.ReflTransGen (fun x y => up x = some y) v d

/-- What a pointer from `v` to `u` keeps, whatever the others are. -/
structure Link (E : V → V → Prop) (entry : V) (rank : V → Nat) (v u : V) : Prop where
  reach : Relation.ReflTransGen E entry u
  above : rank u < rank v
  rises : Relation.ReflTransGen (Rises E rank) u v
  dominators : ∀ d, Dominates E entry d v → d ≠ v → Dominates E entry d u

/-- Pointers up the order, the entry's to itself. -/
structure Linked (E : V → V → Prop) (entry : V) (rank : V → Nat) (up : V → Option V) : Prop where
  root : up entry = some entry
  link : ∀ {v u}, up v = some u → v ≠ entry → Link E entry rank v u
  closed : ∀ {v u}, up v = some u → (up u).isSome

namespace Above

variable {up : V → Option V} {d u v w : V}

theorem of_up (h : Above up d u) (hup : up v = some u) : Above up d v := Relation.ReflTransGen.head hup h

theorem cases_up (h : Above up d v) (hup : up v = some u) : d = v ∨ Above up d u := by
  cases Relation.ReflTransGen.cases_head h with
  | inl heq => exact Or.inl heq.symm
  | inr hstep =>
    obtain ⟨w, hw, habove⟩ := hstep
    obtain rfl : u = w := Option.some.inj (hup.symm.trans hw)
    exact Or.inr habove

theorem trans (h : Above up d u) (h' : Above up u v) : Above up d v := Relation.ReflTransGen.trans h' h

/-- Moving one vertex up that does not stand above the other keeps what they share. -/
theorem move (hup : up v = some u) (hnot : ¬Above up v w) :
    (Above up d v ∧ Above up d w) ↔ (Above up d u ∧ Above up d w) := by
  constructor
  · intro h
    cases h.1.cases_up hup with
    | inl heq =>
      rw [heq] at h
      exact absurd h.2 hnot
    | inr habove => exact ⟨habove, h.2⟩
  · intro h
    exact ⟨h.1.of_up hup, h.2⟩

end Above

namespace Linked

variable {up : V → Option V} {d u v w : V}

theorem above_entry (hup : Linked E entry rank up) (h : Above up d v) (hv : v = entry) :
    d = entry := by
  induction h using Relation.ReflTransGen.head_induction_on with
  | refl => exact hv
  | head hstep _ ih =>
    rw [hv, hup.root] at hstep
    exact ih (Option.some.inj hstep).symm

theorem rank_above (hup : Linked E entry rank up) (h : Above up d v) : d = v ∨ rank d < rank v := by
  induction h using Relation.ReflTransGen.head_induction_on with
  | refl => exact Or.inl rfl
  | @head v u hstep _ ih =>
    by_cases hv : v = entry
    · rw [hv, hup.root] at hstep
      rw [hv, Option.some.inj hstep]
      exact ih
    · have hlt := (hup.link hstep hv).above
      cases ih with
      | inl heq =>
        rw [heq]
        exact Or.inr hlt
      | inr hlt' => exact Or.inr (hlt'.trans hlt)

theorem isSome_above (hup : Linked E entry rank up) (hv : (up v).isSome) (h : Above up d v) :
    (up d).isSome := by
  induction h using Relation.ReflTransGen.head_induction_on with
  | refl => exact hv
  | head hstep _ ih => exact ih (hup.closed hstep)

theorem reach_above (hup : Linked E entry rank up) (hv : Relation.ReflTransGen E entry v)
    (h : Above up d v) : Relation.ReflTransGen E entry d := by
  induction h using Relation.ReflTransGen.head_induction_on with
  | refl => exact hv
  | @head v u hstep _ ih =>
    by_cases hve : v = entry
    · rw [hve, hup.root] at hstep
      exact ih (Option.some.inj hstep ▸ .refl)
    · exact ih (hup.link hstep hve).reach

theorem rises_above (hup : Linked E entry rank up) (h : Above up d v) :
    Relation.ReflTransGen (Rises E rank) d v := by
  induction h using Relation.ReflTransGen.head_induction_on with
  | refl => exact .refl
  | @head v u hstep _ ih =>
    by_cases hve : v = entry
    · rw [hve, hup.root] at hstep
      rw [hve, Option.some.inj hstep]
      exact ih
    · exact ih.trans (hup.link hstep hve).rises

theorem above_of_dominates (hup : Linked E entry rank up) (hv : (up v).isSome)
    (h : Dominates E entry d v) : Above up d v := by
  generalize hn : rank v = n
  induction n using Nat.strong_induction_on generalizing v with
  | _ n ih =>
    by_cases hve : v = entry
    · have hstart : Path E entry v [v] := by
        rw [hve]
        exact .start
      obtain rfl : d = v := by simpa using h _ hstart
      exact .refl
    · by_cases hdv : d = v
      · rw [hdv]
        exact .refl
      · obtain ⟨u, hu⟩ := Option.isSome_iff_exists.mp hv
        have hlink := hup.link hu hve
        have habove := ih (rank u) (by have := hlink.above; omega) (hup.closed hu)
          (hlink.dominators d h hdv) rfl
        exact habove.of_up hu

section Update

variable [DecidableEq V]

/-- A new pointer changes nothing above a vertex it does not stand above. -/
theorem above_update {p : V} (hup : Linked E entry rank up) (hv : v ≠ p ∧ rank p ≤ rank v)
    (new : Option V) :
    Above (Function.update up v new) d p ↔ Above up d p := by
  have hnever : ∀ {x}, Above up x p → x ≠ v := by
    intro x hx heq
    cases hup.rank_above hx with
    | inl h => exact hv.1 (heq.symm.trans h)
    | inr h => rw [heq] at h; omega
  constructor
  · intro h
    have hboth : Above up d p := by
      induction h with
      | refl => exact .refl
      | tail _ hstep ih =>
        rw [Function.update_of_ne (hnever ih)] at hstep
        exact ih.tail hstep
    exact hboth
  · intro h
    induction h with
    | refl => exact .refl
    | tail hrest hstep ih =>
      apply ih.tail
      rwa [Function.update_of_ne (hnever hrest)]

/-- A vertex sent to what stands above a predecessor it rises from, and above no more than all
those that have pointers, keeps the pointers linked. -/
theorem update (hup : Linked E entry rank up) {p new : V} (hne : v ≠ entry) (hedge : Rises E rank p v)
    (hreach : Relation.ReflTransGen E entry p) (hp : (up p).isSome) (habove : Above up new p)
    (hshared : ∀ d, (∀ q, Relation.ReflTransGen E entry q → E q v → (up q).isSome →
      Above up d q) → Above up d new) :
    Linked E entry rank (Function.update up v (some new)) := by
  have hlow : rank new < rank v := by
    cases hup.rank_above habove with
    | inl h => rw [h]; exact hedge.2
    | inr h => exact h.trans hedge.2
  have hrises : Relation.ReflTransGen (Rises E rank) new v := (hup.rises_above habove).tail hedge
  constructor
  · rw [Function.update_of_ne (Ne.symm hne)]
    exact hup.root
  · intro x u hx hxe
    by_cases hxv : x = v
    · rw [hxv, Function.update_self, Option.some.injEq] at hx
      rw [hxv, ← hx]
      refine ⟨hup.reach_above hreach habove, hlow, hrises, ?_⟩
      intro d hd hdv
      have hmeet : Above up d new :=
        hshared d (fun q _ hq hsome => hup.above_of_dominates hsome (hd.pred hdv hq))
      exact hd.of_rises hrises (hup.rank_above hmeet)
    · rw [Function.update_of_ne hxv] at hx
      exact hup.link hx hxe
  · intro x u hx
    by_cases huv : u = v
    · simp [huv]
    · rw [Function.update_of_ne huv]
      by_cases hxv : x = v
      · rw [hxv, Function.update_self, Option.some.injEq] at hx
        rw [← hx]
        exact hup.isSome_above hp habove
      · rw [Function.update_of_ne hxv] at hx
        exact hup.closed hx

end Update

/-- Settled pointers: what stands above each vertex is what stands above all its predecessors. -/
theorem dominates_of_above (hup : Linked E entry rank up)
    (hsettled : ∀ {v}, Relation.ReflTransGen E entry v → v ≠ entry → ∃ u, up v = some u ∧
      ∀ p, Relation.ReflTransGen E entry p → E p v → ∀ d, Above up d u → Above up d p)
    (h : Above up d v) : Dominates E entry d v := by
  intro l hl
  induction hl with
  | start =>
    rw [hup.above_entry h rfl]
    simp
  | @step b c l hpath hedge ih =>
    by_cases hc : c = entry
    · rw [hc] at h
      rw [hup.above_entry h rfl]
      exact List.mem_cons_of_mem _ hpath.first_mem
    · obtain ⟨u, hu, hall⟩ := hsettled (hpath.reach.tail hedge) hc
      cases h.cases_up hu with
      | inl heq => simp [heq]
      | inr habove => exact List.mem_cons_of_mem _ (ih (hall b hpath.reach hedge d habove))

theorem immediate (hup : Linked E entry rank up) (hne : v ≠ entry) (hu : up v = some u)
    (hdom : ∀ d, Above up d v → Dominates E entry d v) :
    Immediate (Dominates E entry) u v where
  ne := by
    intro heq
    have hlt := (hup.link hu hne).above
    rw [heq] at hlt
    omega
  holds := hdom u (Above.of_up .refl hu)
  least d hdv hd := (hup.link hu hne).dominators d hd hdv

/-- The lowest vertex above all of `v`'s predecessors that have pointers, one of which rises to
`v`. -/
structure Meets (E : V → V → Prop) (entry : V) (rank : V → Nat) (up : V → Option V)
    (v new : V) : Prop where
  rises : ∃ p, Relation.ReflTransGen E entry p ∧ Rises E rank p v ∧ (up p).isSome
  shared : ∀ d, Above up d new ↔
    ∀ q, Relation.ReflTransGen E entry q → E q v → (up q).isSome → Above up d q

/-- Where the pointers are exact, a vertex already points to where its predecessors meet. -/
theorem meets_eq (hup : Linked E entry rank up) {new : V} (hne : v ≠ entry)
    (hreach : Relation.ReflTransGen E entry v)
    (hsome : ∀ {q}, Relation.ReflTransGen E entry q → (up q).isSome)
    (hexact : ∀ {d q}, Relation.ReflTransGen E entry q → Above up d q → Dominates E entry d q)
    (hmeets : Meets E entry rank up v new) : up v = some new := by
  obtain ⟨p, hp, hrise, hpsome⟩ := hmeets.rises
  have hall : ∀ {q}, Relation.ReflTransGen E entry q → E q v → Above up new q := fun hq hedge =>
    (hmeets.shared new).mp .refl _ hq hedge (hsome hq)
  have hnew : Relation.ReflTransGen E entry new := hup.reach_above hp (hall hp hrise.1)
  obtain ⟨u, hu⟩ := Option.isSome_iff_exists.mp (hsome hreach)
  have himm : Immediate (Dominates E entry) new v := by
    refine ⟨?_, ?_, ?_⟩
    · intro heq
      have hlow := hup.rank_above (hall hp hrise.1)
      have hlt := hrise.2
      rw [heq] at hlow
      cases hlow with
      | inl h => rw [h] at hlt; omega
      | inr h => omega
    · intro l hl
      cases hl with
      | start => exact absurd rfl hne
      | step hpath hedge =>
        exact List.mem_cons_of_mem _ (hexact hpath.reach (hall hpath.reach hedge) _ hpath)
    · intro d hdv hd
      have habove : Above up d new := by
        apply (hmeets.shared d).mpr
        intro q hq hedge hqsome
        exact hup.above_of_dominates hqsome (hd.pred hdv hedge)
      exact hexact hnew habove
  have hown := hup.immediate hne hu (fun d hd => hexact hreach hd)
  rw [hu, himm.unique hnew hown]

end Linked

/-! ## Passes over the order -/

section Passes

/-- The edges of a path that do not rise. -/
def falls (rank : V → Nat) : List V → Nat
  | c :: b :: l => (if rank c ≤ rank b then 1 else 0) + falls rank (b :: l)
  | _ => 0

theorem falls_suffix (rank : V → Nat) {l l' : List V} (h : l' <:+ l) : falls rank l' ≤ falls rank l := by
  induction l with
  | nil =>
    obtain rfl : l' = [] := List.suffix_nil.mp h
    exact le_refl _
  | cons c l ih =>
    rw [List.suffix_cons_iff] at h
    cases h with
    | inl h => rw [h]
    | inr h =>
      refine (ih h).trans ?_
      cases l with
      | nil => simp [falls]
      | cons b l => exact Nat.le_add_left _ _

theorem falls_lt_length (rank : V → Nat) {l : List V} (h : l ≠ []) : falls rank l < l.length := by
  induction l with
  | nil => exact absurd rfl h
  | cons c l ih =>
    cases l with
    | nil => simp [falls]
    | cons b l =>
      have hrest := ih (by simp)
      simp only [falls, List.length_cons] at hrest ⊢
      split <;> omega

/-- Above `v` stands nothing a path to `v` with fewer than `k` falls avoids. -/
def Told (E : V → V → Prop) (entry : V) (rank : V → Nat) (k : Nat) (up : V → Option V)
    (v : V) : Prop :=
  ∀ d l, Path E entry v l → d ∉ l → falls rank l < k → ¬Above up d v

/-- A pass over the pointers `before`, come to the vertices of rank `i`. -/
structure Passing (E : V → V → Prop) (entry : V) (rank : V → Nat) (k : Nat)
    (before up : V → Option V) (i : Nat) : Prop where
  linked : Linked E entry rank up
  passed : ∀ v, Relation.ReflTransGen E entry v → rank v < i →
    (up v).isSome ∧ Told E entry rank (k + 1) up v
  rest : ∀ v, Relation.ReflTransGen E entry v → i ≤ rank v → up v = before v
  given : 0 < k → ∀ v, Relation.ReflTransGen E entry v →
    (before v).isSome ∧ Told E entry rank k before v

namespace Passing

variable {k i : Nat} {before up : V → Option V} {d p v new : V} {l : List V}

/-- Halfway through a pass a vertex still to come is told as much as before it: what the vertices
above it have been told since is only more. -/
theorem not_above (h : Passing E entry rank k before up i) (hl : Path E entry p l) (hd : d ∉ l)
    (hk : falls rank l < k) : ¬Above up d p := by
  have htold := (h.given (by omega) p hl.reach).2
  have hgo : ∀ n x, rank x = n → Relation.ReflTransGen E entry x → Above before x p →
      ¬Above up d x := by
    intro n
    induction n using Nat.strong_induction_on with
    | _ n ih =>
      intro x hn hx habove hdx
      by_cases hxl : x ∈ l
      · obtain ⟨l', hl', hsuffix⟩ := hl.upTo hxl
        by_cases hlow : rank x < i
        · have hfalls := falls_suffix rank hsuffix
          exact (h.passed x hx hlow).2 d l' hl' (fun hin => hd (hsuffix.subset hin)) (by omega) hdx
        · by_cases hxe : x = entry
          · rw [h.linked.above_entry hdx hxe] at hd
            exact hd hl.first_mem
          · have hsame := h.rest x hx (by omega)
            cases Relation.ReflTransGen.cases_head hdx with
            | inl heq => exact hd (heq ▸ hxl)
            | inr hstep =>
              obtain ⟨u, hu, hdu⟩ := hstep
              have hlink := h.linked.link hu hxe
              have hup : Above before u p := habove.tail (hsame ▸ hu)
              exact ih (rank u) (by have := hlink.above; omega) u rfl hlink.reach hup hdu
      · exact htold x l hl hxl hk habove
  exact hgo _ p rfl hl.reach .refl

variable [DecidableEq V]

/-- One vertex of a pass. -/
theorem step (h : Passing E entry rank k before up i) (hne : v ≠ entry)
    (hreach : Relation.ReflTransGen E entry v) (hi : rank v = i)
    (hinj : ∀ w, Relation.ReflTransGen E entry w → rank w = rank v → w = v)
    (hmeets : Linked.Meets E entry rank up v new) :
    Passing E entry rank k before (Function.update up v (some new)) (i + 1) := by
  obtain ⟨p₀, hp₀, hrise₀, hsome₀⟩ := hmeets.rises
  have hnew : Above up new p₀ := (hmeets.shared new).mp .refl p₀ hp₀ hrise₀.1 hsome₀
  have hlow : v ≠ new ∧ rank new ≤ rank v := by
    have hlt : rank new < rank v := by
      cases h.linked.rank_above hnew with
      | inl heq => rw [heq]; exact hrise₀.2
      | inr hlt => exact hlt.trans hrise₀.2
    exact ⟨fun heq => by rw [heq] at hlt; omega, hlt.le⟩
  have hlinked := h.linked.update hne hrise₀ hp₀ hsome₀ hnew (fun d => (hmeets.shared d).mpr)
  refine ⟨hlinked, ?_, ?_, h.given⟩
  · intro w hw hwi
    by_cases hwv : w = v
    · rw [hwv]
      refine ⟨by simp, ?_⟩
      intro d l hl hd hfalls habove
      cases hl with
      | start => exact hne rfl
      | @step p _ l hpath hedge =>
        rw [List.mem_cons, not_or] at hd
        cases habove.cases_up (Function.update_self v (some new) up) with
        | inl heq => exact hd.1 heq
        | inr habove =>
          rw [h.linked.above_update hlow] at habove
          have hatp := (hmeets.shared d).mp habove p hpath.reach hedge
          obtain ⟨b, l', rfl⟩ : ∃ b l', l = b :: l' := by
            cases hpath <;> exact ⟨_, _, rfl⟩
          obtain rfl : b = p := by cases hpath <;> rfl
          simp only [falls] at hfalls
          by_cases hrank : rank v ≤ rank b
          · rw [if_pos hrank] at hfalls
            have hgiven := h.given (by omega) b hpath.reach
            rw [h.rest b hpath.reach (by omega)] at hatp
            exact h.not_above hpath hd.2 (by omega) (hatp hgiven.1)
          · rw [if_neg hrank] at hfalls
            obtain ⟨hsome, htold⟩ := h.passed b hpath.reach (by omega)
            exact htold d _ hpath hd.2 (by omega) (hatp hsome)
    · have hlt : rank w < i := by
        have hne' : rank w ≠ rank v := fun heq => hwv (hinj w hw heq)
        omega
      obtain ⟨hsome, htold⟩ := h.passed w hw hlt
      refine ⟨by rwa [Function.update_of_ne hwv], ?_⟩
      intro d l hl hd hfalls habove
      rw [h.linked.above_update ⟨Ne.symm hwv, by omega⟩] at habove
      exact htold d l hl hd hfalls habove
  · intro w hw hwi
    have hwv : w ≠ v := fun heq => by rw [heq] at hwi; omega
    rw [Function.update_of_ne hwv]
    exact h.rest w hw (by omega)

end Passing

/-- Told of as many falls as a path without repeats can have, what stands above dominates. -/
theorem dominates_of_told {up : V → Option V} {d v : V} {n : Nat}
    (hn : ∀ l, Path E entry v l → l.Nodup → l.length ≤ n) (htold : Told E entry rank n up v)
    (h : Above up d v) : Dominates E entry d v := by
  intro l hl
  by_contra hd
  obtain ⟨l', hl', hnodup, hsub⟩ := hl.simple
  have hne : l' ≠ [] := List.ne_nil_of_mem hl'.last_mem
  have hfalls := falls_lt_length rank hne
  have hlen := hn l' hl' hnodup
  exact htold d l' hl' (fun hin => hd (hsub hin)) (by omega) h

end Passes

end Orbistoun.Lib.Dominance
