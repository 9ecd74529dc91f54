import Mathlib.Data.List.Basic
import Mathlib.Tactic

/-! # Lists of half-open spans

Any type whose values stand for a span `[lo a, hi a)` of addresses: lists of them in
address order, the bytes they cover and how many these are. Replacing a run of
neighbours by others that cover the same bytes changes none of it.
-/

namespace Orbistoun.Lib.Spans

variable {ι : Type*} (lo hi : ι → Nat)

/-- In address order and disjoint. -/
def Ordered (l : List ι) : Prop := l.Pairwise (fun a b => hi a ≤ lo b)

/-- No span is empty. -/
def Proper (l : List ι) : Prop := ∀ a ∈ l, lo a < hi a

/-- Some span of the list holds the byte `x`. -/
def Covers (l : List ι) (x : Nat) : Prop := ∃ a ∈ l, lo a ≤ x ∧ x < hi a

/-- How many bytes the spans hold. -/
def total (l : List ι) : Nat := (l.map (fun a => hi a - lo a)).sum

variable {lo hi}

@[simp] theorem total_append (l l' : List ι) :
    total lo hi (l ++ l') = total lo hi l + total lo hi l' := by
  simp [total]

@[simp] theorem total_nil : total lo hi [] = 0 := rfl

@[simp] theorem total_cons (a : ι) (l : List ι) :
    total lo hi (a :: l) = hi a - lo a + total lo hi l := by
  simp [total]

theorem covers_append (l l' : List ι) (x : Nat) :
    Covers lo hi (l ++ l') x ↔ Covers lo hi l x ∨ Covers lo hi l' x := by
  simp only [Covers, List.mem_append, or_and_right, exists_or]

theorem covers_cons (a : ι) (l : List ι) (x : Nat) :
    Covers lo hi (a :: l) x ↔ (lo a ≤ x ∧ x < hi a) ∨ Covers lo hi l x := by
  simp [Covers]

@[simp] theorem not_covers_nil (x : Nat) : ¬ Covers lo hi ([] : List ι) x := by
  simp [Covers]

/-- Disjoint spans hold as many bytes as the set of them has. -/
theorem total_eq_card {l : List ι} (h : Ordered lo hi l) (S : Finset Nat)
    (hS : ∀ x, x ∈ S ↔ Covers lo hi l x) : total lo hi l = S.card := by
  induction l generalizing S with
  | nil =>
    have hempty : S = ∅ := Finset.eq_empty_of_forall_notMem (fun x hx => by simpa using (hS x).mp hx)
    rw [hempty]
    rfl
  | cons a l ih =>
    obtain ⟨hbelow, hl⟩ := List.pairwise_cons.mp h
    have hrest : ∀ x, x ∈ S \ Finset.Ico (lo a) (hi a) ↔ Covers lo hi l x := by
      intro x
      rw [Finset.mem_sdiff, Finset.mem_Ico, hS, covers_cons]
      constructor
      · intro hx
        exact hx.1.resolve_left hx.2
      · intro hx
        apply And.intro (Or.inr hx)
        obtain ⟨b, hb, hle, -⟩ := hx
        have := hbelow b hb
        omega
    have hsub : Finset.Ico (lo a) (hi a) ⊆ S := by
      intro x hx
      rw [hS, covers_cons]
      exact Or.inl (Finset.mem_Ico.mp hx)
    have hcard := Finset.card_sdiff_add_card_eq_card hsub
    rw [total_cons, ih hl _ hrest]
    rw [Nat.card_Ico] at hcard
    omega

/-! ## Replacing neighbours -/

theorem ordered_replace {pre old mid post : List ι} (h : Ordered lo hi (pre ++ old ++ post))
    (hmid : Ordered lo hi mid) (hlo : ∀ b ∈ mid, ∃ a ∈ old, lo a ≤ lo b)
    (hhi : ∀ b ∈ mid, ∃ a ∈ old, hi b ≤ hi a) : Ordered lo hi (pre ++ mid ++ post) := by
  simp only [Ordered, List.pairwise_append, List.mem_append] at h hmid ⊢
  obtain ⟨⟨hpre, -, hpo⟩, hpost, hop⟩ := h
  refine ⟨⟨hpre, hmid, ?_⟩, hpost, ?_⟩
  · intro p hp b hb
    obtain ⟨a, ha, hab⟩ := hlo b hb
    exact (hpo p hp a ha).trans hab
  · rintro b (hb | hb) q hq
    · exact hop b (.inl hb) q hq
    · obtain ⟨a, ha, hab⟩ := hhi b hb
      exact hab.trans (hop a (.inr ha) q hq)

theorem proper_replace {pre old mid post : List ι} (h : Proper lo hi (pre ++ old ++ post))
    (hmid : Proper lo hi mid) : Proper lo hi (pre ++ mid ++ post) := by
  intro b hb
  simp only [List.mem_append] at hb
  rcases hb with (hb | hb) | hb
  · exact h b (by simp [hb])
  · exact hmid b hb
  · exact h b (by simp [hb])

theorem covers_replace {pre old mid post : List ι} {x : Nat}
    (hmid : Covers lo hi mid x ↔ Covers lo hi old x) :
    Covers lo hi (pre ++ mid ++ post) x ↔ Covers lo hi (pre ++ old ++ post) x := by
  rw [covers_append, covers_append, covers_append, covers_append, hmid]

/-! ## Walks -/

/-- A span's end separates the list: those up to it end there or before, those after
it end later. -/
theorem ends_split {pre post : List ι} {a : ι} (h : Ordered lo hi (pre ++ a :: post))
    (hp : Proper lo hi (pre ++ a :: post)) :
    (∀ p ∈ pre ++ [a], hi p ≤ hi a) ∧ ∀ q ∈ post, hi a < hi q := by
  obtain ⟨-, hpost, hbefore⟩ := List.pairwise_append.mp h
  have ha := hp a (by simp)
  refine ⟨?_, ?_⟩
  · intro p hpm
    rcases List.mem_append.mp hpm with hpm | hpm
    · have := hbefore p hpm a (List.mem_cons_self ..)
      omega
    · rw [List.mem_singleton.mp hpm]
  · intro q hq
    have hle := (List.pairwise_cons.mp hpost).1 q hq
    have hlt := hp q (by simp [hq])
    omega

end Orbistoun.Lib.Spans
