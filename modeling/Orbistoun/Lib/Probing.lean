import Mathlib.Tactic

/-! # Seats in a ring, found by a bounded probe

Each of a list of homes takes the first free slot at or after it in a ring, within a fixed number
of slots, or there is no seating. Seating a list in a ring seats it in every ring the size of
which the first divides the other way: a larger ring never crowds what a smaller one holds.
-/

namespace Orbistoun.Lib.Probing

/-- The first free slot of a ring of `n` within the probes of a home. -/
def seat (n probes : Nat) (taken : List Nat) (home : Nat) : Option Nat :=
  ((List.range probes).map (fun d => (home + d) % n)).find? (fun slot => decide (slot ∉ taken))

def settle (n probes : Nat) : List Nat → List Nat → Option (List Nat)
  | taken, [] => some taken
  | taken, home :: homes =>
    (seat n probes taken home).bind (fun slot => settle n probes (taken ++ [slot]) homes)

variable {n m probes home slot : Nat} {taken coarse homes seats : List Nat}

theorem seat_eq_some_iff :
    seat n probes taken home = some slot ↔
      slot ∉ taken ∧ ∃ d, d < probes ∧ (home + d) % n = slot ∧
        ∀ e, e < d → (home + e) % n ∈ taken := by
  unfold seat
  rw [List.find?_eq_some_iff_getElem]
  constructor
  · rintro ⟨hfree, d, hd, hslot, hbefore⟩
    refine ⟨of_decide_eq_true hfree, d, ?_, ?_, ?_⟩
    · simpa using hd
    · simpa using hslot
    · intro e he
      simpa using hbefore e he
  · rintro ⟨hfree, d, hd, hslot, hbefore⟩
    refine ⟨decide_eq_true hfree, d, by simpa using hd, by simpa using hslot, ?_⟩
    intro e he
    simpa using hbefore e he

theorem seat_eq_none_iff :
    seat n probes taken home = none ↔ ∀ d, d < probes → (home + d) % n ∈ taken := by
  unfold seat
  simp

theorem seat_free (h : seat n probes taken home = some slot) : slot ∉ taken :=
  (seat_eq_some_iff.mp h).1

theorem seat_near (h : seat n probes taken home = some slot) :
    ∃ d, d < probes ∧ (home + d) % n = slot := by
  obtain ⟨-, d, hd, hslot, -⟩ := seat_eq_some_iff.mp h
  exact ⟨d, hd, hslot⟩

theorem seat_lt (hpos : 0 < n) (h : seat n probes taken home = some slot) : slot < n := by
  obtain ⟨d, -, rfl⟩ := seat_near h
  exact Nat.mod_lt _ hpos

/-- A home seated in a coarser ring, where every slot taken in the finer one is taken too, is
seated in the finer one, at a slot the coarser one has taken afterwards. -/
theorem seat_finer (hdvd : m ∣ n) (hin : ∀ t ∈ taken, t % m ∈ coarse)
    (h : seat m probes coarse home = some slot) :
    ∃ fine, seat n probes taken home = some fine ∧ fine % m ∈ coarse ++ [slot] := by
  obtain ⟨hfree, d, hd, hslot, hcrowd⟩ := seat_eq_some_iff.mp h
  have hfold : ∀ e, (home + e) % n % m = (home + e) % m := fun e => Nat.mod_mod_of_dvd _ hdvd
  have hopen : (home + d) % n ∉ taken := by
    intro hmem
    have := hin _ hmem
    rw [hfold, hslot] at this
    exact hfree this
  cases hfine : seat n probes taken home with
  | none => exact absurd (seat_eq_none_iff.mp hfine d hd) hopen
  | some fine =>
    obtain ⟨-, e, -, rfl, hbefore⟩ := seat_eq_some_iff.mp hfine
    refine ⟨_, rfl, ?_⟩
    rw [hfold]
    have hle : e ≤ d := by
      by_contra hlt
      exact hopen (hbefore d (Nat.lt_of_not_le hlt))
    rcases Nat.lt_or_eq_of_le hle with hlt | rfl
    · exact List.mem_append_left _ (hcrowd e hlt)
    · rw [hslot]
      exact List.mem_append_right _ (List.mem_singleton_self _)

/-- A larger ring seats every list a smaller one seats. -/
theorem settle_finer (hdvd : m ∣ n) (hin : ∀ t ∈ taken, t % m ∈ coarse)
    (h : (settle m probes coarse homes).isSome) : (settle n probes taken homes).isSome := by
  induction homes generalizing taken coarse with
  | nil => rfl
  | cons home homes ih =>
    simp only [settle] at h ⊢
    cases hseat : seat m probes coarse home with
    | none =>
      rw [hseat] at h
      cases h
    | some slot =>
      rw [hseat] at h
      obtain ⟨fine, hfine, hmem⟩ := seat_finer hdvd hin hseat
      rw [hfine]
      apply ih _ h
      intro t ht
      rcases List.mem_append.mp ht with hold | hnew
      · exact List.mem_append_left _ (hin t hold)
      · rw [List.mem_singleton.mp hnew]
        exact hmem

end Orbistoun.Lib.Probing
