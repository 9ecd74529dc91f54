import Mathlib.Data.List.Nodup
import Mathlib.Tactic

/-! # Rosters

A roster lists entries with distinct names: the parties inside a protocol, each with
what is known of it. Entries join, are struck off by name, and change without
changing their names.
-/

namespace Orbistoun.Lib.Roster

variable {ι : Type*} (name : ι → Nat)

/-- No two entries share a name. -/
def Distinct (l : List ι) : Prop := (l.map name).Nodup

/-- The roster without the entry called `k`. -/
def strike (l : List ι) (k : Nat) : List ι := l.filter (fun e => name e ≠ k)

def entry (l : List ι) (k : Nat) : Option ι := l.find? (fun e => name e = k)

/-- The entry called `k`, changed. -/
def amend (l : List ι) (k : Nat) (f : ι → ι) : List ι :=
  l.map (fun e => if name e = k then f e else e)

variable {name}

theorem entry_mem {l : List ι} {k : Nat} {e : ι} (h : entry name l k = some e) :
    e ∈ l ∧ name e = k :=
  ⟨List.mem_of_find?_eq_some h, by simpa using List.find?_some h⟩

theorem mem_strike {l : List ι} {k : Nat} {e : ι} : e ∈ strike name l k ↔ e ∈ l ∧ name e ≠ k := by
  simp [strike]

theorem distinct_strike {l : List ι} (h : Distinct name l) (k : Nat) :
    Distinct name (strike name l k) :=
  h.sublist (List.filter_sublist.map name)

theorem distinct_amend {l : List ι} (h : Distinct name l) (k : Nat) {f : ι → ι}
    (hf : ∀ e, name (f e) = name e) : Distinct name (amend name l k f) := by
  have hmap : (amend name l k f).map name = l.map name := by
    rw [amend, List.map_map]
    refine List.map_congr_left (fun e _ => ?_)
    simp only [Function.comp_apply]
    split
    · exact hf e
    · rfl
  rw [Distinct, hmap]
  exact h

theorem distinct_join {l : List ι} (h : Distinct name l) {e : ι} (he : entry name l (name e) = none) :
    Distinct name (l ++ [e]) := by
  rw [Distinct, List.map_append, List.nodup_append]
  refine ⟨h, by simp, ?_⟩
  intro a ha b hb
  obtain ⟨d, hd, rfl⟩ := List.mem_map.mp ha
  rw [List.map_singleton, List.mem_singleton] at hb
  have hne := List.find?_eq_none.mp he d hd
  subst hb
  simpa using hne

@[simp] theorem length_amend (l : List ι) (k : Nat) (f : ι → ι) :
    (amend name l k f).length = l.length := by
  simp [amend]

theorem mem_amend {l : List ι} {k : Nat} {f : ι → ι} {e : ι} (h : e ∈ amend name l k f) :
    ∃ d ∈ l, e = d ∨ e = f d := by
  obtain ⟨d, hd, rfl⟩ := List.mem_map.mp h
  refine ⟨d, hd, ?_⟩
  split
  · exact .inr rfl
  · exact .inl rfl

theorem countP_strike {l : List ι} (h : Distinct name l) {e : ι} (he : e ∈ l) (p : ι → Bool) :
    (strike name l (name e)).countP p + (if p e then 1 else 0) = l.countP p := by
  induction l with
  | nil => simp at he
  | cons d l ih =>
      rw [Distinct, List.map_cons, List.nodup_cons] at h
      rcases List.mem_cons.mp he with rfl | he
      · have hself : strike name l (name e) = l := by
          refine List.filter_eq_self.mpr (fun d hd => ?_)
          have hne : name d ≠ name e := fun heq => h.1 (heq ▸ List.mem_map_of_mem hd)
          simpa using hne
        rw [strike, List.filter_cons_of_neg (by simp), List.countP_cons]
        rw [strike] at hself
        rw [hself]
      · have hne : name d ≠ name e := fun heq => h.1 (heq ▸ List.mem_map_of_mem he)
        have hrest := ih h.2 he
        rw [strike, List.filter_cons_of_pos (by simpa using hne), List.countP_cons,
          List.countP_cons, ← hrest, strike]
        omega

theorem length_strike {l : List ι} (h : Distinct name l) {e : ι} (he : e ∈ l) :
    (strike name l (name e)).length + 1 = l.length := by
  have hcount := countP_strike h he (fun _ => true)
  simpa using hcount

end Orbistoun.Lib.Roster
