import Mathlib.Combinatorics.Enumerative.DoubleCounting
import Mathlib.Tactic

/-! # A map laid out in cells

A cell holds a key with its value, or nothing, and a key may lie only in the cells of its probes.
Whichever of those cells a search stops at, it stops at the key's one cell, so the order of the
probes never shows.
-/

namespace Orbistoun.Lib.Cells

variable {ι κ β : Type} {probes : κ → List ι} {store : ι → Option (κ × β)} {map : κ → Option β}
  {cell : ι} {key : κ} {value other : β}

/-- The cells hold a map: each key in one cell of its probes, and no other key anywhere. -/
structure Holds (probes : κ → List ι) (store : ι → Option (κ × β)) (map : κ → Option β) :
    Prop where
  near : ∀ key value, map key = some value → ∃ cell ∈ probes key, store cell = some (key, value)
  sound : ∀ cell key value, store cell = some (key, value) → map key = some value
  single : ∀ cell cell' key value value', store cell = some (key, value) →
    store cell' = some (key, value') → cell = cell'

theorem Holds.empty (h : ∀ cell, store cell = none) : Holds probes store (fun _ => none) where
  near _ _ hmap := by cases hmap
  sound cell _ _ hcell := by
    rw [h cell] at hcell
    cases hcell
  single cell _ _ _ _ hcell := by
    rw [h cell] at hcell
    cases hcell

theorem Holds.exists_iff (h : Holds probes store map) :
    (∃ cell ∈ probes key, ∃ value, store cell = some (key, value)) ↔ ∃ value, map key = some value := by
  constructor
  · rintro ⟨cell, -, value, hcell⟩
    exact ⟨value, h.sound cell key value hcell⟩
  · rintro ⟨value, hmap⟩
    obtain ⟨cell, hnear, hcell⟩ := h.near key value hmap
    exact ⟨cell, hnear, value, hcell⟩

theorem Holds.length_le (h : Holds probes store map) {keys : List κ} (hnodup : keys.Nodup)
    (hheld : ∀ key ∈ keys, ∃ value, map key = some value) (cells : Finset ι)
    (hcells : ∀ key, ∀ cell ∈ probes key, cell ∈ cells) : keys.length ≤ cells.card := by
  classical
  rw [← List.toFinset_card_of_nodup hnodup]
  apply Finset.card_le_card_of_forall_subsingleton
    (fun key cell => ∃ value, store cell = some (key, value))
  · intro key hkey
    obtain ⟨value, hmap⟩ := hheld key (List.mem_toFinset.mp hkey)
    obtain ⟨cell, hnear, hcell⟩ := h.near key value hmap
    exact ⟨cell, hcells key cell hnear, value, hcell⟩
  · rintro cell - one ⟨-, v, hv⟩ two ⟨-, w, hw⟩
    rw [hv] at hw
    exact (Prod.mk.inj (Option.some.inj hw)).1

variable [DecidableEq ι] [DecidableEq κ]

theorem Holds.insert (h : Holds probes store map) (hnew : map key = none)
    (hnear : cell ∈ probes key) (hempty : store cell = none) :
    Holds probes (Function.update store cell (some (key, value)))
      (Function.update map key (some value)) := by
  have hfresh : ∀ c w, store c ≠ some (key, w) := by
    intro c w hc
    rw [h.sound c key w hc] at hnew
    cases hnew
  constructor
  · intro k v hk
    by_cases hkey : k = key
    · subst hkey
      rw [Function.update_self] at hk
      cases hk
      exact ⟨cell, hnear, Function.update_self ..⟩
    · rw [Function.update_of_ne hkey] at hk
      obtain ⟨c, hc, hstore⟩ := h.near k v hk
      refine ⟨c, hc, ?_⟩
      rw [Function.update_of_ne, hstore]
      intro heq
      rw [heq, hempty] at hstore
      cases hstore
  · intro c k v hc
    by_cases hcell : c = cell
    · subst hcell
      rw [Function.update_self] at hc
      cases hc
      exact Function.update_self ..
    · rw [Function.update_of_ne hcell] at hc
      rw [Function.update_of_ne, h.sound c k v hc]
      intro heq
      subst heq
      exact hfresh c v hc
  · intro c d k v w hc hd
    by_cases hcell : c = cell <;> by_cases hother : d = cell
    · rw [hcell, hother]
    · subst hcell
      rw [Function.update_self] at hc
      rw [Function.update_of_ne hother] at hd
      cases hc
      exact absurd hd (hfresh d w)
    · subst hother
      rw [Function.update_of_ne hcell] at hc
      rw [Function.update_self] at hd
      cases hd
      exact absurd hc (hfresh c v)
    · rw [Function.update_of_ne hcell] at hc
      rw [Function.update_of_ne hother] at hd
      exact h.single c d k v w hc hd

theorem Holds.replace (h : Holds probes store map) (hcell : store cell = some (key, value)) :
    Holds probes (Function.update store cell (some (key, other)))
      (Function.update map key (some other)) := by
  have hof : ∀ {c k v}, Function.update store cell (some (key, other)) c = some (k, v) →
      ∃ w, store c = some (k, w) := by
    intro c k v hc
    by_cases hsame : c = cell
    · subst hsame
      rw [Function.update_self] at hc
      cases hc
      exact ⟨value, hcell⟩
    · rw [Function.update_of_ne hsame] at hc
      exact ⟨v, hc⟩
  constructor
  · intro k v hk
    by_cases hkey : k = key
    · subst hkey
      rw [Function.update_self] at hk
      cases hk
      obtain ⟨c, hc, hstore⟩ := h.near k value (h.sound cell k value hcell)
      have hsame := h.single c cell k value value hstore hcell
      exact ⟨c, hc, by rw [hsame, Function.update_self]⟩
    · rw [Function.update_of_ne hkey] at hk
      obtain ⟨c, hc, hstore⟩ := h.near k v hk
      refine ⟨c, hc, ?_⟩
      rw [Function.update_of_ne, hstore]
      intro heq
      rw [heq, hcell] at hstore
      exact hkey (Prod.mk.inj (Option.some.inj hstore)).1.symm
  · intro c k v hc
    by_cases hsame : c = cell
    · subst hsame
      rw [Function.update_self] at hc
      cases hc
      exact Function.update_self ..
    · rw [Function.update_of_ne hsame] at hc
      rw [Function.update_of_ne, h.sound c k v hc]
      intro heq
      subst heq
      exact hsame (h.single c cell k v value hc hcell)
  · intro c d k v w hc hd
    obtain ⟨v', hc⟩ := hof hc
    obtain ⟨w', hd⟩ := hof hd
    exact h.single c d k v' w' hc hd

end Orbistoun.Lib.Cells
