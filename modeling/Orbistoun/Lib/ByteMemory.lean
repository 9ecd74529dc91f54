import Orbistoun.Lib.Codes

/-! # A memory of bytes

Runs of bytes stored and loaded, and the little-endian words in them: what was stored is
loaded back, and what is apart from a store is as before.
-/

namespace Orbistoun.Lib.ByteMemory

open Orbistoun.Lib.Codes

abbrev Memory := Nat → UInt8

def store (m : Memory) (at' : Nat) (data : List UInt8) : Memory :=
  fun a => if at' ≤ a ∧ a < at' + data.length then data.getD (a - at') 0 else m a

/-- So many bytes from an address on. -/
def load (m : Memory) (at' count : Nat) : List UInt8 := (List.range count).map (fun i => m (at' + i))

/-- The little-endian number of a width at an address. -/
def word (m : Memory) (width at' : Nat) : Nat := ofLittleEndian (load m at' width)

/-- Two runs share no byte. -/
def Apart (a n b k : Nat) : Prop := a + n ≤ b ∨ b + k ≤ a

instance (a n b k : Nat) : Decidable (Apart a n b k) := inferInstanceAs (Decidable (_ ∨ _))

theorem store_outside {m : Memory} {at' a : Nat} {data : List UInt8}
    (h : ¬ (at' ≤ a ∧ a < at' + data.length)) : store m at' data a = m a := if_neg h

theorem store_inside {m : Memory} {at' i : Nat} {data : List UInt8} (h : i < data.length) :
    store m at' data (at' + i) = data[i] := by
  unfold store
  rw [if_pos ⟨Nat.le_add_right _ _, Nat.add_lt_add_left h _⟩, Nat.add_sub_cancel_left]
  simp [h]

@[simp]
theorem load_length (m : Memory) (at' count : Nat) : (load m at' count).length = count := by
  simp [load]

theorem load_append (m : Memory) (at' count more : Nat) :
    load m at' (count + more) = load m at' count ++ load m (at' + count) more := by
  simp only [load, List.range_add, List.map_append, List.map_map]
  congr 1
  apply List.map_congr_left
  intro i _
  rw [Function.comp_apply, Nat.add_assoc]

theorem load_congr {m m' : Memory} {at' count : Nat} (h : ∀ i < count, m (at' + i) = m' (at' + i)) :
    load m at' count = load m' at' count := by
  apply List.map_congr_left
  intro i hi
  exact h i (List.mem_range.mp hi)

theorem load_store (m : Memory) (at' : Nat) (data : List UInt8) :
    load (store m at' data) at' data.length = data := by
  apply List.ext_getElem (load_length _ _ _)
  intro i hi hi'
  rw [← @store_inside m at' i data hi']
  simp [load]

theorem load_store_apart {m : Memory} {at' other count : Nat} {data : List UInt8}
    (h : Apart at' data.length other count) :
    load (store m at' data) other count = load m other count := by
  apply load_congr
  intro i hi
  apply store_outside
  unfold Apart at h
  omega

theorem word_store {m : Memory} {width at' n : Nat} (h : n < 256 ^ width) :
    word (store m at' (littleEndian width n)) width at' = n := by
  have hload := load_store m at' (littleEndian width n)
  rw [littleEndian_length] at hload
  rw [word, hload, ofLittleEndian_littleEndian h]

theorem word_store_apart {m : Memory} {width at' other : Nat} {data : List UInt8}
    (h : Apart at' data.length other width) :
    word (store m at' data) width other = word m width other := by
  rw [word, load_store_apart h, word]

end Orbistoun.Lib.ByteMemory
