import Mathlib.Data.Nat.Bitwise
import Mathlib.Data.List.Basic
import Mathlib.Tactic.Ring

/-!
# Exclusive-or terms of a value's bits

A list of terms, one for each bit of a value, gives the exclusive-or of the terms whose bits are
set: a linear map over bits.  Terms that elimination finds independent tell values apart.

A placement by blocks adds the start of a block's row and the start of its column, and
exclusive-ors a term of each inside the block.
-/

namespace Orbistoun.Lib.Flips

/-- The exclusive-or of the terms whose bits of `v` are set, the lowest bit's first. -/
def flips : List Nat → Nat → Nat
  | [], _ => 0
  | term :: terms, v => (if v.testBit 0 then term else 0) ^^^ flips terms (v / 2)

@[simp] theorem flips_nil (v : Nat) : flips [] v = 0 := rfl

theorem flips_cons (term : Nat) (terms : List Nat) (v : Nat) :
    flips (term :: terms) v = (if v.testBit 0 then term else 0) ^^^ flips terms (v / 2) := rfl

@[simp] theorem flips_zero (terms : List Nat) : flips terms 0 = 0 := by
  induction terms with
  | nil => rfl
  | cons term terms ih => simp [flips_cons, ih]

/-- Exclusive-or regrouped by pairs. -/
theorem xor_pairs (a b c d : Nat) : (a ^^^ b) ^^^ (c ^^^ d) = (a ^^^ c) ^^^ (b ^^^ d) := by
  calc (a ^^^ b) ^^^ (c ^^^ d)
      = a ^^^ (b ^^^ c) ^^^ d := by simp only [Nat.xor_assoc]
    _ = a ^^^ (c ^^^ b) ^^^ d := by rw [Nat.xor_comm b c]
    _ = (a ^^^ c) ^^^ (b ^^^ d) := by simp only [Nat.xor_assoc]

theorem flips_xor (terms : List Nat) (v w : Nat) :
    flips terms (v ^^^ w) = flips terms v ^^^ flips terms w := by
  induction terms generalizing v w with
  | nil => simp
  | cons term terms ih =>
      have hhead : (if (v ^^^ w).testBit 0 then term else 0) =
          (if v.testBit 0 then term else 0) ^^^ (if w.testBit 0 then term else 0) := by
        rw [Nat.testBit_xor]
        cases v.testBit 0 <;> cases w.testBit 0 <;> simp
      rw [flips_cons, flips_cons, flips_cons, Nat.xor_div_two, ih, hhead, xor_pairs]

theorem flips_lt {terms : List Nat} {k : Nat} (h : ∀ t ∈ terms, t < 2 ^ k) (v : Nat) :
    flips terms v < 2 ^ k := by
  induction terms generalizing v with
  | nil => exact Nat.two_pow_pos k
  | cons term terms ih =>
      have hterm := h term List.mem_cons_self
      have hrest := ih (fun t ht => h t (List.mem_cons_of_mem term ht)) (v / 2)
      rw [flips_cons]
      apply Nat.xor_lt_two_pow _ hrest
      split
      · exact hterm
      · exact Nat.two_pow_pos k

/-- Terms that are multiples of a power of two flip no bit below it. -/
theorem flips_mod {terms : List Nat} {k : Nat} (h : ∀ t ∈ terms, t % 2 ^ k = 0) (v : Nat) :
    flips terms v % 2 ^ k = 0 := by
  induction terms generalizing v with
  | nil => simp
  | cons term terms ih =>
      have hterm := h term List.mem_cons_self
      have hrest := ih (fun t ht => h t (List.mem_cons_of_mem term ht)) (v / 2)
      rw [flips_cons, Nat.xor_mod_two_pow, hrest, Nat.xor_zero]
      split
      · exact hterm
      · exact Nat.zero_mod _

theorem testBit_zero_mod (v n : Nat) : (v % 2 ^ (n + 1)).testBit 0 = v.testBit 0 := by
  simp

theorem mod_div_two (v n : Nat) : v % 2 ^ (n + 1) / 2 = v / 2 % 2 ^ n := by
  rw [pow_succ, Nat.mul_comm, Nat.mod_mul_right_div_self]

/-- Terms read no bit past their last. -/
theorem flips_of_mod (terms : List Nat) (v : Nat) :
    flips terms (v % 2 ^ terms.length) = flips terms v := by
  induction terms generalizing v with
  | nil => simp
  | cons term terms ih =>
      rw [List.length_cons, flips_cons, flips_cons, testBit_zero_mod, mod_div_two, ih]

theorem flips_append (terms more : List Nat) (v : Nat) :
    flips (terms ++ more) v = flips terms v ^^^ flips more (v / 2 ^ terms.length) := by
  induction terms generalizing v with
  | nil => simp
  | cons term terms ih =>
      rw [List.cons_append, flips_cons, flips_cons, ih, Nat.xor_assoc, List.length_cons, pow_succ,
        Nat.mul_comm, Nat.div_div_eq_div_mul]

section Independent

def eliminate (pivot : Nat) (terms : List Nat) : List Nat :=
  terms.map fun t => if t.testBit pivot.log2 then t ^^^ pivot else t

/-- Whether elimination, a term at a time, finds no term that the others give. -/
def independentFor : Nat → List Nat → Bool
  | 0, terms => terms.isEmpty
  | _ + 1, [] => true
  | n + 1, pivot :: terms => pivot != 0 && independentFor n (eliminate pivot terms)

def independent (terms : List Nat) : Bool := independentFor terms.length terms

theorem flips_eliminate (pivot : Nat) (terms : List Nat) (v : Nat) :
    ∃ c : Bool, flips terms v = flips (eliminate pivot terms) v ^^^ (if c then pivot else 0) ∧
      (v = 0 → c = false) := by
  induction terms generalizing v with
  | nil => exact ⟨false, by simp [eliminate], fun _ => rfl⟩
  | cons term terms ih =>
      obtain ⟨c, heq, hzero⟩ := ih (v / 2)
      have hcons : eliminate pivot (term :: terms) =
          (if term.testBit pivot.log2 then term ^^^ pivot else term) :: eliminate pivot terms := rfl
      by_cases hbit : v.testBit 0 = true ∧ term.testBit pivot.log2 = true
      · have hne : v ≠ 0 := by
          rintro rfl
          simp at hbit
        refine ⟨!c, ?_, fun h => absurd h hne⟩
        rw [hcons, flips_cons, flips_cons, if_pos hbit.1, if_pos hbit.1, if_pos hbit.2, heq]
        have hpivot : (if (!c) = true then pivot else 0) =
            pivot ^^^ (if c = true then pivot else 0) := by
          cases c <;> simp
        rw [hpivot, xor_pairs, Nat.xor_assoc term, Nat.xor_self, Nat.xor_zero]
      · refine ⟨c, ?_, fun h => hzero (by rw [h])⟩
        have hsame : (if v.testBit 0 = true then
            (if term.testBit pivot.log2 = true then term ^^^ pivot else term) else 0) =
            if v.testBit 0 = true then term else 0 := by
          by_cases hv : v.testBit 0 = true
          · rw [if_pos hv, if_pos hv, if_neg (fun ht => hbit ⟨hv, ht⟩)]
          · rw [if_neg hv, if_neg hv]
        rw [hcons, flips_cons, flips_cons, hsame, heq, Nat.xor_assoc]

theorem testBit_log2 {pivot : Nat} (h : pivot ≠ 0) : pivot.testBit pivot.log2 = true := by
  have hlow : 2 ^ pivot.log2 ≤ pivot := Nat.log2_self_le h
  have hhigh : pivot < 2 ^ (pivot.log2 + 1) := Nat.lt_log2_self
  have hone : pivot / 2 ^ pivot.log2 = 1 := by
    rw [pow_succ] at hhigh
    apply Nat.div_eq_of_lt_le
    · omega
    · omega
  rw [Nat.testBit_eq_decide_div_mod_eq, hone]
  rfl

theorem testBit_flips_of_forall {terms : List Nat} {i : Nat} (h : ∀ t ∈ terms, t.testBit i = false)
    (v : Nat) : (flips terms v).testBit i = false := by
  induction terms generalizing v with
  | nil => simp
  | cons term terms ih =>
      have hterm := h term List.mem_cons_self
      have hrest := ih (fun t ht => h t (List.mem_cons_of_mem term ht)) (v / 2)
      rw [flips_cons, Nat.testBit_xor, hrest, Bool.xor_false]
      split
      · exact hterm
      · exact Nat.zero_testBit i

theorem testBit_eliminate {pivot : Nat} (hpivot : pivot ≠ 0) (terms : List Nat) :
    ∀ t ∈ eliminate pivot terms, t.testBit pivot.log2 = false := by
  intro t ht
  obtain ⟨s, -, rfl⟩ := List.mem_map.mp ht
  split
  case isTrue hbit => rw [Nat.testBit_xor, hbit, testBit_log2 hpivot, Bool.xor_self]
  case isFalse hbit => exact Bool.eq_false_iff.mpr hbit

theorem independentFor_zero {n : Nat} {terms : List Nat} (h : independentFor n terms = true)
    {v : Nat} (hv : v < 2 ^ terms.length) (hflips : flips terms v = 0) : v = 0 := by
  induction n generalizing terms v with
  | zero =>
      have hnil : terms = [] := by simpa [independentFor] using h
      subst hnil
      simpa using hv
  | succ n ih =>
      cases terms with
      | nil => simpa using hv
      | cons pivot terms =>
          have hboth : pivot ≠ 0 ∧ independentFor n (eliminate pivot terms) = true := by
            simpa [independentFor] using h
          obtain ⟨c, heq, hzero⟩ := flips_eliminate pivot terms (v / 2)
          have hrest := testBit_flips_of_forall (testBit_eliminate hboth.1 terms) (v / 2)
          -- the pivot's top bit is in nothing but the pivot
          have hpivot : (if v.testBit 0 = true then pivot else 0) ^^^
              (if c = true then pivot else 0) = 0 := by
            have hbit := congrArg (fun w => w.testBit pivot.log2) hflips
            rw [flips_cons, heq] at hbit
            simp only [Nat.testBit_xor, hrest, Nat.zero_testBit, Bool.false_xor] at hbit
            cases hv0 : v.testBit 0 <;> cases hc : c <;>
              simp [hv0, hc, testBit_log2 hboth.1] at hbit ⊢
          have hless : flips (eliminate pivot terms) (v / 2) = 0 := by
            rw [flips_cons, heq, Nat.xor_comm (flips _ _), ← Nat.xor_assoc, hpivot,
              Nat.zero_xor] at hflips
            exact hflips
          have hhalf : v / 2 = 0 := by
            apply ih hboth.2 _ hless
            rw [List.length_cons, pow_succ] at hv
            simp only [eliminate, List.length_map]
            omega
          have hc := hzero hhalf
          rw [hc] at hpivot
          have hlow : v.testBit 0 = false := by
            cases hv0 : v.testBit 0 with
            | false => rfl
            | true =>
                rw [hv0] at hpivot
                simp [hboth.1] at hpivot
          rw [Nat.testBit_zero, decide_eq_false_iff_not] at hlow
          omega

/-- Independent terms tell apart any two values of no more bits than there are terms. -/
theorem flips_injective {terms : List Nat} (h : independent terms = true) {v w : Nat}
    (hv : v < 2 ^ terms.length) (hw : w < 2 ^ terms.length) (heq : flips terms v = flips terms w) :
    v = w := by
  have hzero : v ^^^ w = 0 := by
    apply independentFor_zero h (Nat.xor_lt_two_pow hv hw)
    rw [flips_xor, heq, Nat.xor_self]
  exact Nat.xor_eq_zero_iff.mp hzero

end Independent

section Blocks

/-- A placement by blocks of `2 ^ k`: where a row's and a column's block starts, in blocks, and the
term each flips inside the block. -/
structure Blocks (k : Nat) where
  rowStart : Nat → Nat
  columnStart : Nat → Nat
  rowTerm : Nat → Nat
  columnTerm : Nat → Nat
  columnStart_zero : columnStart 0 = 0
  rowTerm_lt : ∀ y, rowTerm y < 2 ^ k
  columnTerm_lt : ∀ x, columnTerm x < 2 ^ k

variable {k : Nat} (b : Blocks k)

def Blocks.block (x y : Nat) : Nat := b.rowStart y + b.columnStart x

def Blocks.within (x y : Nat) : Nat := b.rowTerm y ^^^ b.columnTerm x

def Blocks.place (x y : Nat) : Nat := b.block x y * 2 ^ k + b.within x y

theorem Blocks.within_lt (x y : Nat) : b.within x y < 2 ^ k :=
  Nat.xor_lt_two_pow (b.rowTerm_lt y) (b.columnTerm_lt x)

theorem Blocks.place_mod (x y : Nat) : b.place x y % 2 ^ k = b.within x y := by
  rw [Blocks.place, Nat.mul_add_mod_self_right, Nat.mod_eq_of_lt (b.within_lt x y)]

theorem Blocks.place_div (x y : Nat) : b.place x y / 2 ^ k = b.block x y := by
  rw [Blocks.place, Nat.mul_comm, Nat.mul_add_div (Nat.two_pow_pos k),
    Nat.div_eq_of_lt (b.within_lt x y), Nat.add_zero]

theorem Blocks.place_inj {x y x' y' : Nat} (h : b.place x y = b.place x' y') :
    b.block x y = b.block x' y' ∧ b.within x y = b.within x' y' := by
  constructor
  · rw [← b.place_div x y, ← b.place_div x' y', h]
  · rw [← b.place_mod x y, ← b.place_mod x' y', h]

/-- An exclusive-or below a block's size stays inside the block. -/
theorem xor_in_block {a t k : Nat} (block : Nat) (ha : a < 2 ^ k) (ht : t < 2 ^ k) :
    (block * 2 ^ k + a) ^^^ t = block * 2 ^ k + (a ^^^ t) := by
  apply Nat.eq_of_testBit_eq
  intro i
  rw [Nat.mul_comm, Nat.testBit_xor, Nat.testBit_two_pow_mul_add _ ha,
    Nat.testBit_two_pow_mul_add _ (Nat.xor_lt_two_pow ha ht)]
  split
  · rw [Nat.testBit_xor]
  · rename_i hi
    have hhigh : t < 2 ^ i := lt_of_lt_of_le ht (Nat.pow_le_pow_right (by omega) (by omega))
    rw [Nat.testBit_lt_two_pow hhigh, Bool.xor_false]

theorem rowMajor_inj {width height across x y x' y' : Nat} (hx : x / width < across)
    (hx' : x' / width < across)
    (h : y / height * across + x / width = y' / height * across + x' / width) :
    x / width = x' / width ∧ y / height = y' / height := by
  have hmod := congrArg (· % across) h
  have hdiv := congrArg (· / across) h
  have hpos : 0 < across := Nat.lt_of_le_of_lt (Nat.zero_le _) hx
  simp only [Nat.mul_add_mod_self_right, Nat.mod_eq_of_lt hx, Nat.mod_eq_of_lt hx'] at hmod
  simp only [Nat.mul_comm _ across, Nat.mul_add_div hpos, Nat.div_eq_of_lt hx,
    Nat.div_eq_of_lt hx', Nat.add_zero] at hdiv
  exact ⟨hmod, hdiv⟩

end Blocks

end Orbistoun.Lib.Flips
