import Mathlib.Data.List.Nodup
import Mathlib.Data.Nat.Basic
import Mathlib.Tactic.Ring

/-!
# Row-major loops

A loop over rows and the places of a row is a loop over one index, whichever way the rows are
shared out; pieces of a list of one length are its rows.
-/

namespace Orbistoun.Lib.Rows

variable {α β γ : Type}

def pairs (width height : Nat) : List (Nat × Nat) :=
  (List.range height).flatMap fun y => (List.range width).map fun x => (x, y)

/-- The whole pieces of `n` of a list; what is left over is in none. -/
def chunksExact (n : Nat) (l : List α) : List (List α) :=
  (List.range (l.length / n)).map fun i => (l.drop (i * n)).take n

/-- The pieces of `n` of a list, the last shorter where `n` does not divide its length. -/
def chunks (n : Nat) (l : List α) : List (List α) :=
  (List.range ((l.length + n - 1) / n)).map fun i => (l.drop (i * n)).take n

theorem mem_pairs {width height x y : Nat} :
    (x, y) ∈ pairs width height ↔ x < width ∧ y < height := by
  simp only [pairs, List.mem_flatMap, List.mem_range, List.mem_map, Prod.mk.injEq]
  constructor
  · rintro ⟨y', hy, x', hx, rfl, rfl⟩
    exact ⟨hx, hy⟩
  · rintro ⟨hx, hy⟩
    exact ⟨y, hy, x, hx, rfl, rfl⟩

/-- A list's pieces in turn, put together, are its start. -/
theorem flatten_pieces (n count : Nat) (l : List α) :
    ((List.range count).map fun i => (l.drop (i * n)).take n).flatten = l.take (count * n) := by
  induction count with
  | zero => simp
  | succ count ih =>
      rw [List.range_succ, List.map_append, List.flatten_append, ih, Nat.add_one_mul,
        List.take_add]
      simp

/-- Rows in turn are one index in turn. -/
theorem flatMap_rows (f : Nat → Nat → Nat → α) (width height : Nat) :
    ((List.range height).flatMap fun y => (List.range width).map fun x => f x y (y * width + x)) =
      (List.range (height * width)).map fun i => f (i % width) (i / width) i := by
  induction height with
  | zero => simp
  | succ height ih =>
      have hrow : ((List.range width).map fun x => f x height (height * width + x)) =
          (List.range width).map fun x =>
            f ((height * width + x) % width) ((height * width + x) / width) (height * width + x) := by
        apply List.map_congr_left
        intro x hx
        have hlt := List.mem_range.mp hx
        have hmod : (height * width + x) % width = x := by
          rw [Nat.mul_add_mod_self_right, Nat.mod_eq_of_lt hlt]
        have hdiv : (height * width + x) / width = height := by
          rw [Nat.mul_comm, Nat.mul_add_div (Nat.lt_of_le_of_lt (Nat.zero_le x) hlt),
            Nat.div_eq_of_lt hlt, Nat.add_zero]
        rw [hmod, hdiv]
      rw [List.range_succ, List.flatMap_append, ih, Nat.add_one_mul, List.range_add,
        List.map_append, List.map_map, List.flatMap_singleton, hrow]
      rfl

theorem pairs_eq (width height : Nat) :
    pairs width height = (List.range (height * width)).map fun i => (i % width, i / width) :=
  flatMap_rows (fun x y _ => (x, y)) width height

theorem pairs_nodup (width height : Nat) : (pairs width height).Nodup := by
  rw [pairs_eq]
  apply List.Nodup.map _ List.nodup_range
  intro i j h
  have hmod : i % width = j % width := (Prod.mk.inj h).1
  have hdiv : i / width = j / width := (Prod.mk.inj h).2
  rw [← Nat.div_add_mod i width, hmod, hdiv, Nat.div_add_mod]

theorem zipIdx_map_range (f : Nat → α) (n : Nat) :
    ((List.range n).map f).zipIdx = (List.range n).map fun i => (f i, i) := by
  apply List.ext_getElem
  · simp
  · intro i h h'
    simp

/-- A list is its items in turn. -/
theorem eq_map_getD (l : List α) (d : α) : l = (List.range l.length).map fun i => l.getD i d := by
  apply List.ext_getElem
  · simp
  · intro i h h'
    simp [List.getD_eq_getElem?_getD, List.getElem?_eq_getElem h]

theorem zipIdx_eq (l : List α) (d : α) :
    l.zipIdx = (List.range l.length).map fun i => (l.getD i d, i) := by
  conv => lhs; rw [eq_map_getD l d]
  exact zipIdx_map_range _ _

section Loops

variable {state : Type}

theorem foldlM_flatMap (rows : List α) (items : α → List β) (step : state → β → Option state)
    (s : state) :
    (rows.flatMap items).foldlM step s = rows.foldlM (fun s row => (items row).foldlM step s) s := by
  induction rows generalizing s with
  | nil => rfl
  | cons row rows ih =>
      rw [List.flatMap_cons, List.foldlM_append, List.foldlM_cons]
      congr 1
      funext s'
      exact ih s'

theorem mapM_append (l l' : List α) (g : α → Option β) :
    (l ++ l').mapM g = (do let a ← l.mapM g; let b ← l'.mapM g; return a ++ b) := by
  simp

/-- Rows read in turn, put together, are their items read in turn. -/
theorem mapM_flatMap (rows : List α) (items : α → List β) (g : β → Option γ) :
    (rows.flatMap items).mapM g =
      (rows.mapM fun row => (items row).mapM g).map List.flatten := by
  induction rows with
  | nil => rfl
  | cons row rows ih =>
      rw [List.flatMap_cons, mapM_append, ih, List.mapM_cons]
      cases (items row).mapM g with
      | none => rfl
      | some first =>
          cases rows.mapM fun row => (items row).mapM g with
          | none => rfl
          | some rest => rfl

theorem mapM_congr {l : List α} {g g' : α → Option β} (h : ∀ a ∈ l, g a = g' a) :
    l.mapM g = l.mapM g' := by
  induction l with
  | nil => rfl
  | cons a l ih =>
      rw [List.mapM_cons, List.mapM_cons, h a List.mem_cons_self,
        ih (fun b hb => h b (List.mem_cons_of_mem a hb))]

theorem foldlM_congr {l : List α} {step step' : state → α → Option state}
    (h : ∀ a ∈ l, ∀ s, step s a = step' s a) (s : state) : l.foldlM step s = l.foldlM step' s := by
  induction l generalizing s with
  | nil => rfl
  | cons a l ih =>
      rw [List.foldlM_cons, List.foldlM_cons, h a List.mem_cons_self s]
      congr 1
      funext s'
      exact ih (fun b hb => h b (List.mem_cons_of_mem a hb)) s'

theorem foldlM_map (l : List α) (g : α → β) (step : state → β → Option state) (s : state) :
    (l.map g).foldlM step s = l.foldlM (fun s a => step s (g a)) s :=
  List.foldlM_map

/-- Items one to a list, put together. -/
theorem mapM_singletons (l : List α) (g : α → Option β) :
    (l.mapM fun a => (g a).map fun b => [b]).map List.flatten = l.mapM g := by
  induction l with
  | nil => rfl
  | cons a l ih =>
      rw [List.mapM_cons, List.mapM_cons, ← ih]
      cases g a with
      | none => rfl
      | some b =>
          cases l.mapM fun a => (g a).map fun b => [b] with
          | none => rfl
          | some rest => rfl

def piece (n i : Nat) (l : List α) : List α := (l.drop (i * n)).take n

theorem chunksExact_zipIdx {n height : Nat} (hn : 0 < n) {l : List α}
    (hlen : l.length = height * n) :
    (chunksExact n l).zipIdx = (List.range height).map fun i => (piece n i l, i) := by
  rw [chunksExact, zipIdx_map_range, hlen, Nat.mul_div_cancel height hn]
  rfl

theorem chunks_eq {n height : Nat} (hn : 0 < n) {l : List α} (hlen : l.length = height * n) :
    chunks n l = chunksExact n l := by
  have hceil : (l.length + n - 1) / n = l.length / n := by
    rw [hlen, Nat.mul_div_cancel height hn]
    apply Nat.div_eq_of_lt_le
    · omega
    · rw [Nat.add_one_mul]
      omega
  rw [chunks, hceil]
  rfl

theorem piece_length {n i height : Nat} {l : List α} (hlen : l.length = height * n)
    (hi : i < height) : (piece n i l).length = n := by
  have hle : (i + 1) * n ≤ height * n := Nat.mul_le_mul_right n hi
  rw [Nat.add_one_mul] at hle
  rw [piece, List.length_take, List.length_drop, hlen]
  omega

theorem piece_getD {n i x : Nat} {l : List α} (hx : x < n) (d : α) : (piece n i l).getD x d = l.getD (i * n + x) d := by
  rw [piece, List.getD_eq_getElem?_getD, List.getElem?_take_of_lt hx, List.getElem?_drop,
    List.getD_eq_getElem?_getD]

/-- Pieces of a row are pieces of the whole. -/
theorem piece_piece (per width y x : Nat) (hx : x < width) (l : List α) :
    piece per x (piece (width * per) y l) = piece per (y * width + x) l := by
  have hle : (x + 1) * per ≤ width * per := Nat.mul_le_mul_right per hx
  rw [Nat.add_one_mul] at hle
  rw [piece, piece, piece, List.drop_take, List.take_take, List.drop_drop]
  have hmin : min per (width * per - x * per) = per := by omega
  have hat : y * (width * per) + x * per = (y * width + x) * per := by ring
  rw [hmin, hat]

section Lines

variable {width height : Nat} {l : List α} (step : state → Nat → Nat → α → Option state)

theorem foldlM_rows (g : state → Nat → Nat → Nat → Option state) (width height : Nat) (s : state) :
    (List.range height).foldlM (fun s y =>
        (List.range width).foldlM (fun s x => g s x y (y * width + x)) s) s =
      (List.range (height * width)).foldlM (fun s i => g s (i % width) (i / width) i) s := by
  have hrows := flatMap_rows (fun x y i => (x, y, i)) width height
  have hloop := foldlM_flatMap (List.range height)
    (fun y => (List.range width).map fun x => (x, y, y * width + x))
    (fun s (p : Nat × Nat × Nat) => g s p.1 p.2.1 p.2.2) s
  rw [hrows, foldlM_map] at hloop
  rw [hloop]
  apply foldlM_congr
  intro y _ s'
  rw [foldlM_map]

/-- A loop over rows of items is a loop over the items. -/
theorem foldlM_lines (hwidth : 0 < width) (hlen : l.length = height * width) (d : α) (s : state) :
    (chunksExact width l).zipIdx.foldlM (fun s (line, y) =>
        line.zipIdx.foldlM (fun s (item, x) => step s x y item) s) s =
      (List.range (height * width)).foldlM (fun s i =>
        step s (i % width) (i / width) (l.getD i d)) s := by
  rw [chunksExact_zipIdx hwidth hlen, foldlM_map,
    ← foldlM_rows (fun s x y i => step s x y (l.getD i d)) width height s]
  apply foldlM_congr
  intro y hy s'
  have hy' := List.mem_range.mp hy
  show (piece width y l).zipIdx.foldlM _ s' = _
  rw [zipIdx_eq _ d, foldlM_map, piece_length hlen hy']
  apply foldlM_congr
  intro x hx s''
  rw [piece_getD (List.mem_range.mp hx)]

/-- A loop over rows of pieces is a loop over the pieces. -/
theorem foldlM_pieces (step : state → Nat → Nat → List α → Option state) {per : Nat}
    (hper : 0 < per) (hwidth : 0 < width) (hlen : l.length = height * (width * per)) (s : state) :
    (chunksExact (width * per) l).zipIdx.foldlM (fun s (line, y) =>
        (chunksExact per line).zipIdx.foldlM (fun s (item, x) => step s x y item) s) s =
      (List.range (height * width)).foldlM (fun s i =>
        step s (i % width) (i / width) (piece per i l)) s := by
  rw [chunksExact_zipIdx (Nat.mul_pos hwidth hper) hlen, foldlM_map,
    ← foldlM_rows (fun s x y i => step s x y (piece per i l)) width height s]
  apply foldlM_congr
  intro y hy s'
  have hrow : (piece (width * per) y l).length = width * per :=
    piece_length hlen (List.mem_range.mp hy)
  show (chunksExact per (piece (width * per) y l)).zipIdx.foldlM _ s' = _
  rw [chunksExact_zipIdx hper hrow, foldlM_map]
  apply foldlM_congr
  intro x hx s''
  rw [piece_piece per width y x (List.mem_range.mp hx)]

end Lines

/-- Rows shared out in parts of `each` are every row in turn. -/
theorem flatMap_parts {each : Nat} (heach : 0 < each) (height parts : Nat)
    (hparts : height ≤ parts * each) :
    ((List.range parts).flatMap fun part =>
      (List.range (min each (height - part * each))).map (part * each + ·)) = List.range height := by
  have hupto (n : Nat) : ((List.range n).flatMap fun part =>
      (List.range (min each (height - part * each))).map (part * each + ·)) =
        List.range (min (n * each) height) := by
    induction n with
    | zero => simp
    | succ n ih =>
        rw [List.range_succ, List.flatMap_append, ih, List.flatMap_singleton, Nat.add_one_mul]
        by_cases hle : n * each ≤ height
        · rw [Nat.min_eq_left hle, ← List.range_add]
          congr 1
          omega
        · have hnone : min each (height - n * each) = 0 := by omega
          rw [hnone, List.range_zero, List.map_nil, List.append_nil]
          congr 1
          omega
  rw [hupto, Nat.min_eq_right hparts]

end Loops

end Orbistoun.Lib.Rows
