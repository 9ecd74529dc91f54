import Orbistoun.Gpu.Tiling.OneOffset

/-!
# Elements tiled and detiled by an equation

Row-major elements written into a surface at their places and read back.  An equation's places lie
apart, so each element comes back as it was, and no byte of the surface outside the places changes.
-/

namespace Orbistoun.Gpu.Tiling

open Lib.Flips Lib.Rows Lib.Writes

abbrev Byte := BitVec 8

namespace Equation

variable (e : Equation)

/-- A surface's elements read into row-major order; `none` where the bytes are short of it or the
XOR is refused. -/
def detile (tiled : List Byte) (width height pitch pipeBankXor : Nat) : Option (List Byte) := do
  let table ← e.offsetTable width height pitch pipeBankXor
  let elements ← (pairs width height).mapM fun (x, y) => do
    let place ← table.at' x y
    slice tiled place e.bytes
  return elements.flatten

/-- Elements written in turn: the bytes as far as they were written, and whether all were. -/
def tileElements (table : OffsetTable) (size width : Nat) (linear : List Byte) :
    List (Nat × Nat) → List Byte → List Byte × Option Unit
  | [], tiled => (tiled, some ())
  | (x, y) :: rest, tiled =>
      match (do
        let place ← table.at' x y
        let element ← slice linear ((y * width + x) * size) size
        store tiled place element) with
      | none => (tiled, none)
      | some tiled => tileElements table size width linear rest tiled

/-- Row-major elements written into a surface at their places. -/
def tile (linear tiled : List Byte) (width height pitch pipeBankXor : Nat) :
    List Byte × Option Unit :=
  match e.offsetTable width height pitch pipeBankXor with
  | none => (tiled, none)
  | some table => tileElements table e.bytes width linear (pairs width height) tiled

end Equation

section Store

theorem slice_length {l values : List Byte} {start len : Nat} (h : slice l start len = some values) :
    values.length = len := by
  rw [slice] at h
  split at h
  case isTrue hfits =>
    cases h
    rw [List.length_take, List.length_drop]
    omega
  case isFalse => cases h

theorem slice_eq_some {l values : List Byte} {start len : Nat} (hlen : values.length = len)
    (h : ∀ k < values.length, l[start + k]? = values[k]?) (hfits : start + len ≤ l.length) :
    slice l start len = some values := by
  subst hlen
  rw [slice, if_pos hfits]
  congr 1
  apply List.ext_getElem?
  intro k
  rcases Nat.lt_or_ge k values.length with hk | hk
  · rw [List.getElem?_take_of_lt hk, List.getElem?_drop, h k hk]
  · rw [List.getElem?_eq_none hk, List.getElem?_eq_none]
    rw [List.length_take]
    omega

theorem store_getElem {l values l' : List Byte} {start : Nat} (h : store l start values = some l') :
    l'.length = l.length ∧ ∀ i, l'.getD i 0 = ((Write.at? ⟨start, values⟩ i).getD (l.getD i 0)) := by
  rw [store] at h
  split at h
  case isFalse => cases h
  case isTrue hfits =>
    cases h
    have htake : (l.take start).length = start := by
      rw [List.length_take]
      omega
    constructor
    · rw [List.length_append, List.length_append, htake, List.length_drop]
      omega
    · intro i
      rw [at?_mk]
      by_cases hbefore : i < start
      · rw [if_neg (by omega), List.getD_eq_getElem?_getD, List.append_assoc,
          List.getElem?_append_left (by omega), List.getElem?_take_of_lt hbefore,
          List.getD_eq_getElem?_getD]
        rfl
      · rw [if_pos (by omega), List.getD_eq_getElem?_getD, List.append_assoc,
          List.getElem?_append_right (by omega), htake]
        rcases Nat.lt_or_ge (i - start) values.length with hinside | hafter
        · rw [List.getElem?_append_left hinside, List.getElem?_eq_getElem hinside]
          rfl
        · rw [List.getElem?_append_right hafter, List.getElem?_eq_none hafter, List.getElem?_drop,
            List.getD_eq_getElem?_getD, Option.getD_none]
          congr 2
          omega

end Store

namespace Equation

variable {e : Equation} {table : OffsetTable} {size width : Nat} {linear : List Byte}

/-- Whatever is written, and however far, only the elements' places change. -/
theorem tileElements_frame (ps : List (Nat × Nat)) (tiled : List Byte) {i : Nat}
    (hapart : ∀ p ∈ ps, ∀ place, table.at' p.1 p.2 = some place →
      ¬ (place ≤ i ∧ i < place + size)) :
    (tileElements table size width linear ps tiled).1.length = tiled.length ∧
      (tileElements table size width linear ps tiled).1.getD i 0 = tiled.getD i 0 := by
  induction ps generalizing tiled with
  | nil => exact ⟨rfl, rfl⟩
  | cons p ps ih =>
      obtain ⟨x, y⟩ := p
      rw [tileElements]
      split
      case h_1 => exact ⟨rfl, rfl⟩
      case h_2 next hnext =>
        obtain ⟨place, hplace, element, helement, hstore⟩ :
            ∃ place, table.at' x y = some place ∧ ∃ element,
              slice linear ((y * width + x) * size) size = some element ∧
                store tiled place element = some next := by
          simpa [Option.bind_eq_some_iff] using hnext
        obtain ⟨hlength, hbytes⟩ := store_getElem hstore
        have hrest := ih next (fun q hq => hapart q (List.mem_cons_of_mem _ hq))
        refine ⟨hrest.1.trans hlength, hrest.2.trans ?_⟩
        rw [hbytes, at?_eq_none]
        · rfl
        · rw [Write.Reaches, slice_length helement]
          exact hapart (x, y) List.mem_cons_self place hplace

theorem tileElements_writes (table : OffsetTable) (ps : List (Nat × Nat)) (tiled : List Byte) (place : Nat → Nat → Nat)
    (element : Nat → Nat → List Byte)
    (hplace : ∀ p ∈ ps, table.at' p.1 p.2 = some (place p.1 p.2))
    (helement : ∀ p ∈ ps,
      slice linear ((p.2 * width + p.1) * size) size = some (element p.1 p.2))
    (hfits : ∀ p ∈ ps, place p.1 p.2 + size ≤ tiled.length) :
    ∃ written, tileElements table size width linear ps tiled = (written, some ()) ∧
      written.length = tiled.length ∧
        (fun i => written.getD i 0) = apply (fun i => tiled.getD i 0)
          (ps.map fun p => ⟨place p.1 p.2, element p.1 p.2⟩) := by
  induction ps generalizing tiled with
  | nil => exact ⟨tiled, rfl, rfl, rfl⟩
  | cons p ps ih =>
      obtain ⟨x, y⟩ := p
      have hthis := hplace (x, y) List.mem_cons_self
      have hslice := helement (x, y) List.mem_cons_self
      have hfit := hfits (x, y) List.mem_cons_self
      obtain ⟨next, hnext⟩ : ∃ next, store tiled (place x y) (element x y) = some next := by
        rw [store, if_pos]
        · exact ⟨_, rfl⟩
        · rw [slice_length hslice]
          exact hfit
      obtain ⟨hlength, hbytes⟩ := store_getElem hnext
      obtain ⟨written, hwritten, hlen, hall⟩ := ih next
        (fun q hq => hplace q (List.mem_cons_of_mem _ hq))
        (fun q hq => helement q (List.mem_cons_of_mem _ hq))
        (fun q hq => by
          rw [hlength]
          exact hfits q (List.mem_cons_of_mem _ hq))
      refine ⟨written, ?_, hlen.trans hlength, ?_⟩
      · rw [tileElements]
        have hstep : (do
            let place ← table.at' x y
            let element ← slice linear ((y * width + x) * size) size
            store tiled place element) = some next := by
          rw [hthis, hslice]
          exact hnext
        rw [hstep]
        exact hwritten
      · rw [hall, List.map_cons, apply]
        congr 1
        funext i
        exact hbytes i

section Surface

variable {height pitch pipeBankXor : Nat} {tiled : List Byte}

/-- An element of a row-major image. -/
def elementOf (size width : Nat) (linear : List Byte) (x y : Nat) : List Byte :=
  piece size (y * width + x) linear

theorem slice_element {x y : Nat} (hlen : linear.length = width * height * size) (hx : x < width)
    (hy : y < height) :
    slice linear ((y * width + x) * size) size = some (elementOf size width linear x y) := by
  have hindex : y * width + x + 1 ≤ width * height := by
    calc y * width + x + 1 ≤ (y + 1) * width := by rw [Nat.add_one_mul]; omega
      _ ≤ height * width := Nat.mul_le_mul_right width hy
      _ = width * height := Nat.mul_comm _ _
  have hle : (y * width + x + 1) * size ≤ width * height * size := Nat.mul_le_mul_right size hindex
  rw [Nat.add_one_mul] at hle
  rw [slice, if_pos (by omega)]
  rfl

theorem apart_of_aligned {a b n : Nat} (ha : a % n = 0) (hb : b % n = 0) (hne : a ≠ b) :
    a + n ≤ b ∨ b + n ≤ a := by
  by_contra hnot
  rw [not_or, Nat.not_le, Nat.not_le] at hnot
  rcases Nat.le_total a b with hle | hle
  · exact hne (SurfaceLayout.aligned_eq ha hb hle hnot.1)
  · exact hne (SurfaceLayout.aligned_eq hb ha hle hnot.2).symm

theorem place_spec (h : e.Sound) (hxor : e.Admits pipeBankXor) (pitch : Nat) :
    ∃ place : Nat → Nat → Nat,
      (∀ x y, e.offset x y pitch pipeBankXor = some (place x y)) ∧
      (∀ x y, place x y % e.bytes = 0) ∧
      (∀ x y height, x < pitch → y < height → place x y + e.bytes ≤ e.surfaceBytes pitch height) ∧
      ∀ x y x' y', x < pitch → x' < pitch → (x, y) ≠ (x', y') →
        place x y + e.bytes ≤ place x' y' ∨ place x' y' + e.bytes ≤ place x y := by
  have hoffset := h.offset_eq pitch pipeBankXor hxor
  refine ⟨(h.blocks pitch pipeBankXor).place, hoffset, ?_, ?_, ?_⟩
  · intro x y
    exact h.offset_aligned (hoffset x y)
  · intro x y height hx hy
    exact h.offset_fits hx hy (hoffset x y)
  · intro x y x' y' hx hx' hne
    apply apart_of_aligned (h.offset_aligned (hoffset x y)) (h.offset_aligned (hoffset x' y'))
    intro heq
    obtain ⟨rfl, rfl⟩ := h.offset_inj hx hx' (hoffset x y) (by rw [heq]; exact hoffset x' y')
    exact hne rfl

theorem offsetTable_some (h : e.Sound) (hxor : e.Admits pipeBankXor) (width height pitch : Nat) :
    ∃ table, e.offsetTable width height pitch pipeBankXor = some table ∧
      ∀ x < width, ∀ y < height, table.at' x y = e.offset x y pitch pipeBankXor := by
  obtain ⟨table, htable⟩ : ∃ table, e.offsetTable width height pitch pipeBankXor = some table := by
    rw [offsetTable, h.offset_eq pitch pipeBankXor hxor]
    exact ⟨_, rfl⟩
  exact ⟨table, htable, fun x hx y hy => offsetTable_at' h htable hx hy⟩

theorem mapM_some {α β : Type} {l : List α} {g : α → Option β} (f : α → β)
    (h : ∀ a ∈ l, g a = some (f a)) : l.mapM g = some (l.map f) := by
  induction l with
  | nil => rfl
  | cons a l ih =>
      rw [List.mapM_cons, h a List.mem_cons_self, ih (fun b hb => h b (List.mem_cons_of_mem a hb))]
      rfl

/-- The elements of an image, put together, are the image. -/
theorem flatten_elements {height : Nat} (hlen : linear.length = width * height * size) :
    ((pairs width height).map fun p => elementOf size width linear p.1 p.2).flatten = linear := by
  have hpiece : ((pairs width height).map fun p => elementOf size width linear p.1 p.2) =
      (List.range (height * width)).map fun i => (linear.drop (i * size)).take size := by
    rw [pairs_eq, List.map_map]
    apply List.map_congr_left
    intro i _
    have hindex : i / width * width + i % width = i := by
      rw [Nat.mul_comm, Nat.div_add_mod]
    show piece size (i / width * width + i % width) linear = _
    rw [hindex]
    rfl
  rw [hpiece, flatten_pieces, Nat.mul_comm height, ← hlen, List.take_length]

theorem detile_tile (h : e.Sound) (hxor : e.Admits pipeBankXor) (hpitch : width ≤ pitch)
    (hlen : linear.length = width * height * e.bytes)
    (hfits : e.surfaceBytes pitch height ≤ tiled.length) :
    ∃ written, e.tile linear tiled width height pitch pipeBankXor = (written, some ()) ∧
      e.detile written width height pitch pipeBankXor = some linear := by
  obtain ⟨place, hplace, -, hinside, hapart⟩ := place_spec h hxor pitch
  obtain ⟨table, htable, hat⟩ := offsetTable_some h hxor width height pitch
  have hpairs {p : Nat × Nat} (hp : p ∈ pairs width height) : p.1 < width ∧ p.2 < height :=
    mem_pairs.mp hp
  obtain ⟨written, hwritten, hlength, hbytes⟩ := tileElements_writes table
    (pairs width height) tiled place (elementOf e.bytes width linear)
    (fun p hp => by rw [hat _ (hpairs hp).1 _ (hpairs hp).2, hplace])
    (fun p hp => slice_element hlen (hpairs hp).1 (hpairs hp).2)
    (fun p hp => by
      have := hinside p.1 p.2 height (by have := (hpairs hp).1; omega) (hpairs hp).2
      omega)
  refine ⟨written, by rw [tile, htable]; exact hwritten, ?_⟩
  have hsize {p : Nat × Nat} (hp : p ∈ pairs width height) :
      (elementOf e.bytes width linear p.1 p.2).length = e.bytes :=
    slice_length (slice_element hlen (hpairs hp).1 (hpairs hp).2)
  have hwrites : ((pairs width height).map fun p =>
      (⟨place p.1 p.2, elementOf e.bytes width linear p.1 p.2⟩ : Write Byte)).Pairwise
        Write.Apart := by
    rw [List.pairwise_map]
    apply (pairs_nodup width height).pairwise_of_forall_ne
    intro p hp q hq hne
    rw [Write.Apart, hsize hp, hsize hq]
    have hp' := hpairs hp
    have hq' := hpairs hq
    exact hapart p.1 p.2 q.1 q.2 (by omega) (by omega) hne
  have hread : ∀ p ∈ pairs width height, (do
      let at' ← table.at' p.1 p.2
      slice written at' e.bytes) = some (elementOf e.bytes width linear p.1 p.2) := by
    intro p hp
    have hp' := hpairs hp
    have hfit := hinside p.1 p.2 height (by omega) hp'.2
    rw [hat _ hp'.1 _ hp'.2, hplace]
    show slice written (place p.1 p.2) e.bytes = _
    apply slice_eq_some (hsize hp) _ (by omega)
    intro k hk
    have hbyte : (elementOf e.bytes width linear p.1 p.2)[k]? =
        some (elementOf e.bytes width linear p.1 p.2)[k] := List.getElem?_eq_getElem hk
    have hlast := last?_of_apart hwrites (List.mem_map_of_mem hp) (at?_eq_some hbyte)
    have hvalue := congrFun hbytes (place p.1 p.2 + k)
    rw [apply_eq, hlast] at hvalue
    rw [hsize hp] at hk
    have hinrange : place p.1 p.2 + k < written.length := by omega
    rw [hbyte, List.getElem?_eq_getElem hinrange]
    simpa [List.getD_eq_getElem?_getD, List.getElem?_eq_getElem hinrange] using hvalue
  have hall := mapM_some (fun (p : Nat × Nat) => elementOf e.bytes width linear p.1 p.2) hread
  rw [detile, htable]
  show ((pairs width height).mapM (fun (p : Nat × Nat) => do
      let at' ← table.at' p.1 p.2
      slice written at' e.bytes)).bind (fun elements => some elements.flatten) = some linear
  rw [hall, Option.bind_some, flatten_elements hlen]

/-- The elements of a surface have places apart inside its bytes, at whole elements; what is tiled
is detiled as it was; and no other byte changes. -/
theorem places_round_trip (h : e.Sound) (width height pitch pipeBankXor : Nat)
    (hpitch : width ≤ pitch) (hxor : e.Admits pipeBankXor) :
    ∃ place : Nat → Nat → Nat,
      (∀ x y, x < width → y < height → e.offset x y pitch pipeBankXor = some (place x y) ∧
        place x y % e.bytes = 0 ∧ place x y + e.bytes ≤ e.surfaceBytes pitch height) ∧
      (∀ x y x' y', x < width → y < height → x' < width → y' < height → (x, y) ≠ (x', y') →
        place x y + e.bytes ≤ place x' y' ∨ place x' y' + e.bytes ≤ place x y) ∧
      (∀ linear tiled, linear.length = width * height * e.bytes →
        e.surfaceBytes pitch height ≤ tiled.length →
          ∃ written, e.tile linear tiled width height pitch pipeBankXor = (written, some ()) ∧
            e.detile written width height pitch pipeBankXor = some linear) ∧
      ∀ linear tiled i, (∀ x y, x < width → y < height →
          ¬ (place x y ≤ i ∧ i < place x y + e.bytes)) →
        (e.tile linear tiled width height pitch pipeBankXor).1.length = tiled.length ∧
          (e.tile linear tiled width height pitch pipeBankXor).1.getD i 0 = tiled.getD i 0 := by
  obtain ⟨place, hplace, haligned, hinside, hapart⟩ := place_spec h hxor pitch
  refine ⟨place, ?_, ?_, ?_, ?_⟩
  · intro x y hx hy
    exact ⟨hplace x y, haligned x y, hinside x y height (by omega) hy⟩
  · intro x y x' y' hx _ hx' _ hne
    exact hapart x y x' y' (by omega) (by omega) hne
  · intro linear tiled hlen hfits
    exact detile_tile h hxor hpitch hlen hfits
  · intro linear tiled i hnone
    obtain ⟨table, htable, hat⟩ := offsetTable_some h hxor width height pitch
    rw [tile, htable]
    apply tileElements_frame
    intro p hp at' hat'
    obtain ⟨hx, hy⟩ := mem_pairs.mp hp
    rw [hat _ hx _ hy, hplace, Option.some.injEq] at hat'
    rw [← hat']
    exact hnone p.1 p.2 hx hy

end Surface

end Equation

end Orbistoun.Gpu.Tiling
